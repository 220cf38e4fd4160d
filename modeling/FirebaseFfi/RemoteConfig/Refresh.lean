import FirebaseFfi.Assoc.Assign
import FirebaseFfi.Calls.Handlers
import FirebaseFfi.Firestore.DartReads
import FirebaseFfi.Tinycbor.Encoder

namespace RemoteConfig
open Assoc Cbor Dart
open Calls (decodeValues textKeys)
open Firestore (setEntry setEntry_fresh)
open Tinycbor (cString)

inductive RemoteConfigValueSource
  | static
  | defaultValue
  | remote

/-- The platform interface's own. -/
inductive ValueSource
  | valueStatic
  | valueDefault
  | valueRemote
  deriving DecidableEq

structure RemoteConfigValue where
  value : Bytes
  source : ValueSource
  deriving DecidableEq

/-- `_values`, in the order in which the keys came. -/
abbrev Cache := List (Bytes × RemoteConfigValue)

/-- The map configValues completes with. -/
structure ConfigValues where
  entries : List (Bytes × Object)
  distinct : (entries.map Prod.fst).Nodup

section Lookups

/-- `g_config` is null, or reports a source for every key. -/
def fdbRcValueSource (config : Option (Bytes → Int64)) (key : Bytes) : Int64 :=
  match config with
  | none => -1
  | some source => if (cString key).isEmpty then -2 else source (cString key)

/-- Mapped by name: the SDK's order is static, remote, default. -/
def configValueSource (config : Option (Bytes → Int64)) (key : Bytes) :
    Except Thrown RemoteConfigValueSource :=
  let rc := fdbRcValueSource config key
  if rc < 0 then .error .other
  else if rc = 0 then .ok .static
  else if rc = 1 then .ok .remote
  else if rc = 2 then .ok .defaultValue
  else .ok .static

def sourceOf : RemoteConfigValueSource → ValueSource
  | .static => .valueStatic
  | .defaultValue => .valueDefault
  | .remote => .valueRemote

end Lookups

section Refresh

variable (toString : Object → Option Bytes)

/-- `_encode` -/
def encode : Object → Except Thrown Bytes
  | .null => .ok []
  | .bool b => .ok (if b then ascii "true" else ascii "false")
  | v =>
    match interpolate toString v with
    | some text => .ok text
    | none => .error .other

-- `g_config` as the lookup of each key finds it.
variable (config : Bytes → Option (Bytes → Int64))

/-- The function that `values.entries.map` is given. It runs when its entry is added. -/
def configEntry (e : Bytes × Object) : Except Thrown RemoteConfigValue := do
  let value ← encode toString e.2
  let source ← configValueSource (config e.1) e.1
  return ⟨value, sourceOf source⟩

/-- The cache has these values with their sources, and no others. -/
def Holds (entries : List (Bytes × Object)) (cache : Cache) : Prop :=
  List.Forall₂ (fun e d => d.1 = e.1 ∧ configEntry toString config e = .ok d.2) entries cache

/-- A value that has no text, or a key that has no source. -/
def Fails (e : Bytes × Object) : Prop :=
  (e.2 ≠ .null ∧ (∀ b, e.2 ≠ .bool b) ∧ interpolate toString e.2 = none) ∨ config e.1 = none ∨
    cString e.1 = [] ∨ ∃ source, config e.1 = some source ∧ source (cString e.1) < 0

/-- Of the values none fails, or what precedes one that does is what the cache holds. -/
def Spared (answer : Except Thrown ConfigValues) (cache : Cache) : Prop :=
  ∀ values, answer = .ok values → (∀ e ∈ values.entries, ¬ Fails toString config e) ∨
    ∃ before e after, values.entries = before ++ e :: after ∧ Fails toString config e ∧
      Holds toString config before cache

end Refresh

section Values

variable {package : CborPackage}

theorem textKeys_distinct {es : List (Object × Object)} {out m : List (Bytes × Object)}
    (hout : (out.map Prod.fst).Nodup) (h : textKeys package out es = .ok m) :
    (m.map Prod.fst).Nodup := by
  induction es generalizing out with
  | nil =>
    cases h
    exact hout
  | cons e es ih =>
    obtain ⟨k, -, h⟩ := bind_ok h
    have hstep : ((setEntry out k e.2).map Prod.fst).Nodup := assign_nodup (e := (k, e.2)) hout
    exact ih hstep h

/-- Whatever configValues decodes is a map with each key once. -/
theorem decodeValues_distinct {bytes : Bytes} {m : List (Bytes × Object)}
    (h : decodeValues package bytes = .ok m) : ∃ values : ConfigValues, values.entries = m := by
  obtain ⟨decoded, -, h⟩ := bind_ok h
  obtain ⟨entries, -, h⟩ := bind_ok h
  exact ⟨⟨m, textKeys_distinct (by simp) h⟩, rfl⟩

end Values

section Atomicity

variable {toString : Object → Option Bytes} {config : Bytes → Option (Bytes → Int64)}

end Atomicity

end RemoteConfig
