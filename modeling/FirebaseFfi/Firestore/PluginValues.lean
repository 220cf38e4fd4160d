import FirebaseFfi.Firestore.DartRoundTrip
import FirebaseFfi.Firestore.PluginClauses

namespace Firestore
open Assoc Cbor Dart

/-- What the platform interface makes of the parts of a value. A constructor may
refuse them. -/
structure PlatformInterface where
  timestamp (seconds nanoseconds : Int64) : Except Thrown PluginValue
  geoPoint (latitude longitude : UInt64) : Except Thrown PluginValue
  doc (path : Bytes) : Except Thrown PluginValue

section FromFfi

variable (platform : PlatformInterface) (toString : Object → Option Bytes)

mutual
def valueFromFfi : Object → Except Thrown PluginValue
  | .timestamp s n => platform.timestamp s n
  | .geoPoint a b => platform.geoPoint a b
  | .reference p => platform.doc p
  -- Before the lists, of which a Uint8List is one.
  | .uint8List b => .ok (.blob b)
  | .list xs => do return .list (← valuesFromFfi xs)
  | .map es => do return .map (assignAll [] (← entriesFromFfi es))
  | .null => .ok .null
  | .bool b => .ok (.bool b)
  | .int i => .ok (.int i)
  | .double d => .ok (.double d)
  | .string s => .ok (.string s)
  | .other id => .ok (.other id)
  -- A sentinel of the binding stays what it is, which the plugin has no class for.
  | .delete | .serverTimestamp | .arrayUnion _ | .arrayRemove _ | .incrementInt _
  | .incrementDouble _ => .ok (.other 0)

def valuesFromFfi : List Object → Except Thrown (List PluginValue)
  | [] => .ok []
  | x :: xs => do
    let v ← valueFromFfi x
    let vs ← valuesFromFfi xs
    return v :: vs

def entriesFromFfi : List (Object × Object) → Except Thrown (List (Bytes × PluginValue))
  | [] => .ok []
  | (key, x) :: es =>
    match interpolate toString key with
    | none => .error .other
    | some k => do
      let v ← valueFromFfi x
      let ws ← entriesFromFfi es
      return (k, v) :: ws
end

end FromFfi

/-- A step from a value into an element of it. -/
inductive Into
  | index (i : Nat)
  | key (k : Bytes)

/-- The place that a path of steps leads to. -/
def place {α : Type} (child : α → Into → Option α) : α → List Into → Option α
  | a, [] => some a
  | a, s :: path => (child a s).bind fun b => place child b path

def PluginValue.child : PluginValue → Into → Option PluginValue
  | .list vs, .index i => vs[i]?
  | .map es, .key k => es.lookup k
  | _, _ => none

def underKey (k : Bytes) : List (Dart.CborValue × Dart.CborValue) → Option Dart.CborValue
  | [] => none
  | (.string s, c) :: ces => if k == s then some c else underKey k ces
  | _ :: ces => underKey k ces

def childOf : Dart.CborValue → Into → Option Dart.CborValue
  | .list cs, .index i => cs[i]?
  | .map ces, .key k => underKey k ces
  | _, _ => none

/-- What the encoding has at a place. -/
inductive Mark
  | bytes (b : Bytes)
  | tagged (tag : Nat)
  | plain
  deriving DecidableEq

/-- The mark that a value of the app is to get. -/
def PluginValue.mark : PluginValue → Mark
  | .blob b | .uint8List b => .bytes b
  | .timestamp _ _ => .tagged tagTimestamp
  | .geoPoint _ _ => .tagged tagGeoPoint
  | .reference _ => .tagged tagReference
  | _ => .plain

def markOf : Dart.CborValue → Mark
  | .bytes b => .bytes b
  | .tagged t _ => .tagged t
  | _ => .plain

def PluginValue.number : PluginValue → Option Ieee.Number
  | .int i => some (.finite i.toInt)
  | .double d => some (Ieee.double.datum d.toNat).number
  | _ => none

/-- Equal values of the plugin: numbers by their value, maps by their keys and what
is under each. Bytes come back as a Blob. -/
inductive ComesBack : PluginValue → PluginValue → Prop
  | null : ComesBack .null .null
  | bool {b} : ComesBack (.bool b) (.bool b)
  | number {v w q} : v.number = some q → w.number = some q → ComesBack v w
  | string {s} : ComesBack (.string s) (.string s)
  | uint8List {b} : ComesBack (.uint8List b) (.blob b)
  | blob {b} : ComesBack (.blob b) (.blob b)
  | timestamp {s n} : ComesBack (.timestamp s n) (.timestamp s n)
  | geoPoint {a b a' b'} : SameNumber a a' → SameNumber b b' →
      ComesBack (.geoPoint a b) (.geoPoint a' b')
  | reference {p} : ComesBack (.reference p) (.reference p)
  | list {vs ws} : List.Forall₂ ComesBack vs ws → ComesBack (.list vs) (.list ws)
  | map {es fs : List (Bytes × PluginValue)} : (fs.map Prod.fst).Nodup →
      (∀ k, k ∈ es.map Prod.fst ↔ k ∈ fs.map Prod.fst) →
      (∀ k v w, (k, v) ∈ es → (k, w) ∈ fs → ComesBack v w) → ComesBack (.map es) (.map fs)

section Supported

variable (platform : PlatformInterface)

/-- The trees of values that an app can hand over, FieldValues apart. A Timestamp, a
GeoPoint and a reference are made by their constructors, which take equal parts again. -/
inductive Supported : PluginValue → Prop
  | null : Supported .null
  | bool {b} : Supported (.bool b)
  | int {i} : Supported (.int i)
  | double {d} : Supported (.double d)
  | string {s} : Supported (.string s)
  | uint8List {b} : Supported (.uint8List b)
  | blob {b} : Supported (.blob b)
  | timestamp {s n} : platform.timestamp s n.toInt64 = .ok (.timestamp s n) →
      Supported (.timestamp s n)
  | geoPoint {a b} : (∀ a' b', SameNumber a a' → SameNumber b b' →
      platform.geoPoint a' b' = .ok (.geoPoint a' b')) → Supported (.geoPoint a b)
  | reference {p} : platform.doc p = .ok (.reference p) → Supported (.reference p)
  | list {vs} : (∀ v ∈ vs, Supported v) → Supported (.list vs)
  | map {es : List (Bytes × PluginValue)} : (es.map Prod.fst).Nodup →
      (∀ e ∈ es, Supported e.2) → Supported (.map es)

end Supported

/-- Bytes are only in Blobs. -/
def Wrapped (v : PluginValue) : Prop :=
  ∀ path b, place PluginValue.child v path ≠ some (.uint8List b)

/-- The codec takes the value with every mark in its place, and what it gives back for
it is the value again. -/
structure RoundTrips (platform : PlatformInterface) (toString : Object → Option Bytes)
    (package : CborPackage) (v : PluginValue) : Prop where
  encoded : ∃ c, encodeFirestoreValue toString (valueToFfi v) = .ok c ∧
    (∀ path, (place PluginValue.child v path).map PluginValue.mark =
      (place childOf c path).map markOf) ∧
    ∃ o, decodeFirestoreValue package c = .ok o ∧ SameTree (valueToFfi v) o
  returned : ∀ o, SameTree (valueToFfi v) o →
    ∃ w, valueFromFfi platform toString o = .ok w ∧ ComesBack v w

section Places

variable {α β : Type} {R : α → β → Prop}

theorem rel_map_eq {γ : Type} {f : α → γ} {g : β → γ} {a : Option α} {b : Option β}
    (h : Option.Rel R a b) (heq : ∀ a b, R a b → f a = g b) : a.map f = b.map g := by
  cases h with
  | some hab => exact congrArg some (heq _ _ hab)
  | none => rfl

/-- Trees of which every child corresponds correspond in every place. -/
theorem place_rel {childA : α → Into → Option α} {childB : β → Into → Option β}
    (hchild : ∀ a b, R a b → ∀ s, Option.Rel R (childA a s) (childB b s)) (path : List Into) :
    ∀ {a b}, R a b → Option.Rel R (place childA a path) (place childB b path) := by
  induction path with
  | nil => exact fun h => .some h
  | cons s path ih =>
    intro a b h
    have hs := hchild a b h s
    rw [place, place]
    generalize childA a s = x at hs ⊢
    generalize childB b s = y at hs ⊢
    cases hs with
    | some hab => exact ih hab
    | none => exact .none

theorem elements_rel {as : List α} {bs : List β} (h : List.Forall₂ R as bs) (i : Nat) :
    Option.Rel R as[i]? bs[i]? := by
  induction h generalizing i with
  | nil => exact .none
  | cons hab _ ih =>
    cases i with
    | zero => exact .some hab
    | succ i => exact ih i

theorem underKey_rel {R : α → Dart.CborValue → Prop} {es : List (Bytes × α)}
    {ces : List (Bytes × Dart.CborValue)}
    (h : List.Forall₂ (fun e c => e.1 = c.1 ∧ R e.2 c.2) es ces) (k : Bytes) :
    Option.Rel R (es.lookup k) (underKey k (textKeyed ces)) := by
  induction h with
  | nil => exact .none
  | @cons e c es ces he _ ih =>
    obtain ⟨j, a⟩ := e
    obtain ⟨j', c⟩ := c
    obtain ⟨rfl, hac⟩ := he
    rw [List.lookup_cons, textKeyed, List.map_cons, underKey]
    cases k == j with
    | true => exact .some hac
    | false => exact ih

end Places

section Trees

variable {platform : PlatformInterface}

theorem entriesToFfi_eq_map (es : List (Bytes × PluginValue)) :
    entriesToFfi es = es.map fun e => (e.1, valueToFfi e.2) := by
  induction es with
  | nil => rfl
  | cons e es ih => rw [entriesToFfi, ih, List.map_cons]

/-- A map with distinct keys keeps its entries. -/
theorem mapObject_distinct {es : List (Bytes × PluginValue)} (hd : (es.map Prod.fst).Nodup) :
    mapObject (entriesToFfi es) = .map (es.map fun e => (.string e.1, valueToFfi e.2)) := by
  have hkeys : (es.map fun e => (e.1, valueToFfi e.2)).map Prod.fst = es.map Prod.fst := by
    rw [List.map_map]
    rfl
  rw [mapObject, entriesToFfi_eq_map, assignAll_new (by simpa [hkeys] using hd), List.nil_append,
    List.map_map]
  rfl

theorem textKeys_nodup {α : Type} {f : α → Object} {es : List (Bytes × α)}
    (hd : (es.map Prod.fst).Nodup) :
    ((es.map fun e => (Object.string e.1, f e.2)).map Prod.fst).Nodup := by
  have hkeys : (es.map fun e => (Object.string e.1, f e.2)).map Prod.fst =
      (es.map Prod.fst).map Object.string := by
    rw [List.map_map, List.map_map]
    rfl
  rw [hkeys]
  exact hd.map fun a b hab => Object.string.inj hab

theorem Supported.tree {v : PluginValue} (h : Supported platform v) : Tree false (valueToFfi v) := by
  induction h with
  | null => exact .null
  | bool => exact .bool
  | int => exact .int
  | double => exact .double
  | string => exact .string
  | uint8List =>
    refine .list fun x hx => ?_
    obtain ⟨byte, -, rfl⟩ := List.mem_map.mp hx
    exact .int
  | blob => exact .uint8List
  | timestamp => exact .timestamp
  | geoPoint => exact .geoPoint
  | reference => exact .reference
  | list _ ih =>
    rw [valueToFfi, valuesToFfi_eq_map]
    refine .list fun x hx => ?_
    obtain ⟨v, hv, rfl⟩ := List.mem_map.mp hx
    exact ih v hv
  | map hd _ ih =>
    rw [valueToFfi, mapObject_distinct hd]
    refine .map (textKeys_nodup hd) (fun e he => ?_) fun e he => ?_
    · obtain ⟨e, -, rfl⟩ := List.mem_map.mp he
      exact ⟨e.1, rfl⟩
    · obtain ⟨e, hmem, rfl⟩ := List.mem_map.mp he
      exact ih e hmem

/-- A tree is equal to itself. -/
theorem Tree.refl {sentinels : Bool} {d : Object} (h : Tree sentinels d) : SameTree d d := by
  induction h with
  | null => exact .null
  | bool => exact .bool
  | int => exact .number rfl rfl
  | double => exact .number rfl rfl
  | string => exact .string
  | uint8List => exact .uint8List
  | timestamp => exact .timestamp
  | geoPoint => exact .geoPoint rfl rfl
  | reference => exact .reference
  | list _ ih => exact same_list.mpr (List.forall₂_same.mpr ih)
  | map hd _ _ ih => exact (same_members rfl hd).mpr (List.forall₂_same.mpr ih)
  | delete => exact .delete
  | serverTimestamp => exact .serverTimestamp
  | arrayUnion _ _ ih => exact same_arrayUnion.mpr (List.forall₂_same.mpr ih)
  | arrayRemove _ _ ih => exact same_arrayRemove.mpr (List.forall₂_same.mpr ih)
  | incrementInt => exact .incrementInt
  | incrementDouble => exact .incrementDouble rfl

end Trees

section Decoded

variable {toString : Object → Option Bytes} {package : CborPackage}

theorem encodeElements_each {ds : List Object} {cs : List Dart.CborValue}
    (h : encodeElements toString ds = .ok cs) :
    List.Forall₂ (fun d c => encodeFirestoreValue toString d = .ok c) ds cs := by
  rw [encodeElements_eq_mapM] at h
  exact Machine.mapM_ok.mp h

theorem decodeElements_back {ds : List Object} {cs : List Dart.CborValue}
    (he : encodeElements toString ds = .ok cs)
    (ih : ∀ d ∈ ds, ∀ c, encodeFirestoreValue toString d = .ok c →
      decodeFirestoreValue package c = .ok d) : decodeElements package cs = .ok ds := by
  rw [decodeElements_eq_mapM, Machine.mapM_ok]
  have hall := encodeElements_each he
  rw [List.forall₂_iff_get] at hall ⊢
  exact ⟨hall.1.symm, fun i hc hd => ih _ (List.get_mem ..) _ (hall.2 i hd hc)⟩

theorem decodeMembers_back (hobjects : GivesObjects package) {es : List (Object × Object)} {ces : List (Bytes × Dart.CborValue)}
    (he : List.Forall₂ (fun e c =>
      e.1 = .string c.1 ∧ encodeFirestoreValue toString e.2 = .ok c.2) es ces)
    (ih : ∀ e ∈ es, ∀ c, encodeFirestoreValue toString e.2 = .ok c →
      decodeFirestoreValue package c = .ok e.2)
    (out : List (Bytes × Object)) (hd : (usedKeys out ++ es.map Prod.fst).Nodup) :
    ∃ m, decodeMembers package out (textKeyed ces) = .ok (out ++ m) ∧
      es = m.map fun e => (.string e.1, e.2) := by
  induction he generalizing out with
  | nil => exact ⟨[], by simp [textKeyed, decodeMembers], rfl⟩
  | @cons e c es ces hec _ ihe =>
    obtain ⟨key, d⟩ := e
    obtain ⟨k, c⟩ := c
    obtain ⟨rfl, hc⟩ := hec
    have hdec := ih _ (List.mem_cons_self ..) c hc
    obtain ⟨m, hm, hes⟩ := ihe (fun e he => ih e (List.mem_cons_of_mem _ he)) (out ++ [(k, d)])
      (usedKeys_append hd)
    refine ⟨(k, d) :: m, ?_, by rw [List.map_cons, ← hes]⟩
    rw [decodeFirestoreValue] at hdec
    rw [textKeyed] at hm
    simp only [textKeyed, List.map_cons, decodeMembers, keyText_string hobjects, hdec]
    simpa [bind, Except.bind, setEntry_fresh (usedKeys_fresh hd)] using hm

/-- The decoder gives a tree without sentinels back as it was encoded. -/
theorem Tree.decoded (hobjects : GivesObjects package) {d : Object} (h : Tree false d) :
    ∀ {c : Dart.CborValue}, encodeFirestoreValue toString d = .ok c →
      decodeFirestoreValue package c = .ok d := by
  induction h with
  | @int i =>
    intro c hc
    cases hc
    exact decode_shown hobjects .int .int
  | @timestamp s n =>
    intro c hc
    cases hc
    exact timestamp_shown hobjects s n.toInt64
  | list _ ih =>
    intro c hc
    obtain ⟨cs, hcs, hc⟩ := bind_ok hc
    cases hc
    rw [decodeFirestoreValue, decodeValueAt_list,
      decodeElements_back hcs fun d hd c hc => ih d hd hc]
    rfl
  | @map es hd hk _ ih =>
    intro c hc
    obtain ⟨ces, hces, hc⟩ := bind_ok hc
    cases hc
    obtain ⟨ces, rfl, hall⟩ := encodeMembers_distinct hk (by simpa [usedKeys] using hd) hces
    have hback : ∀ e ∈ es, ∀ c, encodeFirestoreValue toString e.2 = .ok c →
        decodeFirestoreValue package c = .ok e.2 := fun e he c hc => ih e he hc
    obtain ⟨m, hm, rfl⟩ := decodeMembers_back hobjects hall hback [] (by simpa [usedKeys] using hd)
    rw [decodeFirestoreValue, decodeValueAt_map, hm]
    rfl
  | delete h => cases h
  | serverTimestamp h => cases h
  | arrayUnion h => cases h
  | arrayRemove h => cases h
  | incrementInt h => cases h
  | incrementDouble h => cases h
  | null =>
    intro c hc
    cases hc
    exact decode_shown hobjects .null .null
  | bool =>
    intro c hc
    cases hc
    exact decode_shown hobjects .bool .bool
  | double =>
    intro c hc
    cases hc
    exact decode_shown hobjects .float .float
  | string =>
    intro c hc
    cases hc
    exact decode_shown hobjects .string .string
  | geoPoint =>
    intro c hc
    cases hc
    exact geoPoint_shown hobjects _ _
  | uint8List =>
    intro c hc
    cases hc
    rfl
  | reference =>
    intro c hc
    cases hc
    rfl

end Decoded

end Firestore
