import FirebaseFfi.Cbor.Item

namespace Dart
open Cbor

/-- A Dart object as the encoders tell objects apart. A string is its UTF-8
text and a double its bit pattern. `other` is an object of any other class.
The constructors from `delete` on are the values of FirestoreSentinel. -/
inductive Object
  | null
  | bool (b : Bool)
  | int (i : Int64)
  | double (bits : UInt64)
  | string (s : Bytes)
  | uint8List (b : Bytes)
  | list (items : List Object)
  | map (entries : List (Object × Object))
  | other (id : Nat)
  | timestamp (seconds nanoseconds : Int64)
  | geoPoint (latitude longitude : UInt64)
  | reference (path : Bytes)
  | delete
  | serverTimestamp
  | arrayUnion (values : List Object)
  | arrayRemove (values : List Object)
  | incrementInt (by' : Int64)
  | incrementDouble (by' : UInt64)

/-- What a Dart function throws. -/
inductive Thrown
  | argumentError
  | formatException
  | other
  deriving DecidableEq, Repr

theorem ok_bind {α β : Type} (a : α) (f : α → Except Thrown β) : (.ok a >>= f) = f a := rfl

theorem bind_ok {ε α β : Type} {r : Except ε α} {f : α → Except ε β} {b : β}
    (h : r >>= f = .ok b) : ∃ a, r = .ok a ∧ f a = .ok b := by
  cases r with
  | error e => cases h
  | ok a => exact ⟨a, rfl, h⟩

/-- A function that cannot throw does not change whether there is a result. -/
theorem map_ok {ε α β : Type} {r : Except ε α} {f : α → β} :
    (∃ b, (do return f (← r)) = (.ok b : Except ε β)) ↔ ∃ a, r = .ok a := by
  cases r with
  | error e =>
    apply iff_of_false
    · rintro ⟨_, h⟩
      cases h
    · rintro ⟨_, h⟩
      cases h
  | ok a => exact iff_of_true ⟨f a, rfl⟩ ⟨a, rfl⟩

/-- A value of the cbor package. `tagged` puts one tag before those of the
value it is put around. -/
inductive CborValue
  | null
  | undefined
  | bool (b : Bool)
  | simple (n : Nat)
  | int (i : Int)
  | float (bits : UInt64)
  | string (s : Bytes)
  | bytes (b : Bytes)
  | list (items : List CborValue)
  | map (entries : List (CborValue × CborValue))
  | tagged (tag : Nat) (value : CborValue)

/-- `tags.first`, or null for a value without tags. -/
def CborValue.firstTag : CborValue → Option Nat
  | .tagged t _ => some t
  | _ => none

def CborValue.untagged : CborValue → CborValue
  | .tagged _ v => v.untagged
  | v => v

/-- The bytes of an ASCII literal. -/
def ascii (s : String) : Bytes := s.toList.map fun c => UInt8.ofNat c.toNat

/-- What `'${object}'` gives. An object whose toString throws has no text. -/
def interpolate (toString : Object → Option Bytes) : Object → Option Bytes
  | .string s => some s
  | object => toString object

mutual
/-- The items the package may encode a value as: heads of any width, lengths
definite or not, and for a double a float of any width with the same datum or,
when it is whole, the integer it is equal to. -/
inductive Emits : CborValue → Item → Prop
  | null : Emits .null .null
  | bool {b} : Emits (.bool b) (.bool b)
  | int {neg w n} : Emits (.int (intValue neg n)) (.int neg w n)
  | float {d w f n} : floatFormat w = some f → Ieee.double.datum d.toNat = f.datum n →
      Emits (.float d) (.prim w n)
  | whole {d neg w n} : (Ieee.double.datum d.toNat).number = .finite (intValue neg n) →
      Emits (.float d) (.int neg w n)
  | string {s} : Emits (.string s.content) (.str true s)
  | bytes {s} : Emits (.bytes s.content) (.str false s)
  | list {cs len xs} : EmitsAll cs xs → Emits (.list cs) (.array len xs)
  | map {ces len es} : EmitsEntries ces es → Emits (.map ces) (.map len es)
  | tagged {t w c x} : Emits c x → Emits (.tagged t c) (.tag w t x)

inductive EmitsAll : List CborValue → List Item → Prop
  | nil : EmitsAll [] []
  | cons {c x cs xs} : Emits c x → EmitsAll cs xs → EmitsAll (c :: cs) (x :: xs)

inductive EmitsEntries : List (CborValue × CborValue) → List (Item × Item) → Prop
  | nil : EmitsEntries [] []
  | cons {k c key x ces es} : Emits k key → Emits c x → EmitsEntries ces es →
      EmitsEntries ((k, c) :: ces) ((key, x) :: es)
end

/-- A value of major type 7. -/
def primValue (w : Width) (n : Nat) : CborValue :=
  match floatFormat w with
  | some f => .float (.ofNat (if f = Ieee.double then n else Ieee.widen f n))
  | none =>
    if n = 20 then .bool false
    else if n = 21 then .bool true
    else if n = 22 then .null
    else if n = 23 then .undefined
    else .simple n

mutual
/-- The value the package decodes an item as. -/
def cborDecode : Item → CborValue
  | .int neg _ n => .int (intValue neg n)
  | .str true s => .string s.content
  | .str false s => .bytes s.content
  | .array _ xs => .list (decodeAll xs)
  | .map _ es => .map (decodeEntries es)
  | .tag _ t x => .tagged t (cborDecode x)
  | .prim w n => primValue w n

def decodeAll : List Item → List CborValue
  | [] => []
  | x :: xs => cborDecode x :: decodeAll xs

def decodeEntries : List (Item × Item) → List (CborValue × CborValue)
  | [] => []
  | (key, x) :: es => (cborDecode key, cborDecode x) :: decodeEntries es
end

/-- The furthest a DateTime may be from the epoch, in milliseconds. -/
def maxMillisecondsSinceEpoch : Int := 8640000000000000

def maxMicrosecondsSinceEpoch : Int := 8640000000000000000

/-- An instant, to the microsecond, and the zone it is shown in. -/
@[ext]
structure DateTime where
  microsecondsSinceEpoch : Int64
  isUtc : Bool
  inRange : |microsecondsSinceEpoch.toInt| ≤ maxMicrosecondsSinceEpoch
  deriving DecidableEq

def DateTime.toUtc (t : DateTime) : DateTime := { t with isUtc := true }

/-- An instant out of range is an ArgumentError. -/
def DateTime.fromMicrosecondsSinceEpoch (us : Int64) (isUtc : Bool) : Except Thrown DateTime :=
  if h : |us.toInt| ≤ maxMicrosecondsSinceEpoch then .ok ⟨us, isUtc, h⟩
  else .error .argumentError

def DateTime.fromMillisecondsSinceEpoch (ms : Int64) (isUtc : Bool) : Except Thrown DateTime :=
  if |ms.toInt| ≤ maxMillisecondsSinceEpoch then
    fromMicrosecondsSinceEpoch (Int64.ofInt (ms.toInt * 1000)) isUtc
  else .error .argumentError

/-- Dart's `%`, which is never negative. Its `~/` is the `/` of Int64. -/
def modulo (a b : Int64) : Int64 := Int64.ofInt (a.toInt % b.toInt)

theorem DateTime.fromMicrosecondsSinceEpoch_ok {us : Int64} {isUtc : Bool} {t : DateTime} :
    fromMicrosecondsSinceEpoch us isUtc = .ok t ↔
      t.microsecondsSinceEpoch = us ∧ t.isUtc = isUtc := by
  unfold fromMicrosecondsSinceEpoch
  constructor
  · intro h
    split at h
    · obtain rfl := Except.ok.inj h
      exact ⟨rfl, rfl⟩
    · cases h
  · intro h
    obtain ⟨rfl, rfl⟩ := h
    rw [dif_pos t.inRange]

theorem toInt_modulo (a : Int64) {b : Int64} (hb : 0 < b.toInt) :
    (modulo a b).toInt = a.toInt % b.toInt := by
  have hnonneg := Int.emod_nonneg a.toInt (Int.ne_of_gt hb)
  have hlt := Int.emod_lt_of_pos a.toInt hb
  have := b.toInt_lt
  apply Int64.toInt_ofInt_of_le <;> omega

end Dart
