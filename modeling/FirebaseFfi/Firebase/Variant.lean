import FirebaseFfi.Firestore.DecodeReads
import FirebaseFfi.Firestore.EncodeRoom

namespace Firebase
open Cbor Tinycbor
open Firestore (succeeded andThen encodeContainer Failure checked textItem blobItem intItem
  doubleItem arrayItem mapItem maxSize)

/-- A value of the Realtime Database. A double is its bit pattern, and a map
the entries of its std::map in the order iteration yields them. -/
inductive Variant
  | null
  | bool (b : Bool)
  | int64 (i : Int64)
  | double (bits : UInt64)
  | string (s : Bytes)
  | blob (b : Bytes)
  | vector (items : List Variant)
  | map (entries : List (Variant × Variant))

abbrev VariantMap := List (Variant × Variant)

/-- `Variant::operator<` of the SDK, which orders the maps. -/
abbrev Less := Variant → Variant → Bool

/-- A key that is not a string is written as null. The length of a string is
found by strlen. -/
def encodeKey : Variant → CborEncoder → Bool × CborEncoder
  | .string s, enc => succeeded (cborEncodeTextString enc (cString s))
  | _, enc => succeeded (cborEncodeNull enc)

mutual
def encodeVariant : Variant → CborEncoder → Bool × CborEncoder
  | .null, enc => succeeded (cborEncodeNull enc)
  | .bool b, enc => succeeded (cborEncodeBoolean enc b)
  | .int64 i, enc => succeeded (cborEncodeInt enc i)
  | .double d, enc => succeeded (cborEncodeDouble enc d)
  | .string s, enc => succeeded (cborEncodeTextString enc (cString s))
  | .blob b, enc => succeeded (cborEncodeByteString enc b)
  | .vector items, enc =>
    encodeContainer (cborEncoderCreateArray enc (some items.length)) (encodeVector items)
  | .map entries, enc =>
    encodeContainer (cborEncoderCreateMap enc (some entries.length)) (encodeEntries entries)

def encodeVector : List Variant → CborEncoder → Bool × CborEncoder
  | [], enc => (true, enc)
  | v :: vs, enc => andThen (encodeVariant v enc) (encodeVector vs)

def encodeEntries : VariantMap → CborEncoder → Bool × CborEncoder
  | [], enc => (true, enc)
  | (k, v) :: es, enc =>
    andThen (encodeKey k enc) fun enc => andThen (encodeVariant v enc) (encodeEntries es)
end

/-- A byte and at most eight of length or payload. -/
def kHeader : Nat := 9

mutual
def estimateVariantBytes : Variant → Nat
  | .string s => kHeader + (cString s).length
  | .blob b => kHeader + b.length
  | .vector items => kHeader + estimateVector items
  | .map entries => kHeader + estimateEntries entries
  | _ => kHeader

def estimateVector : List Variant → Nat
  | [] => 0
  | v :: vs => estimateVariantBytes v + estimateVector vs

def estimateEntries : VariantMap → Nat
  | [] => 0
  | (k, v) :: es => estimateVariantBytes k + estimateVariantBytes v + estimateEntries es
end

/-- One encode per attempt, the buffer doubled in between. -/
def serializeVariantLoop (v : Variant) : Nat → Nat → Option Bytes
  | 0, _ => none
  | attempts + 1, cap =>
    match encodeVariant v (cborEncoderInit cap) with
    | (true, enc) => some (cborEncoderGetBuffer enc)
    | (false, _) => serializeVariantLoop v attempts (cap * 2)

def serializeVariant (v : Variant) : Option Bytes :=
  serializeVariantLoop v 16 (estimateVariantBytes v)

section Decode

variable (less : Less)

/-- `emplace` of a std::map puts a key before the first one that is greater,
and keeps the entry of an equivalent key that is already there. -/
def emplace : VariantMap → Variant → Variant → VariantMap
  | [], k, v => [(k, v)]
  | e :: es, k, v =>
    if less e.1 k then e :: emplace es k v
    else if less k e.1 then (k, v) :: e :: es
    else e :: es

abbrev Decoder := CborValue → Except Failure (CborValue × Variant)

def decodeVariantEntry (decode : Decoder) (entry : CborValue) (map : VariantMap) :
    Except Failure (CborValue × VariantMap) := do
  let (entry, key) ← decode entry
  let (entry, value) ← decode entry
  return (entry, emplace less map key value)

def decodeVariantMap (decode : Decoder) (it : CborValue) : Except Failure (CborValue × Variant) := do
  let entry ← checked (cborValueEnterContainer it)
  let (entry, map) ←
    whileNotAtEnd .outOfFuel (decodeVariantEntry less decode) (it.src.length + 1) entry []
  let it ← checked (cborValueLeaveContainer it entry)
  return (it, .map map)

def decodeVariantElement (decode : Decoder) (elem : CborValue) (list : List Variant) :
    Except Failure (CborValue × List Variant) := do
  let (elem, item) ← decode elem
  return (elem, list ++ [item])

def decodeVariantArray (decode : Decoder) (it : CborValue) :
    Except Failure (CborValue × Variant) := do
  let elem ← checked (cborValueEnterContainer it)
  let (elem, list) ←
    whileNotAtEnd .outOfFuel (decodeVariantElement decode) (it.src.length + 1) elem []
  let it ← checked (cborValueLeaveContainer it elem)
  return (it, .vector list)

/-- The cursor after a value of one fixed-size item. -/
def scalar (it : CborValue) (value : Variant) : Except Failure (CborValue × Variant) := do
  let it ← checked (cborValueAdvance it)
  return (it, value)

/-- One level of `fuel` for each level of nesting. -/
def decodeVariant : Nat → Decoder
  | 0, _ => .error .outOfFuel
  | fuel + 1, it =>
    match it.type with
    | .null | .undefined => scalar it .null
    | .boolean => scalar it (.bool (cborValueGetBoolean it))
    | .integer => scalar it (.int64 (cborValueGetInt64 it))
    | .double => scalar it (.double (.ofNat (extractInt64Helper it)))
    | .float => scalar it (.double (.ofNat (Ieee.widen Ieee.single (extractInt64Helper it))))
    | .halfFloat => scalar it (.double (.ofNat (Ieee.widen Ieee.half it.extra)))
    | .textString => do
      let (s, it) ← checked (cborValueDupString it)
      return (it, .string s)
    | .byteString => do
      let (b, it) ← checked (cborValueDupString it)
      return (it, .blob b)
    | .array => decodeVariantArray (decodeVariant fuel) it
    | .map => decodeVariantMap less (decodeVariant fuel) it
    | _ => .error .refused

def parseVariant (cbor : Bytes) : Except Failure Variant := do
  let it ← checked (cborParserInit cbor)
  let (_, v) ← decodeVariant less cbor.length it
  return v

end Decode

mutual
/-- The item a value is written as. -/
def itemOf : Variant → Item
  | .null => .null
  | .bool b => .bool b
  | .int64 i => intItem i
  | .double d => doubleItem d
  | .string s => textItem (cString s)
  | .blob b => blobItem b
  | .vector items => arrayItem (itemsOf items)
  | .map entries => mapItem (entriesOf entries)

def itemsOf : List Variant → List Item
  | [] => []
  | v :: vs => itemOf v :: itemsOf vs

def entriesOf : VariantMap → List (Item × Item)
  | [] => []
  | (.string k, v) :: es => (textItem (cString k), itemOf v) :: entriesOf es
  | (_, v) :: es => (.null, itemOf v) :: entriesOf es
end

/-- The keys of a map ascend. -/
def Ascending (less : Less) (entries : VariantMap) : Prop :=
  entries.Pairwise fun d e => less d.1 e.1 = true ∧ less e.1 d.1 = false

/-- A Variant tree whose maps have string keys. It respects `max_size()` of the
containers in it, and every map is one that a std::map can hold. -/
inductive Variant.Tree (less : Less) : Variant → Prop
  | null : Tree less .null
  | bool {b} : Tree less (.bool b)
  | int64 {i} : Tree less (.int64 i)
  | double {d} : Tree less (.double d)
  | string {s} : s.length ≤ maxSize → Tree less (.string s)
  | blob {b} : b.length ≤ maxSize → Tree less (.blob b)
  | vector {xs} : xs.length ≤ maxSize → (∀ x ∈ xs, Tree less x) → Tree less (.vector xs)
  | map {es} : es.length ≤ maxSize → Ascending less es →
      (∀ e ∈ es, ∃ k, e.1 = .string k ∧ k.length ≤ maxSize) → (∀ e ∈ es, Tree less e.2) →
      Tree less (.map es)

end Firebase
