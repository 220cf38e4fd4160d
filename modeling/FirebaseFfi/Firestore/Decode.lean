import FirebaseFfi.Firestore.Value
import FirebaseFfi.Ieee.Binary
import FirebaseFfi.Tinycbor.Parser

namespace Firestore
open Cbor Tinycbor

/-- How decoding ends without a value: it returns false, or the SDK throws from
`Document(path)`. A decoder that is out of fuel is a third thing, and never met. -/
inductive Failure
  | refused
  | threw
  | outOfFuel
  deriving DecidableEq, Repr

/-- `!= CborNoError` turned into `return false`. -/
def checked {α : Type} : Except CborError α → Except Failure α
  | .ok a => .ok a
  | .error _ => .error .refused

/-- Reads a float of any width, or the integer a whole number was written as. -/
def readCborDouble (it : CborValue) : Except Failure UInt64 :=
  match it.type with
  | .double => .ok (.ofNat (extractInt64Helper it))
  | .float => .ok (.ofNat (Ieee.widen Ieee.single (extractInt64Helper it)))
  | .halfFloat => .ok (.ofNat (Ieee.widen Ieee.half it.extra))
  | .integer => .ok (.ofNat (Ieee.ofInt (cborValueGetInt64 it).toInt))
  | _ => .error .refused

/-- `emplace` keeps the value of a key that is already there. -/
def emplace (m : MapFieldValue) (key : Bytes) (value : FieldValue) : MapFieldValue :=
  if m.any (fun e => e.1 = key) then m else m ++ [(key, value)]

abbrev Decoder := CborValue → Except Failure (CborValue × FieldValue)

def decodeEntry (decodeValue : Decoder) (entry : CborValue) (out : MapFieldValue) :
    Except Failure (CborValue × MapFieldValue) :=
  if entry.type == .textString then do
    let (key, entry) ← checked (cborValueDupString entry)
    let (entry, value) ← decodeValue entry
    return (entry, emplace out key value)
  else
    .error .refused

def decodeMap (decodeValue : Decoder) (it : CborValue) :
    Except Failure (CborValue × MapFieldValue) := do
  let entry ← checked (cborValueEnterContainer it)
  let (entry, out) ←
    whileNotAtEnd .outOfFuel (decodeEntry decodeValue) (it.src.length + 1) entry []
  let it ← checked (cborValueLeaveContainer it entry)
  return (it, out)

def decodeElement (decodeValue : Decoder) (elem : CborValue) (items : List FieldValue) :
    Except Failure (CborValue × List FieldValue) := do
  let (elem, v) ← decodeValue elem
  return (elem, items ++ [v])

/-- The loop over an array's elements, which plain arrays, unions and removals share. -/
def decodeArray (decodeValue : Decoder) (it : CborValue) :
    Except Failure (CborValue × List FieldValue) := do
  let elem ← checked (cborValueEnterContainer it)
  let (elem, items) ←
    whileNotAtEnd .outOfFuel (decodeElement decodeValue) (it.src.length + 1) elem []
  let it ← checked (cborValueLeaveContainer it elem)
  return (it, items)

/-- The elements of the pair are not checked to be integers, nor to be all. -/
def decodeTimestamp (it : CborValue) : Except Failure (CborValue × FieldValue) := do
  let pair ← checked (cborValueEnterContainer it)
  let ia := cborValueGetInt64 pair
  let pair ← checked (cborValueAdvance pair)
  let ib := cborValueGetInt64 pair
  let pair ← checked (cborValueAdvance pair)
  let it ← checked (cborValueLeaveContainer it pair)
  return (it, .timestamp ia ib.toInt32)

def decodeGeoPoint (it : CborValue) : Except Failure (CborValue × FieldValue) := do
  let pair ← checked (cborValueEnterContainer it)
  let a ← readCborDouble pair
  let pair ← checked (cborValueAdvance pair)
  let b ← readCborDouble pair
  let pair ← checked (cborValueAdvance pair)
  let it ← checked (cborValueLeaveContainer it pair)
  return (it, .geoPoint a b)

def decodeIncrementInt (it : CborValue) : Except Failure (CborValue × FieldValue) := do
  let elem ← checked (cborValueEnterContainer it)
  let by' := cborValueGetInt64 elem
  let elem ← checked (cborValueAdvance elem)
  let it ← checked (cborValueLeaveContainer it elem)
  return (it, .incrementInt by')

def decodeIncrementDouble (it : CborValue) : Except Failure (CborValue × FieldValue) := do
  let elem ← checked (cborValueEnterContainer it)
  let by' ← readCborDouble elem
  let elem ← checked (cborValueAdvance elem)
  let it ← checked (cborValueLeaveContainer it elem)
  return (it, .incrementDouble by')

/-- Whether `Document(path)` of the SDK makes a reference or throws. The
reference it makes gives back the path. -/
abbrev Document := Bytes → Bool

/-- The payload is duplicated whatever its type is. -/
def decodeReference (document : Document) (it : CborValue) :
    Except Failure (CborValue × FieldValue) := do
  let (path, it) ← checked (cborValueDupString it)
  if document path then return (it, .reference path) else .error .threw

/-- The payload of a tag, at which the cursor stands. -/
def decodePayload (document : Document) (decodeValue : Decoder) (tag : Nat) (it : CborValue) :
    Except Failure (CborValue × FieldValue) :=
  let isArray := it.type == .array
  if tag = tagDelete then do
    let it ← checked (cborValueAdvance it)
    return (it, .delete)
  else if tag = tagServerTimestamp then do
    let it ← checked (cborValueAdvance it)
    return (it, .serverTimestamp)
  else if tag = tagTimestamp then
    if isArray then decodeTimestamp it else .error .refused
  else if tag = tagGeoPoint then
    if isArray then decodeGeoPoint it else .error .refused
  else if tag = tagReference then
    decodeReference document it
  else if tag = tagIncrementInt then
    if isArray then decodeIncrementInt it else .error .refused
  else if tag = tagIncrementDouble then
    if isArray then decodeIncrementDouble it else .error .refused
  else if tag = tagArrayUnion then
    if isArray then do
      let (it, items) ← decodeArray decodeValue it
      return (it, .arrayUnion items)
    else .error .refused
  else if tag = tagArrayRemove then
    if isArray then do
      let (it, items) ← decodeArray decodeValue it
      return (it, .arrayRemove items)
    else .error .refused
  else
    .error .refused

/-- The runs that a payload is read by, which its tag chooses from. -/
inductive PayloadRun (it : CborValue) :
    (Document → Decoder → Except Failure (CborValue × FieldValue)) → Prop
  | refused : PayloadRun it fun _ _ => .error .refused
  | sentinel (value : FieldValue) : PayloadRun it fun _ _ => do
      let it ← checked (cborValueAdvance it)
      return (it, value)
  | timestamp : PayloadRun it fun _ _ => decodeTimestamp it
  | geoPoint : PayloadRun it fun _ _ => decodeGeoPoint it
  | reference : PayloadRun it fun document _ => decodeReference document it
  | incrementInt : PayloadRun it fun _ _ => decodeIncrementInt it
  | incrementDouble : PayloadRun it fun _ _ => decodeIncrementDouble it
  | array (value : List FieldValue → FieldValue) : PayloadRun it fun _ decode => do
      let (it, items) ← decodeArray decode it
      return (it, value items)

/-- A run for a tag that is taken of arrays alone. -/
theorem PayloadRun.guarded {it : CborValue}
    {run : Document → Decoder → Except Failure (CborValue × FieldValue)} (h : PayloadRun it run) :
    ∃ run', PayloadRun it run' ∧ ∀ document decode,
      (if it.type == .array then run document decode else .error .refused) = run' document decode := by
  cases it.type == .array with
  | true => exact ⟨run, h, fun _ _ => rfl⟩
  | false => exact ⟨_, .refused, fun _ _ => rfl⟩

theorem payload_run (tag : Nat) (it : CborValue) :
    ∃ run, PayloadRun it run ∧
      ∀ document decode, decodePayload document decode tag it = run document decode := by
  unfold decodePayload
  by_cases hdelete : tag = tagDelete
  · simp only [if_pos hdelete]
    exact ⟨_, .sentinel .delete, fun _ _ => rfl⟩
  by_cases hserver : tag = tagServerTimestamp
  · simp only [if_neg hdelete, if_pos hserver]
    exact ⟨_, .sentinel .serverTimestamp, fun _ _ => rfl⟩
  simp only [if_neg hdelete, if_neg hserver]
  by_cases htimestamp : tag = tagTimestamp
  · simp only [if_pos htimestamp]
    exact PayloadRun.timestamp.guarded
  simp only [if_neg htimestamp]
  by_cases hgeo : tag = tagGeoPoint
  · simp only [if_pos hgeo]
    exact PayloadRun.geoPoint.guarded
  simp only [if_neg hgeo]
  by_cases hreference : tag = tagReference
  · simp only [if_pos hreference]
    exact ⟨_, .reference, fun _ _ => rfl⟩
  simp only [if_neg hreference]
  by_cases hint : tag = tagIncrementInt
  · simp only [if_pos hint]
    exact PayloadRun.incrementInt.guarded
  simp only [if_neg hint]
  by_cases hdouble : tag = tagIncrementDouble
  · simp only [if_pos hdouble]
    exact PayloadRun.incrementDouble.guarded
  simp only [if_neg hdouble]
  by_cases hunion : tag = tagArrayUnion
  · simp only [if_pos hunion]
    exact (PayloadRun.array .arrayUnion).guarded
  simp only [if_neg hunion]
  by_cases hremove : tag = tagArrayRemove
  · simp only [if_pos hremove]
    exact (PayloadRun.array .arrayRemove).guarded
  simp only [if_neg hremove]
  exact ⟨_, .refused, fun _ _ => rfl⟩

def decodeTagged (document : Document) (decodeValue : Decoder) (it : CborValue) :
    Except Failure (CborValue × FieldValue) := do
  let tag := cborValueGetTag it
  let it ← checked (cborValueAdvanceFixed it)
  decodePayload document decodeValue tag it

/-- The cursor after a value of one fixed-size item. -/
def fixedValue (it : CborValue) (value : FieldValue) : Except Failure (CborValue × FieldValue) := do
  let it ← checked (cborValueAdvanceFixed it)
  return (it, value)

/-- One level of `fuel` for each level of nesting. -/
def decodeValue (document : Document) : Nat → Decoder
  | 0, _ => .error .outOfFuel
  | fuel + 1, it =>
    match it.type with
    | .tag => decodeTagged document (decodeValue document fuel) it
    | .null => fixedValue it .null
    | .boolean => fixedValue it (.boolean (cborValueGetBoolean it))
    | .integer => fixedValue it (.integer (cborValueGetInt64 it))
    | .double | .float | .halfFloat => do
      let d ← readCborDouble it
      fixedValue it (.double d)
    | .textString => do
      let (s, it) ← checked (cborValueDupString it)
      return (it, .string s)
    | .byteString => do
      let (b, it) ← checked (cborValueDupString it)
      return (it, .blob b)
    | .array => do
      let (it, items) ← decodeArray (decodeValue document fuel) it
      return (it, .array items)
    | .map => do
      let (it, m) ← decodeMap (decodeValue document fuel) it
      return (it, .map m)
    | _ => .error .refused

def parseDocumentCbor (document : Document) (cbor : Bytes) : Except Failure MapFieldValue := do
  let it ← checked (cborParserInit cbor)
  if it.type == .map then
    let (_, out) ← decodeMap (decodeValue document cbor.length) it
    return out
  else
    .error .refused

end Firestore
