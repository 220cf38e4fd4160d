import FirebaseFfi.Firestore.Decode
import FirebaseFfi.Tinycbor.Walk

namespace Firestore
open Cbor Tinycbor

/-- Why an item has no value: the decoder fails on it, or it does not notice
that the item is of another shape than the one it reads it as. -/
inductive Stop
  | fails
  | unchecked
  deriving DecidableEq, Repr

/-- What an item is to the decoder. -/
abbrev Reading (α : Type) := Except Stop α

def Reading.fails {α : Type} : Reading α := .error .fails

def Reading.unchecked {α : Type} : Reading α := .error .unchecked

def int64Of (neg : Bool) (n : Nat) : Int64 :=
  if neg then -Int64.ofNat n - 1 else Int64.ofNat n

def tooMany (isMap : Bool) (len : Option Width) (n : Nat) : Bool :=
  len.isSome && countLimit isMap ≤ n

/-- An integer beyond int64 wraps. -/
def readInt : Item → Reading Int64
  | .int neg _ n => .ok (int64Of neg n)
  | _ => .unchecked

def readDouble : Item → Reading UInt64
  | .prim .eight n => .ok (.ofNat n)
  | .prim .four n => .ok (.ofNat (Ieee.widen Ieee.single n))
  | .prim .two n => .ok (.ofNat (Ieee.widen Ieee.half n))
  | .int neg _ n => .ok (.ofNat (Ieee.ofInt (int64Of neg n).toInt))
  | _ => .fails

/-- Exactly two elements. Fewer are refused, more go unnoticed. -/
def readPair {α : Type} (read : Item → Reading α) : List Item → Reading (α × α)
  | [] => .fails
  | [x] => do
    let _ ← read x
    .fails
  | [x, y] => do
    let a ← read x
    let b ← read y
    return (a, b)
  | x :: y :: _ => do
    let _ ← read x
    let _ ← read y
    .unchecked

def readSingle {α : Type} (read : Item → Reading α) : List Item → Reading α
  | [] => .fails
  | [x] => read x
  | x :: _ => do
    let _ ← read x
    .unchecked

def readTimestamp (xs : List Item) : Reading FieldValue := do
  let (s, n) ← readPair readInt xs
  return .timestamp s n.toInt32

def readGeoPoint (xs : List Item) : Reading FieldValue := do
  let (a, b) ← readPair readDouble xs
  return .geoPoint a b

def readReference (document : Document) : Item → Reading FieldValue
  | .str true s => if document s.content then .ok (.reference s.content) else .fails
  | _ => .unchecked

def readPrim (w : Width) (n : Nat) : Reading FieldValue :=
  match primType w n with
  | .boolean => .ok (.boolean (n ≠ 20))
  | .null => .ok .null
  | .double | .float | .halfFloat => do
    let d ← readDouble (.prim w n)
    return .double d
  | _ => .fails

def readNull (value : FieldValue) : Item → Reading FieldValue
  | .prim .tiny 22 => .ok value
  | _ => .unchecked

/-- The tags whose payload has to be an array. -/
def readArrayTag (t : Nat) (xs : List Item) (items : Reading (List FieldValue)) :
    Reading FieldValue :=
  if t = tagTimestamp then readTimestamp xs
  else if t = tagGeoPoint then readGeoPoint xs
  else if t = tagIncrementInt then do return .incrementInt (← readSingle readInt xs)
  else if t = tagIncrementDouble then do return .incrementDouble (← readSingle readDouble xs)
  else if t = tagArrayUnion then do return .arrayUnion (← items)
  else if t = tagArrayRemove then do return .arrayRemove (← items)
  else .fails

/-- The payload of a tag, with the reading of its elements when it is an array. -/
def readPayload (document : Document) (t : Nat) (x : Item) (items : Reading (List FieldValue)) :
    Reading FieldValue :=
  if t = tagDelete then readNull .delete x
  else if t = tagServerTimestamp then readNull .serverTimestamp x
  else if t = tagReference then readReference document x
  else match x with
    | .array len xs => if tooMany false len xs.length then .fails else readArrayTag t xs items
    | _ => .fails

mutual
def readItem (document : Document) : Item → Reading FieldValue
  | .int neg _ n => .ok (.integer (int64Of neg n))
  | .str true s => .ok (.string s.content)
  | .str false s => .ok (.blob s.content)
  | .array len xs =>
    if tooMany false len xs.length then .fails
    else do return .array (← readItems document xs)
  | .map len es =>
    if tooMany true len es.length then .fails
    else do return .map (← readEntries document [] es)
  | .tag _ t (.array len xs) =>
    readPayload document t (.array len xs) (readItems document xs)
  | .tag _ t x => readPayload document t x .fails
  | .prim w n => readPrim w n

def readItems (document : Document) : List Item → Reading (List FieldValue)
  | [] => .ok []
  | x :: xs => do
    let v ← readItem document x
    let vs ← readItems document xs
    return v :: vs

/-- Entries after those in `out`. -/
def readEntries (document : Document) (out : MapFieldValue) :
    List (Item × Item) → Reading MapFieldValue
  | [] => .ok out
  | (.str true s, v) :: es => do
    let value ← readItem document v
    readEntries document (emplace out s.content value) es
  | _ :: _ => .fails
end

theorem tooMany_of_length {isMap : Bool} {len : Option Width} {n : Nat} (h : n < 2 ^ 31) :
    tooMany isMap len n = false := by
  cases isMap <;> simp [tooMany, countLimit, uint32Max] <;> omega

section Payloads

variable {document : Document} {w : Width} {len : Option Width} {x y : Item}

/-- The payload of a tag that needs an array. -/
theorem readPayload_array {t : Nat} {len : Option Width} {xs : List Item}
    {items : Reading (List FieldValue)} (h1 : t ≠ tagDelete) (h2 : t ≠ tagServerTimestamp)
    (h3 : t ≠ tagReference) : readPayload document t (.array len xs) items =
      if tooMany false len xs.length then .fails else readArrayTag t xs items := by
  simp only [readPayload, if_neg h1, if_neg h2, if_neg h3]

theorem readPayload_tuple {t : Nat} {len : Option Width} {xs : List Item}
    {items : Reading (List FieldValue)} (h1 : t ≠ tagDelete) (h2 : t ≠ tagServerTimestamp)
    (h3 : t ≠ tagReference) (hlen : xs.length < 2 ^ 31) :
    readPayload document t (.array len xs) items = readArrayTag t xs items := by
  rw [readPayload_array h1 h2 h3, tooMany_of_length hlen]
  rfl

theorem readItem_timestamp {s : Int64} {n : Int32} (hx : readInt x = .ok s)
    (hy : readInt y = .ok n.toInt64) :
    readItem document (.tag w tagTimestamp (.array len [x, y])) = .ok (.timestamp s n) := by
  have hread : readTimestamp [x, y] = .ok (.timestamp s n) := by
    simp only [readTimestamp, readPair, hx, hy]
    show Except.ok (FieldValue.timestamp s n.toInt64.toInt32) = _
    rw [Int32.toInt32_toInt64]
  simp only [readItem]
  rw [readPayload_tuple (by decide) (by decide) (by decide) (by simp), readArrayTag, if_pos rfl,
    hread]

theorem readItem_geoPoint {a b : UInt64} (hx : readDouble x = .ok a) (hy : readDouble y = .ok b) :
    readItem document (.tag w tagGeoPoint (.array len [x, y])) = .ok (.geoPoint a b) := by
  have hread : readGeoPoint [x, y] = .ok (.geoPoint a b) := by
    simp only [readGeoPoint, readPair, hx, hy]
    rfl
  simp only [readItem]
  rw [readPayload_tuple (by decide) (by decide) (by decide) (by simp), readArrayTag,
    if_neg (by decide), if_pos rfl, hread]

theorem readItem_incrementInt {i : Int64} (hx : readInt x = .ok i) :
    readItem document (.tag w tagIncrementInt (.array len [x])) = .ok (.incrementInt i) := by
  have hread : readSingle readInt [x] = .ok i := hx
  simp only [readItem]
  rw [readPayload_tuple (by decide) (by decide) (by decide) (by simp), readArrayTag,
    if_neg (by decide), if_neg (by decide), if_pos rfl, hread]
  rfl

theorem readItem_incrementDouble {d : UInt64} (hx : readDouble x = .ok d) :
    readItem document (.tag w tagIncrementDouble (.array len [x])) = .ok (.incrementDouble d) := by
  have hread : readSingle readDouble [x] = .ok d := hx
  simp only [readItem]
  rw [readPayload_tuple (by decide) (by decide) (by decide) (by simp), readArrayTag,
    if_neg (by decide), if_neg (by decide), if_neg (by decide), if_pos rfl, hread]
  rfl

end Payloads

end Firestore
