import FirebaseFfi.Dart.Shown
import FirebaseFfi.Firestore.Value
import FirebaseFfi.Machine.Traverse

namespace Firestore
open Cbor Dart

/-- An entry of a map literal. A key that is there already gets the new value. -/
def setEntry {α : Type} (m : List (Bytes × α)) (key : Bytes) (value : α) : List (Bytes × α) :=
  if m.any (fun e => e.1 = key) then m.map fun e => if e.1 = key then (key, value) else e
  else m ++ [(key, value)]

theorem intItem_value (i : Int64) : cborDecode (intItem i) = .int i.toInt := by
  unfold intItem
  split
  · simp only [cborDecode, intValue, if_true, Dart.CborValue.int.injEq]
    omega
  · simp only [cborDecode, intValue, Bool.false_eq_true, if_false, Dart.CborValue.int.injEq]
    omega

def textKeyed (m : List (Bytes × Dart.CborValue)) : List (Dart.CborValue × Dart.CborValue) :=
  m.map fun e => (.string e.1, e.2)

section Encode

variable (toString : Object → Option Bytes)

mutual
def encodeFirestoreValue : Object → Except Thrown Dart.CborValue
  | .null => .ok .null
  | .bool b => .ok (.bool b)
  | .int i => .ok (.int i.toInt)
  | .double d => .ok (.float d)
  | .string s => .ok (.string s)
  | .uint8List b => .ok (.bytes b)
  | .timestamp s n => .ok (.tagged tagTimestamp (.list [.int s.toInt, .int n.toInt]))
  | .geoPoint a b => .ok (.tagged tagGeoPoint (.list [.float a, .float b]))
  | .reference p => .ok (.tagged tagReference (.string p))
  | .arrayUnion xs => do return .tagged tagArrayUnion (.list (← encodeElements xs))
  | .arrayRemove xs => do return .tagged tagArrayRemove (.list (← encodeElements xs))
  | .incrementInt i => .ok (.tagged tagIncrementInt (.list [.int i.toInt]))
  | .incrementDouble d => .ok (.tagged tagIncrementDouble (.list [.float d]))
  | .delete => .ok (.tagged tagDelete .null)
  | .serverTimestamp => .ok (.tagged tagServerTimestamp .null)
  | .list xs => do return .list (← encodeElements xs)
  | .map es => do return .map (textKeyed (← encodeMembers [] es))
  | .other _ => .error .argumentError

def encodeElements : List Object → Except Thrown (List Dart.CborValue)
  | [] => .ok []
  | x :: xs => do
    let c ← encodeFirestoreValue x
    let cs ← encodeElements xs
    return c :: cs

/-- Entries after those in `out`. -/
def encodeMembers (out : List (Bytes × Dart.CborValue)) :
    List (Object × Object) → Except Thrown (List (Bytes × Dart.CborValue))
  | [] => .ok out
  | (key, x) :: es =>
    match interpolate toString key with
    | none => .error .other
    | some k => do
      let c ← encodeFirestoreValue x
      encodeMembers (setEntry out k c) es
end

theorem encodeElements_eq_mapM (xs : List Object) :
    encodeElements toString xs = xs.mapM (encodeFirestoreValue toString) := by
  induction xs with
  | nil => rfl
  | cons x xs ih => rw [encodeElements, List.mapM_cons, ih]

end Encode

/-- A Dart number. -/
inductive Num
  | int (i : Int64)
  | double (bits : UInt64)

/-- `as num` -/
def asNum : Object → Except Thrown Num
  | .int i => .ok (.int i)
  | .double d => .ok (.double d)
  | _ => .error .other

/-- The nearest int64, which `double.toInt` saturates to. -/
def saturate (i : Int) : Int64 := Int64.ofInt (max (-2 ^ 63) (min (2 ^ 63 - 1) i))

def Num.toInt : Num → Except Thrown Int64
  | .int i => .ok i
  | .double d =>
    match Ieee.double.datum d.toNat with
    | .finite _ q => .ok (saturate (q.num.tdiv q.den))
    | _ => .error .other

def Num.toDouble : Num → UInt64
  | .int i => .ofNat (Ieee.ofInt i.toInt)
  | .double d => d

def isSentinelTag (t : Nat) : Bool :=
  t == tagDelete || t == tagServerTimestamp || t == tagArrayUnion || t == tagArrayRemove ||
    t == tagIncrementInt || t == tagIncrementDouble

section Decode

variable (package : CborPackage)

/-- `(v as CborList).toObject()! as List<Object?>`. A Uint8List is such a list too. -/
def listObject (v : Dart.CborValue) : Except Thrown (List Object) :=
  match v.untagged with
  | .list _ => do
    match ← package.toObject v with
    | .list xs => .ok xs
    | .uint8List b => .ok (b.map fun byte => .int (.ofNat byte.toNat))
    | _ => .error .other
  | _ => .error .other

/-- The first two elements are used. -/
def timestampFrom (v : Dart.CborValue) : Except Thrown Object := do
  match ← listObject package v with
  | a :: b :: _ => do
    let s ← (← asNum a).toInt
    let n ← (← asNum b).toInt
    return .timestamp s n
  | _ => .error .other

def geoPointFrom (v : Dart.CborValue) : Except Thrown Object := do
  match ← listObject package v with
  | a :: b :: _ => do
    let latitude ← asNum a
    let longitude ← asNum b
    return .geoPoint latitude.toDouble longitude.toDouble
  | _ => .error .other

def referenceFrom (v : Dart.CborValue) : Except Thrown Object :=
  match v.untagged with
  | .string p => .ok (.reference p)
  | _ => .error .other

/-- `e.key.toObject().toString()` -/
def keyText (key : Dart.CborValue) : Except Thrown Bytes := do
  interpolated package (← package.toObject key)

mutual
/-- What `whole` is decoded as, of which `first` tells whether its first tag is still to
come. No other tag is looked at here, and what holds no other values is left to `toObject`
with all of its tags. -/
def decodeValueAt (whole : Dart.CborValue) (first : Bool) : Dart.CborValue → Except Thrown Object
  | .tagged t v =>
    if first then
      if t = tagTimestamp then timestampFrom package whole
      else if t = tagGeoPoint then geoPointFrom package whole
      else if t = tagReference then referenceFrom whole
      else if isSentinelTag t then .error .formatException
      else decodeValueAt whole false v
    else decodeValueAt whole false v
  | .bytes b => .ok (.uint8List b)
  | .list cs => do return .list (← decodeElements cs)
  | .map ces => do
    let m ← decodeMembers [] ces
    return .map (m.map fun e => (.string e.1, e.2))
  | _ => package.toObject whole

def decodeElements : List Dart.CborValue → Except Thrown (List Object)
  | [] => .ok []
  | c :: cs => do
    let x ← decodeValueAt c true c
    let xs ← decodeElements cs
    return x :: xs

def decodeMembers (out : List (Bytes × Object)) :
    List (Dart.CborValue × Dart.CborValue) → Except Thrown (List (Bytes × Object))
  | [] => .ok out
  | (key, c) :: ces => do
    let k ← keyText package key
    let x ← decodeValueAt c true c
    decodeMembers (setEntry out k x) ces
end

def decodeFirestoreValue (v : Dart.CborValue) : Except Thrown Object :=
  decodeValueAt package v true v

theorem decodeElements_eq_mapM (cs : List Dart.CborValue) :
    decodeElements package cs = cs.mapM (decodeFirestoreValue package) := by
  induction cs with
  | nil => rfl
  | cons c cs ih => rw [decodeElements, List.mapM_cons, ih, decodeFirestoreValue]

section Shapes

variable {package : CborPackage} {whole : Dart.CborValue} {first : Bool}

theorem decodeFirestoreValue_tagged (t : Nat) (v : Dart.CborValue) :
    decodeFirestoreValue package (.tagged t v) =
      if t = tagTimestamp then timestampFrom package (.tagged t v)
      else if t = tagGeoPoint then geoPointFrom package (.tagged t v)
      else if t = tagReference then referenceFrom (.tagged t v)
      else if isSentinelTag t then .error .formatException
      else decodeValueAt package (.tagged t v) false v := rfl

theorem decodeValueAt_inner (t : Nat) (v : Dart.CborValue) :
    decodeValueAt package whole false (.tagged t v) = decodeValueAt package whole false v := rfl

theorem decodeValueAt_bytes (b : Bytes) :
    decodeValueAt package whole first (.bytes b) = .ok (.uint8List b) := rfl

theorem decodeValueAt_list (cs : List Dart.CborValue) :
    decodeValueAt package whole first (.list cs) =
      (do return .list (← decodeElements package cs)) := rfl

theorem decodeValueAt_map (ces : List (Dart.CborValue × Dart.CborValue)) :
    decodeValueAt package whole first (.map ces) =
      (do
        let m ← decodeMembers package [] ces
        return .map (m.map fun e => (.string e.1, e.2))) := rfl

end Shapes

end Decode

/-- What is assumed of `toObject` where a document comes back: a value without tags gives
the object that it shows, and a list does so below the tags of a timestamp and a geo point
too. -/
structure GivesObjects (package : CborPackage) : Prop where
  shown : ∀ c o, Shows c o → package.toObject c = .ok o
  tagged : ∀ t cs os, t = tagTimestamp ∨ t = tagGeoPoint → ShowsAll cs os →
    package.toObject (.tagged t (.list cs)) = .ok (.list os)

end Firestore
