import FirebaseFfi.Dart.Value

namespace Dart
open Cbor

/-- The low `k` bytes of `n`, least significant first. -/
def le : Nat → Nat → Bytes
  | 0, _ => []
  | k + 1, n => UInt8.ofNat n :: le k (n / 256)

def ofLe : Bytes → Nat
  | [] => 0
  | b :: bs => b.toNat + 256 * ofLe bs

@[simp] theorem le_length (k n : Nat) : (le k n).length = k := by
  induction k generalizing n with
  | zero => rfl
  | succ k ih => simp [le, ih]

theorem ofLe_le (k n : Nat) : ofLe (le k n) = n % 256 ^ k := by
  induction k generalizing n with
  | zero => simp [le, ofLe, Nat.mod_one]
  | succ k ih =>
    have hb : (UInt8.ofNat n).toNat = n % 256 := UInt8.toNat_ofNat'
    rw [le, ofLe, ih, hb, Nat.pow_succ', Nat.mod_mul]

def snapshotHeaderBytes : Nat := 32

/-- FdbSnapshotHeader: magic, version, seq, posted_ns, value_len, order_len. -/
def snapshotHeader (now : UInt64) (seq : Int64) (len : Nat) : Bytes :=
  le 4 0xfdb50000 ++ le 4 1 ++ le 8 seq.toUInt64.toNat ++ le 8 now.toNat ++ le 4 len ++ le 4 0

def fdbPostBuffer (now : UInt64) (seq : Int64) (bytes : Bytes) : Bytes :=
  snapshotHeader now seq bytes.length ++ bytes

/-- A little-endian field of the header, which a ByteData view reads. -/
def field (offset width : Nat) (bytes : Bytes) : Except Thrown Nat :=
  if bytes.length < offset + width then .error .other
  else .ok (ofLe ((bytes.drop offset).take width))

def seqOf (bytes : Bytes) : Except Thrown Int64 := do
  return (UInt64.ofNat (← field 8 8 bytes)).toInt64

/-- The cbor package: cborDecode, cborEncode, toObject, the `==` of its values,
and the toString of Dart objects that are not strings. -/
structure CborPackage where
  decode : Bytes → Except Thrown CborValue
  encode : CborValue → Bytes
  toObject : CborValue → Except Thrown Object
  equal : CborValue → CborValue → Bool
  toString : Object → Option Bytes

/-- What an interpolated object gives, or whatever its toString throws. -/
def interpolated (package : CborPackage) (object : Object) : Except Thrown Bytes :=
  match interpolate package.toString object with
  | some text => .ok text
  | none => .error .other

/-- Whatever the package throws is presented as a FormatException. -/
def decodeSnapshotValue (package : CborPackage) (bytes : Bytes) : Except Thrown Object :=
  if bytes.length < snapshotHeaderBytes then .error .formatException
  else if bytes.length = snapshotHeaderBytes then .ok .null
  else do
    let valueLen ← field 24 4 bytes
    let stop := if valueLen = 0 then bytes.length else snapshotHeaderBytes + valueLen
    if bytes.length < stop then .error .other
    else
      match package.decode ((bytes.take stop).drop snapshotHeaderBytes) >>= package.toObject with
      | .ok object => .ok object
      | .error _ => .error .formatException

theorem field_append {a b c : Bytes} : field a.length b.length (a ++ (b ++ c)) = .ok (ofLe b) := by
  rw [field, if_neg (by simp only [List.length_append]; omega), List.drop_left, List.take_left]

@[simp] theorem snapshotHeader_length (now : UInt64) (seq : Int64) (len : Nat) :
    (snapshotHeader now seq len).length = snapshotHeaderBytes := by
  simp [snapshotHeader, snapshotHeaderBytes]

/-- A posted buffer is read with the sequence number it was posted with. -/
theorem seqOf_post (now : UInt64) (seq : Int64) (bytes : Bytes) :
    seqOf (fdbPostBuffer now seq bytes) = .ok seq := by
  have hsplit : fdbPostBuffer now seq bytes =
      (le 4 0xfdb50000 ++ le 4 1) ++ (le 8 seq.toUInt64.toNat ++
        (le 8 now.toNat ++ le 4 bytes.length ++ le 4 0 ++ bytes)) := by
    simp [fdbPostBuffer, snapshotHeader]
  have hfield : field 8 8 (fdbPostBuffer now seq bytes) = .ok (ofLe (le 8 seq.toUInt64.toNat)) := by
    rw [hsplit]
    exact field_append
  have hlt : seq.toUInt64.toNat < 256 ^ 8 := seq.toUInt64.toNat_lt
  rw [seqOf, hfield, ofLe_le, Nat.mod_eq_of_lt hlt]
  show Except.ok (UInt64.ofNat seq.toUInt64.toNat).toInt64 = _
  rw [UInt64.ofNat_toNat, Int64.toInt64_toUInt64]

/-- The sequence number of a first attempt. -/
theorem first_positive : (0 : Int64) < 1 := by decide

/-- The payload the header of a posted buffer bounds. -/
def boundedPayload (bytes : Bytes) : Bytes :=
  if bytes.length % 2 ^ 32 = 0 then bytes else bytes.take (bytes.length % 2 ^ 32)

theorem decodeSnapshotValue_post (package : CborPackage) (now : UInt64) (seq : Int64)
    {bytes : Bytes} (h : bytes ≠ []) :
    decodeSnapshotValue package (fdbPostBuffer now seq bytes) =
      match package.decode (boundedPayload bytes) >>= package.toObject with
      | .ok object => .ok object
      | .error _ => .error .formatException := by
  have hsplit : fdbPostBuffer now seq bytes =
      (le 4 0xfdb50000 ++ le 4 1 ++ le 8 seq.toUInt64.toNat ++ le 8 now.toNat) ++
        (le 4 bytes.length ++ (le 4 0 ++ bytes)) := by
    simp [fdbPostBuffer, snapshotHeader]
  have hfield : field 24 4 (fdbPostBuffer now seq bytes) = .ok (ofLe (le 4 bytes.length)) := by
    rw [hsplit]
    exact field_append
  have hpos : 0 < bytes.length := List.length_pos_iff.mpr h
  have hlen : (fdbPostBuffer now seq bytes).length = 32 + bytes.length := by
    simp [fdbPostBuffer, snapshotHeaderBytes]
  have hmod := Nat.mod_le bytes.length (2 ^ 32)
  have hvalue : ofLe (le 4 bytes.length) = bytes.length % 2 ^ 32 := ofLe_le 4 _
  rw [decodeSnapshotValue, hlen, if_neg (by simp [snapshotHeaderBytes]),
    if_neg (by simp only [snapshotHeaderBytes]; omega), hfield, hvalue]
  have hpayload : ∀ n, ((fdbPostBuffer now seq bytes).take (snapshotHeaderBytes + n)).drop
      snapshotHeaderBytes = bytes.take n := by
    intro n
    rw [fdbPostBuffer, ← snapshotHeader_length now seq bytes.length, List.take_length_add_append,
      List.drop_left]
  show (if 32 + bytes.length < (if bytes.length % 2 ^ 32 = 0 then 32 + bytes.length
    else snapshotHeaderBytes + bytes.length % 2 ^ 32) then _ else _) = _
  by_cases h0 : bytes.length % 2 ^ 32 = 0
  · rw [if_pos h0, if_neg (by omega), boundedPayload, if_pos h0]
    have := hpayload bytes.length
    rw [List.take_length] at this
    rw [show 32 + bytes.length = snapshotHeaderBytes + bytes.length from rfl, this]
  · rw [if_neg h0, if_neg (by simp only [snapshotHeaderBytes]; omega), boundedPayload, if_neg h0,
      hpayload]

theorem decodeSnapshotValue_empty (package : CborPackage) (now : UInt64) (seq : Int64) :
    decodeSnapshotValue package (fdbPostBuffer now seq []) = .ok .null := by
  simp [decodeSnapshotValue, fdbPostBuffer, snapshotHeaderBytes]

/-- A package that decodes nothing, for a payload with nothing to decode. -/
def idlePackage : CborPackage where
  decode _ := .error .other
  encode _ := []
  toObject _ := .error .other
  equal _ _ := false
  toString _ := none

/-- A package as far as null and the integers that take one byte. -/
def bytePackage : CborPackage where
  decode bytes := match bytes with
    | [b] =>
      if b = 0xf6 then .ok .null else if b < 24 then .ok (.int b.toNat) else .error .other
    | _ => .error .other
  encode c := match c with
    | .int i => [UInt8.ofNat i.toNat]
    | _ => [0xf6]
  toObject c := match c with
    | .null => .ok .null
    | .int i => .ok (.int (Int64.ofInt i))
    | _ => .error .other
  equal _ _ := false
  toString _ := none

end Dart
