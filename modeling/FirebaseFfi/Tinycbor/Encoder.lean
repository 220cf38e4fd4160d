import FirebaseFfi.Cbor.Item
import Mathlib.Data.List.TakeWhile

namespace Tinycbor
open Cbor

/-- The errors the functions used here can report. Success is their absence. -/
inductive CborError
  | unknownError
  | advancePastEOF
  | unexpectedEOF
  | unexpectedBreak
  | unknownType
  | illegalType
  | illegalNumber
  | illegalSimpleType
  | noMoreStringChunks
  | tooManyItems
  | tooFewItems
  | dataTooLarge
  | nestingTooDeep
  | outOfMemory
  deriving DecidableEq, Repr

def sizeMax : Nat := 2 ^ 64 - 1

/-- The union `data` of an encoder, told apart by `end`. With a buffer, `ptr`
is represented by the bytes that precede it; once `end` is null the union
holds the count of bytes that found no room. -/
inductive Sink
  | buffer (written : Bytes) (size : Nat)
  | counting (bytesNeeded : Nat)
  deriving DecidableEq, Repr

structure CborEncoder where
  sink : Sink
  remaining : Nat
  unknownLength : Bool
  deriving DecidableEq, Repr

def cborEncoderInit (size : Nat) : CborEncoder :=
  { sink := .buffer [] size, remaining := 2, unknownLength := false }

def appendToBuffer (enc : CborEncoder) (data : Bytes) : Option CborError × CborEncoder :=
  match enc.sink with
  | .buffer written size =>
    if size < written.length + data.length then
      let missing := data.length - (size - written.length)
      (some .outOfMemory, { enc with sink := .counting missing })
    else
      (none, { enc with sink := .buffer (written ++ data) size })
  | .counting n =>
    if 0 < n + data.length then
      (some .outOfMemory, { enc with sink := .counting (n + data.length) })
    else
      (none, enc)

/-- A number goes out in the shortest head that holds it. -/
def encodeNumberNoUpdate (enc : CborEncoder) (ui : Nat) (major : Nat) :
    Option CborError × CborEncoder :=
  appendToBuffer enc (head major (.shortest ui) ui)

def saturatedDecrement (enc : CborEncoder) : CborEncoder :=
  { enc with remaining := enc.remaining - 1 }

def encodeNumber (enc : CborEncoder) (ui : Nat) (major : Nat) : Option CborError × CborEncoder :=
  encodeNumberNoUpdate (saturatedDecrement enc) ui major

/-- Negative numbers carry their complement under major type 1. -/
def cborEncodeInt (enc : CborEncoder) (value : Int64) : Option CborError × CborEncoder :=
  if value.toInt < 0 then encodeNumber enc (-1 - value.toInt).toNat 1
  else encodeNumber enc value.toInt.toNat 0

def cborEncodeSimpleValue (enc : CborEncoder) (value : Nat) : Option CborError × CborEncoder :=
  if 25 ≤ value ∧ value ≤ 31 then (some .illegalSimpleType, enc)
  else encodeNumber enc value 7

def cborEncodeBoolean (enc : CborEncoder) (value : Bool) : Option CborError × CborEncoder :=
  cborEncodeSimpleValue enc (if value then 21 else 20)

def cborEncodeNull (enc : CborEncoder) : Option CborError × CborEncoder :=
  cborEncodeSimpleValue enc 22

def cborEncodeDouble (enc : CborEncoder) (bits : UInt64) : Option CborError × CborEncoder :=
  appendToBuffer (saturatedDecrement enc) (0xfb :: be 8 bits.toNat)

/-- Tags do not count towards the items of a container. -/
def cborEncodeTag (enc : CborEncoder) (tag : Nat) : Option CborError × CborEncoder :=
  encodeNumberNoUpdate enc tag 6

/-- Lack of room for the head does not stop the content from being counted. -/
def encodeString (enc : CborEncoder) (text : Bool) (string : Bytes) :
    Option CborError × CborEncoder :=
  let (err, enc) := encodeNumber enc string.length (strMajor text)
  if err.isSome ∧ err ≠ some .outOfMemory then (err, enc) else appendToBuffer enc string

def cborEncodeTextString (enc : CborEncoder) (string : Bytes) : Option CborError × CborEncoder :=
  encodeString enc true string

def cborEncodeByteString (enc : CborEncoder) (string : Bytes) : Option CborError × CborEncoder :=
  encodeString enc false string

/-- A C string ends at its first NUL. -/
def cString (s : Bytes) : Bytes := s.takeWhile (· ≠ 0)

theorem cString_length_le (s : Bytes) : (cString s).length ≤ s.length :=
  (List.takeWhile_prefix _).length_le

theorem cString_eq_self {s : Bytes} : cString s = s ↔ (0 : UInt8) ∉ s := by
  rw [cString, List.takeWhile_eq_self_iff]
  constructor
  · intro h h0
    simpa using h 0 h0
  · intro h b hb
    have hne : b ≠ 0 := fun h0 => h (h0 ▸ hb)
    simpa using hne

theorem zero_not_mem_cString (s : Bytes) : (0 : UInt8) ∉ cString s := by
  intro h
  simpa using List.mem_takeWhile_imp h

def cborEncodeTextStringz (enc : CborEncoder) (string : Bytes) : Option CborError × CborEncoder :=
  cborEncodeTextString enc (cString string)

/-- What creating a container leaves: the error, the parent and the child. A
child that was not initialized is the parent's copy, which nothing reads. -/
structure Created where
  err : Option CborError
  parent : CborEncoder
  container : CborEncoder

/-- The child starts where the parent stands and has its own pointer and end
from then on. The parent learns nothing of it until the container is closed. -/
def createContainer (enc : CborEncoder) (length : Option Nat) (major : Nat) : Created :=
  let items := if major = 5 then 2 else 1
  let child : CborEncoder :=
    { sink := enc.sink
      remaining := match length with
        | some n => (items * n + 1) % (sizeMax + 1)
        | none => 0
      unknownLength := length.isNone }
  let (err, child) := match length with
    | some n => encodeNumberNoUpdate child n major
    | none => appendToBuffer child [openByte major]
  ⟨err, saturatedDecrement enc, child⟩

def cborEncoderCreateArray (enc : CborEncoder) (length : Option Nat) : Created :=
  createContainer enc length 4

def cborEncoderCreateMap (enc : CborEncoder) (length : Option Nat) : Created :=
  if length.any (fun n => n > sizeMax / 2) then ⟨some .dataTooLarge, enc, enc⟩
  else createContainer enc length 5

def cborEncoderCloseContainer (parent container : CborEncoder) : Option CborError × CborEncoder :=
  let parent := { parent with sink := container.sink }
  if container.unknownLength then appendToBuffer parent [breakByte]
  else if container.remaining ≠ 1 then
    (some (if container.remaining = 0 then .tooManyItems else .tooFewItems), parent)
  else match parent.sink with
    | .buffer _ _ => (none, parent)
    | .counting _ => (some .outOfMemory, parent)

/-- The buffer up to the write pointer. -/
def cborEncoderGetBuffer (enc : CborEncoder) : Bytes :=
  match enc.sink with
  | .buffer written _ => written
  | .counting _ => []

def cborEncoderGetExtraBytesNeeded (enc : CborEncoder) : Nat :=
  match enc.sink with
  | .buffer _ _ => 0
  | .counting n => n

end Tinycbor
