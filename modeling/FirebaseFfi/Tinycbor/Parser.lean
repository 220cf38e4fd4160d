import FirebaseFfi.Tinycbor.Encoder

namespace Tinycbor
open Cbor

/-- The values of CborType. -/
inductive CborType
  | integer | byteString | textString | array | map | tag | simple | boolean | null
  | undefined | halfFloat | float | double | invalid
  deriving DecidableEq, Repr

def CborType.code : CborType → Nat
  | .integer => 0x00
  | .byteString => 0x40
  | .textString => 0x60
  | .array => 0x80
  | .map => 0xa0
  | .tag => 0xc0
  | .simple => 0xe0
  | .boolean => 0xf5
  | .null => 0xf6
  | .undefined => 0xf7
  | .halfFloat => 0xf9
  | .float => 0xfa
  | .double => 0xfb
  | .invalid => 0xff

/-- A cursor. `src` runs from `source.ptr` to the end of the input, and `flags`
is spread over the Boolean fields. The two flags that share a bit never meet in
one item and are kept apart here. -/
structure CborValue where
  src : Bytes
  remaining : Nat
  extra : Nat
  type : CborType
  is64Bit : Bool
  tooLarge : Bool
  negativeInteger : Bool
  beforeFirstStringChunk : Bool
  unknownLength : Bool
  containerIsMap : Bool
  nextIsMapKey : Bool
  deriving DecidableEq, Repr

def uint32Max : Nat := 2 ^ 32 - 1

def isFixedType (type : CborType) : Bool :=
  type != .textString && type != .byteString && type != .array && type != .map

def cborValueIsContainer (it : CborValue) : Bool := it.type == .array || it.type == .map

def cborValueIsLengthKnown (it : CborValue) : Bool := !it.unknownLength

def cborValueAtEnd (it : CborValue) : Bool := it.remaining = 0

def advanceBytes (it : CborValue) (n : Nat) : CborValue := { it with src := it.src.drop n }

/-- How many bytes of argument a descriptor announces. -/
def bytesNeeded (descriptor : Nat) : Nat :=
  if descriptor < 24 then 0 else 2 ^ (descriptor - 24)

/-- The type of a major type before the simple values are told apart. -/
def majorType : Nat → CborType
  | 0 => .integer
  | 1 => .integer
  | 2 => .byteString
  | 3 => .textString
  | 4 => .array
  | 5 => .map
  | 6 => .tag
  | _ => .simple

/-- The number of an item: held in `extra` up to 16 bits, else still in the source. -/
def extractInt64Helper (it : CborValue) : Nat :=
  if it.tooLarge then ofBe ((it.src.drop 1).take (if it.is64Bit then 8 else 4)) else it.extra

def extractNumberAndAdvance (it : CborValue) : Nat × CborValue :=
  let descriptor := (it.src.headD 0).toNat % 32
  (extractInt64Helper it, advanceBytes it (bytesNeeded descriptor + 1))

def preparseSimple (it : CborValue) (descriptor : Nat) : Except CborError CborValue :=
  match descriptor with
  | 20 => .ok { it with extra := 0, type := .boolean }
  | 21 => .ok { it with type := .boolean }
  | 22 => .ok { it with type := .null }
  | 23 => .ok { it with type := .undefined }
  | 24 => if it.extra < 32 then .error .illegalSimpleType else .ok it
  | 25 => .ok { it with type := .halfFloat }
  | 26 => .ok { it with tooLarge := true, type := .float }
  | 27 => .ok { it with tooLarge := true, type := .double }
  | _ => .ok it

/-- Where the number of an item goes: one or two bytes into `extra`. -/
def preparseNumber (it : CborValue) (rest : Bytes) (descriptor : Nat) : CborValue :=
  match bytesNeeded descriptor with
  | 0 => { it with extra := descriptor }
  | 1 => { it with extra := ofBe (rest.take 1) }
  | 2 => { it with extra := ofBe (rest.take 2) }
  | n => { it with extra := 0, tooLarge := true, is64Bit := n = 8 }

def preparseValue (it : CborValue) : Except CborError CborValue :=
  let it := { it with
    type := .invalid, is64Bit := false, tooLarge := false, negativeInteger := false
    beforeFirstStringChunk := false, unknownLength := false }
  match it.src with
  | [] => .error .unexpectedEOF
  | byte :: rest =>
    let major := byte.toNat / 32
    let descriptor := byte.toNat % 32
    let it := { it with type := majorType major, extra := descriptor }
    if 27 < descriptor then
      if descriptor ≠ 31 then
        .error (if major = 7 then .unknownType else .illegalNumber)
      else if isFixedType it.type then
        .error (if major = 7 then .unexpectedBreak else .illegalNumber)
      else
        .ok { it with unknownLength := true }
    else if rest.length < bytesNeeded descriptor then
      .error .unexpectedEOF
    else
      let it := preparseNumber it rest descriptor
      if major = 1 then .ok { it with negativeInteger := true }
      else if major = 7 then preparseSimple it descriptor
      else .ok it

def preparseNextValueNodecrement (it : CborValue) : Except CborError CborValue :=
  if it.remaining = uint32Max ∧ it.src.head? = some breakByte then
    if (it.containerIsMap && it.nextIsMapKey) || it.type == .tag then
      .error .unexpectedBreak
    else
      .ok { it with type := .invalid, remaining := 0, unknownLength := true }
  else
    preparseValue it

/-- A `uint32_t` counting down. -/
def decr32 (n : Nat) : Nat := (n + uint32Max) % 2 ^ 32

/-- A tag does not count as an item of its own. -/
def preparseNextValue (it : CborValue) : Except CborError CborValue :=
  if it.type = .tag then
    preparseNextValueNodecrement it
  else
    let remaining := if it.remaining = uint32Max then uint32Max else decr32 it.remaining
    if remaining = 0 then
      .ok { it with remaining := 0, type := .invalid, unknownLength := false }
    else
      preparseNextValueNodecrement
        { it with remaining := remaining, nextIsMapKey := !it.nextIsMapKey }

def advanceInternal (it : CborValue) : Except CborError CborValue :=
  let (length, it) := extractNumberAndAdvance it
  if it.type == .byteString || it.type == .textString then
    preparseNextValue (advanceBytes it length)
  else
    preparseNextValue it

def cborParserInit (buffer : Bytes) : Except CborError CborValue :=
  preparseValue
    { src := buffer, remaining := 1, extra := 0, type := .invalid, is64Bit := false
      tooLarge := false, negativeInteger := false, beforeFirstStringChunk := false
      unknownLength := false, containerIsMap := false, nextIsMapKey := false }

def cborValueAdvanceFixed (it : CborValue) : Except CborError CborValue :=
  if it.remaining = 0 then .error .advancePastEOF else advanceInternal it

/-- The cursor of a container's contents, with the flags it starts from. -/
def recursedFrom (it : CborValue) (src : Bytes) (remaining : Nat) : CborValue :=
  { src := src, remaining := remaining, extra := it.extra, type := it.type, is64Bit := false
    tooLarge := false, negativeInteger := false, beforeFirstStringChunk := false
    unknownLength := false, containerIsMap := it.type == .map, nextIsMapKey := false }

def cborValueEnterContainer (it : CborValue) : Except CborError CborValue :=
  if it.unknownLength then
    preparseNextValueNodecrement (recursedFrom it (it.src.drop 1) uint32Max)
  else
    let (len, recursed) := extractNumberAndAdvance it
    if len % 2 ^ 32 ≠ len ∨ len = uint32Max then .error .dataTooLarge
    else if it.type == .map ∧ uint32Max / 2 < len then .error .dataTooLarge
    else
      let remaining := if it.type == .map then len * 2 else len
      if len = 0 then .ok { recursed with remaining := remaining, type := .invalid }
      else preparseNextValueNodecrement (recursedFrom it recursed.src remaining)

def cborValueLeaveContainer (it recursed : CborValue) : Except CborError CborValue :=
  let it := { it with src := recursed.src }
  preparseNextValue (if recursed.unknownLength then advanceBytes it 1 else it)

/-- `(int64_t)` of the number, and `-x - 1` of that for a negative integer. The
type of the item is not looked at. -/
def cborValueGetInt64 (it : CborValue) : Int64 :=
  let result := Int64.ofNat (extractInt64Helper it)
  if it.negativeInteger then -result - 1 else result

def cborValueGetBoolean (it : CborValue) : Bool := it.extra ≠ 0

def cborValueGetTag (it : CborValue) : Nat := extractInt64Helper it

def beginStringIteration (it : CborValue) : CborValue :=
  let it := { it with beforeFirstStringChunk := true }
  if cborValueIsLengthKnown it then it else advanceBytes it 1

def finishStringIteration (it : CborValue) : Except CborError CborValue :=
  preparseNextValue (if cborValueIsLengthKnown it then it else advanceBytes it 1)

/-- The next chunk. It has to be of the major type that `type` shows. -/
def getStringChunk (it : CborValue) : Except CborError (Bytes × CborValue) :=
  if cborValueIsLengthKnown it && !it.beforeFirstStringChunk then .error .noMoreStringChunks
  else match it.src with
    | [] => .error .unexpectedEOF
    | byte :: rest =>
      let descriptor := byte.toNat % 32
      if byte = breakByte then .error .noMoreStringChunks
      else if byte.toNat / 32 * 32 ≠ it.type.code then .error .illegalType
      else if 27 < descriptor then .error .illegalNumber
      else if rest.length < bytesNeeded descriptor then .error .unexpectedEOF
      else
        let len := if descriptor < 24 then descriptor else ofBe (rest.take (bytesNeeded descriptor))
        let content := rest.drop (bytesNeeded descriptor)
        if content.length < len then .error .unexpectedEOF
        else .ok (content.take len,
          { it with src := content.drop len, beforeFirstStringChunk := false })

/-- The chunks of a string from here on, joined. Each takes a byte of the
source at least, so that `fuel` never runs out. -/
def iterateStringChunks : Nat → CborValue → Except CborError (Bytes × CborValue)
  | 0, _ => .error .unknownError
  | fuel + 1, it =>
    match getStringChunk it with
    | .error .noMoreStringChunks => .ok ([], it)
    | .error e => .error e
    | .ok (chunk, it) =>
      match iterateStringChunks fuel it with
      | .error e => .error e
      | .ok (chunks, it) => .ok (chunk ++ chunks, it)

def cborValueDupString (it : CborValue) : Except CborError (Bytes × CborValue) :=
  match iterateStringChunks (it.src.length + 2) (beginStringIteration it) with
  | .error e => .error e
  | .ok (content, it) =>
    match finishStringIteration it with
    | .error e => .error e
    | .ok it => .ok (content, it)

/-- `while (!cbor_value_at_end(&it))`, over a cursor and what its body collects.
A turn of any body used here takes a byte of the source at least. -/
def whileNotAtEnd {ε σ : Type} (outOfFuel : ε) (body : CborValue → σ → Except ε (CborValue × σ)) :
    Nat → CborValue → σ → Except ε (CborValue × σ)
  | 0, _, _ => .error outOfFuel
  | fuel + 1, it, acc =>
    if cborValueAtEnd it then .ok (it, acc)
    else match body it acc with
      | .error e => .error e
      | .ok (it, acc) => whileNotAtEnd outOfFuel body fuel it acc

def advanceRecursive : Nat → CborValue → Except CborError CborValue
  | nestingLevel, it =>
    if isFixedType it.type then advanceInternal it
    else if !cborValueIsContainer it then (cborValueDupString it).map (·.2)
    else match nestingLevel with
      | 0 => .error .nestingTooDeep
      | nestingLevel + 1 =>
        match cborValueEnterContainer it with
        | .error e => .error e
        | .ok recursed =>
          match whileNotAtEnd .unknownError
              (fun recursed _ => (advanceRecursive nestingLevel recursed).map fun it => (it, ()))
              (it.src.length + 2) recursed () with
          | .error e => .error e
          | .ok (recursed, _) => cborValueLeaveContainer it recursed

def cborParserMaxRecursions : Nat := 1024

def cborValueAdvance (it : CborValue) : Except CborError CborValue :=
  if it.remaining = 0 then .error .advancePastEOF
  else advanceRecursive cborParserMaxRecursions it

end Tinycbor
