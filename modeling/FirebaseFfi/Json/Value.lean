import FirebaseFfi.Dart.CodeUnits

namespace Json
open Dart

section Characters

abbrev quote : UInt16 := 34
abbrev comma : UInt16 := 44
abbrev colon : UInt16 := 58
abbrev backslash : UInt16 := 92
abbrev openBracket : UInt16 := 91
abbrev closeBracket : UInt16 := 93
abbrev openBrace : UInt16 := 123
abbrev closeBrace : UInt16 := 125

def isSpace (c : UInt16) : Bool := c == 32 || c == 9 || c == 10 || c == 13

def isDigit (c : UInt16) : Bool := 48 ≤ c && c ≤ 57

/-- `e` or `E` -/
def isExponent (c : UInt16) : Bool := c == 101 || c == 69

/-- What may come right after a value inside a container. -/
def isDelimiter (c : UInt16) : Bool := c == comma || c == closeBracket || c == closeBrace

end Characters

section Numbers

/-- How far a number has been read. -/
inductive NumberState
  | start
  | minus
  | zero
  | int
  | point
  | fraction
  | exponent
  | sign
  | exponentDigits
  deriving DecidableEq

def NumberState.next (s : NumberState) (c : UInt16) : Option NumberState :=
  match s with
  | .start => if c = 45 then some .minus else minus c
  | .minus => minus c
  | .zero => if c = 46 then some .point else tail c
  | .int => if isDigit c then some .int else if c = 46 then some .point else tail c
  | .point => if isDigit c then some .fraction else none
  | .fraction => if isDigit c then some .fraction else tail c
  | .exponent => if c = 43 ∨ c = 45 then some .sign else digits c
  | .sign => digits c
  | .exponentDigits => digits c
where
  /-- A zero stands alone before the point. -/
  minus (c : UInt16) : Option NumberState :=
    if c = 48 then some .zero else if isDigit c then some .int else none
  tail (c : UInt16) : Option NumberState := if isExponent c then some .exponent else none
  digits (c : UInt16) : Option NumberState := if isDigit c then some .exponentDigits else none

def NumberState.final (s : NumberState) : Bool :=
  s == .zero || s == .int || s == .fraction || s == .exponentDigits

def numberRun (literal : CodeUnits) : Option NumberState :=
  literal.foldlM NumberState.next .start

/-- A number as it is written. -/
structure Number where
  literal : CodeUnits
  wellFormed : (numberRun literal).any NumberState.final

end Numbers

/-- What a text says. An object keeps its members as they come, a key of several of them too. -/
inductive Value
  | null
  | bool (b : Bool)
  | number (n : Number)
  | string (s : CodeUnits)
  | array (items : List Value)
  | object (members : List (CodeUnits × Value))

section Encoding

def hexDigit (n : Nat) : UInt16 := UInt16.ofNat (if n < 10 then 48 + n else 87 + n)

def encodeUnit (c : UInt16) : CodeUnits :=
  if c = quote ∨ c = backslash then [backslash, c]
  else if c < 32 then
    [backslash, 117, 48, 48, hexDigit (c.toNat / 16), hexDigit (c.toNat % 16)]
  else [c]

def encodeString (s : CodeUnits) : CodeUnits := quote :: (s.flatMap encodeUnit ++ [quote])

mutual
def encode : Value → CodeUnits
  | .null => units "null"
  | .bool true => units "true"
  | .bool false => units "false"
  | .number n => n.literal
  | .string s => encodeString s
  | .array [] => [openBracket, closeBracket]
  | .array (v :: items) => openBracket :: (encode v ++ encodeItems items ++ [closeBracket])
  | .object [] => [openBrace, closeBrace]
  | .object ((key, v) :: members) =>
    openBrace :: (encodeString key ++ colon :: encode v ++ encodeMembers members ++ [closeBrace])

/-- The items after the first. -/
def encodeItems : List Value → CodeUnits
  | [] => []
  | v :: items => comma :: (encode v ++ encodeItems items)

def encodeMembers : List (CodeUnits × Value) → CodeUnits
  | [] => []
  | (key, v) :: members =>
    comma :: (encodeString key ++ colon :: encode v ++ encodeMembers members)
end

end Encoding

end Json
