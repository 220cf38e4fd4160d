import FirebaseFfi.Json.Value

namespace Json
open Dart

/-- A number that is being read. -/
structure NumberPart where
  literal : CodeUnits
  state : NumberState
  reached : numberRun literal = some state

def NumberPart.empty : NumberPart := ⟨[], .start, rfl⟩

theorem numberRun_append {literal : CodeUnits} {s : NumberState} (h : numberRun literal = some s)
    (c : UInt16) : numberRun (literal ++ [c]) = s.next c := by
  rw [numberRun, List.foldlM_append]
  change (numberRun literal >>= fun s => [c].foldlM NumberState.next s) = s.next c
  rw [h]
  simp

def NumberPart.next (p : NumberPart) (c : UInt16) : Option NumberPart :=
  match h : p.state.next c with
  | none => none
  | some s => some ⟨p.literal ++ [c], s, (numberRun_append p.reached c).trans h⟩

def NumberPart.value (p : NumberPart) : Option Number :=
  if h : p.state.final then some ⟨p.literal, by simpa [p.reached] using h⟩ else none

/-- A container that is open, or the whole text when its value is there. -/
inductive Frame
  | array (items : List Value)
  | object (members : List (CodeUnits × Value))
  | member (members : List (CodeUnits × Value)) (key : CodeUnits)
  | text (v : Value)

inductive Mode
  | value
  | firstItem
  | firstKey
  | key
  | colon
  | after
  | string (read : CodeUnits)
  | escape (read : CodeUnits)
  | hex (read : CodeUnits) (count : Nat) (n : Nat)
  | number (p : NumberPart)
  | literal (rest : CodeUnits) (v : Value)

structure State where
  mode : Mode
  stack : List Frame

/-- The frames once a value is complete. -/
def place (v : Value) : List Frame → Option (List Frame)
  | [] => some [.text v]
  | .array items :: stack => some (.array (items ++ [v]) :: stack)
  | .member members key :: stack => some (.object (members ++ [(key, v)]) :: stack)
  | _ => none

def placed (v : Value) (stack : List Frame) : Option State := (place v stack).map (⟨.after, ·⟩)

def beginValue (stack : List Frame) (c : UInt16) : Option State :=
  if c = quote then some ⟨.string [], stack⟩
  else if c = openBracket then some ⟨.firstItem, .array [] :: stack⟩
  else if c = openBrace then some ⟨.firstKey, .object [] :: stack⟩
  else if c = 116 then some ⟨.literal (units "rue") (.bool true), stack⟩
  else if c = 102 then some ⟨.literal (units "alse") (.bool false), stack⟩
  else if c = 110 then some ⟨.literal (units "ull") .null, stack⟩
  else (NumberPart.empty.next c).map fun p => ⟨.number p, stack⟩

/-- After a value its container goes on or ends. -/
def stepAfter (stack : List Frame) (c : UInt16) : Option State :=
  if isSpace c then some ⟨.after, stack⟩
  else
    match stack with
    | .array items :: stack =>
      if c = comma then some ⟨.value, .array items :: stack⟩
      else if c = closeBracket then placed (.array items) stack
      else none
    | .object members :: stack =>
      if c = comma then some ⟨.key, .object members :: stack⟩
      else if c = closeBrace then placed (.object members) stack
      else none
    | _ => none

/-- A string ends. It is a key where a member begins. -/
def closeString (read : CodeUnits) : List Frame → Option State
  | .object members :: stack => some ⟨.colon, .member members read :: stack⟩
  | stack => placed (.string read) stack

def unescape (c : UInt16) : Option UInt16 :=
  if c = quote ∨ c = backslash ∨ c = 47 then some c
  else if c = 98 then some 8
  else if c = 102 then some 12
  else if c = 110 then some 10
  else if c = 114 then some 13
  else if c = 116 then some 9
  else none

def hexValue (c : UInt16) : Option Nat :=
  if isDigit c then some (c.toNat - 48)
  else if 97 ≤ c ∧ c ≤ 102 then some (c.toNat - 87)
  else if 65 ≤ c ∧ c ≤ 70 then some (c.toNat - 55)
  else none

def step (st : State) (c : UInt16) : Option State :=
  let stack := st.stack
  match st.mode with
  | .value => if isSpace c then some st else beginValue stack c
  | .firstItem =>
    if isSpace c then some st
    else if c = closeBracket then placed (.array []) stack.tail
    else beginValue stack c
  | .firstKey =>
    if isSpace c then some st
    else if c = closeBrace then placed (.object []) stack.tail
    else if c = quote then some ⟨.string [], stack⟩
    else none
  | .key =>
    if isSpace c then some st else if c = quote then some ⟨.string [], stack⟩ else none
  | .colon =>
    if isSpace c then some st else if c = colon then some ⟨.value, stack⟩ else none
  | .after => stepAfter stack c
  | .string read =>
    if c = quote then closeString read stack
    else if c = backslash then some ⟨.escape read, stack⟩
    else if c < 32 then none
    else some ⟨.string (read ++ [c]), stack⟩
  | .escape read =>
    if c = 117 then some ⟨.hex read 0 0, stack⟩
    else (unescape c).map fun d => ⟨.string (read ++ [d]), stack⟩
  | .hex read count n => do
    let d ← hexValue c
    if count = 3 then some ⟨.string (read ++ [UInt16.ofNat (n * 16 + d)]), stack⟩
    else some ⟨.hex read (count + 1) (n * 16 + d), stack⟩
  | .number p =>
    match p.next c with
    | some q => some ⟨.number q, stack⟩
    | none => do stepAfter (← place (.number (← p.value)) stack) c
  | .literal [] _ => none
  | .literal (d :: rest) v =>
    if c ≠ d then none
    else if rest.isEmpty then placed v stack
    else some ⟨.literal rest v, stack⟩

def finishAfter : List Frame → Option Value
  | [.text v] => some v
  | _ => none

def finish (st : State) : Option Value :=
  match st.mode with
  | .after => finishAfter st.stack
  | .number p => do finishAfter (← place (.number (← p.value)) st.stack)
  | _ => none

def run (st : State) (text : CodeUnits) : Option State := text.foldlM step st

/-- The value that a text stands for, none where the text is malformed. -/
def decode (text : CodeUnits) : Option Value := do finish (← run ⟨.value, []⟩ text)

end Json
