import FirebaseFfi.Json.Decode

namespace Json
open Dart

variable {st : State} {stack stack' : List Frame} {v : Value}

theorem run_cons (st : State) (c : UInt16) (text : CodeUnits) :
    run st (c :: text) = (step st c).bind (run · text) := by
  simp [run]

theorem run_append (st : State) (text rest : CodeUnits) :
    run st (text ++ rest) = (run st text).bind (run · rest) := by
  simp [run, List.foldlM_append]

theorem run_single (st : State) (c : UInt16) : run st [c] = step st c := by
  simp [run]

/-- Neither space nor the end of an array. -/
def begins (c : UInt16) : Bool := !isSpace c && c != closeBracket

/-- The state takes a value. -/
def Takes (st : State) (stack : List Frame) : Prop :=
  ∀ c, begins c → step st c = beginValue stack c

/-- A value is complete, up to a number that the next unit ends. -/
structure Settles (st : State) (stack : List Frame) : Prop where
  step : ∀ c, isDelimiter c → step st c = stepAfter stack c
  finish : finish st = finishAfter stack

theorem takes_value : Takes ⟨.value, stack⟩ stack := by
  intro c hbegins
  simp only [begins, Bool.and_eq_true, Bool.not_eq_true'] at hbegins
  simp [step, hbegins.1]

theorem takes_firstItem : Takes ⟨.firstItem, stack⟩ stack := by
  intro c hbegins
  simp only [begins, Bool.and_eq_true, Bool.not_eq_true', bne_iff_ne] at hbegins
  simp [step, hbegins.1, hbegins.2]

theorem settles_after : Settles ⟨.after, stack⟩ stack := ⟨fun _ _ => rfl, rfl⟩

theorem placed_settles (h : place v stack = some stack') :
    ∃ st, placed v stack = some st ∧ Settles st stack' :=
  ⟨_, by rw [placed, h, Option.map_some], settles_after⟩

section Words

theorem run_literal {c : UInt16} {rest : CodeUnits} :
    run ⟨.literal (c :: rest) v, stack⟩ (c :: rest) = placed v stack := by
  induction rest generalizing c with
  | nil =>
    rw [run_cons]
    simp [step, run]
  | cons d rest ih =>
    rw [run_cons]
    simpa [step] using ih

/-- A word begins with a unit that no other value begins with. -/
theorem run_word {c d : UInt16} {rest : CodeUnits} (htakes : Takes st stack)
    (hbegins : begins c)
    (hbegin : beginValue stack c = some ⟨.literal (d :: rest) v, stack⟩)
    (h : place v stack = some stack') :
    ∃ st', run st (c :: d :: rest) = some st' ∧ Settles st' stack' := by
  obtain ⟨st', hplaced, hsettles⟩ := placed_settles h
  refine ⟨st', ?_, hsettles⟩
  rw [run_cons, htakes c hbegins, hbegin, Option.bind_some, run_literal, hplaced]

end Words

section Strings

theorem hexValue_hexDigit : ∀ n < 16, hexValue (hexDigit n) = some n := by decide

theorem run_hex {read : CodeUnits} {c d e f : UInt16} {i j k l : Nat} (hc : hexValue c = some i)
    (hd : hexValue d = some j) (he : hexValue e = some k) (hf : hexValue f = some l) :
    run ⟨.hex read 0 0, stack⟩ [c, d, e, f] =
      some ⟨.string (read ++ [UInt16.ofNat (((i * 16 + j) * 16 + k) * 16 + l)]), stack⟩ := by
  simp [run, step, hc, hd, he, hf]

theorem run_encodeUnit (read : CodeUnits) (c : UInt16) :
    run ⟨.string read, stack⟩ (encodeUnit c) = some ⟨.string (read ++ [c]), stack⟩ := by
  by_cases hescape : c = quote ∨ c = backslash
  · rw [encodeUnit, if_pos hescape]
    obtain rfl | rfl := hescape <;> rfl
  · obtain ⟨hquote, hbackslash⟩ := not_or.mp hescape
    by_cases hcontrol : c < 32
    · have hlt : c.toNat < 32 := UInt16.lt_iff_toNat_lt.mp hcontrol
      have hzero : hexValue 48 = some 0 := rfl
      rw [encodeUnit, if_neg hescape, if_pos hcontrol, run_cons]
      change (run ⟨.escape read, stack⟩ _) = _
      rw [run_cons]
      change (run ⟨.hex read 0 0, stack⟩ _) = _
      rw [run_hex hzero hzero (hexValue_hexDigit _ (by omega)) (hexValue_hexDigit _ (by omega))]
      have hvalue : ((0 * 16 + 0) * 16 + c.toNat / 16) * 16 + c.toNat % 16 = c.toNat := by omega
      rw [hvalue, UInt16.ofNat_toNat]
    · rw [encodeUnit, if_neg hescape, if_neg hcontrol, run_cons]
      simp [step, hquote, hbackslash, hcontrol, run]

theorem run_units (read s : CodeUnits) :
    run ⟨.string read, stack⟩ (s.flatMap encodeUnit) = some ⟨.string (read ++ s), stack⟩ := by
  induction s generalizing read with
  | nil => simp [run]
  | cons c s ih =>
    rw [List.flatMap_cons, run_append, run_encodeUnit, Option.bind_some, ih]
    simp

theorem run_string (s : CodeUnits) :
    run ⟨.string [], stack⟩ (s.flatMap encodeUnit ++ [quote]) = closeString s stack := by
  rw [run_append, run_units, Option.bind_some, run_cons]
  simp [step, run]

theorem closeString_value {s : CodeUnits} (h : place v stack = some stack') :
    closeString s stack = placed (.string s) stack := by
  cases stack with
  | nil => rfl
  | cons frame stack =>
    cases frame with
    | object members => cases h
    | _ => rfl

/-- A key and its colon, at either place where a member begins. -/
theorem run_key {members : List (CodeUnits × Value)} (key text : CodeUnits)
    (h : step st quote = some ⟨.string [], .object members :: stack⟩) :
    run st (encodeString key ++ colon :: text) =
      run ⟨.value, .member members key :: stack⟩ text := by
  rw [run_append, encodeString, run_cons, h, Option.bind_some, run_string]
  change run ⟨.colon, .member members key :: stack⟩ (colon :: text) = _
  rw [run_cons]
  rfl

end Strings

section Numbers

theorem number_ends {c : UInt16} (h : isDelimiter c) (s : NumberState) : s.next c = none := by
  obtain (rfl | rfl) | rfl : (c = comma ∨ c = closeBracket) ∨ c = closeBrace := by
    simpa [isDelimiter] using h
  all_goals cases s <;> rfl

theorem next_none {p : NumberPart} {c : UInt16} (h : p.state.next c = none) : p.next c = none := by
  unfold NumberPart.next
  split
  · rfl
  · rename_i hs
    cases h.symm.trans hs

theorem next_some {p : NumberPart} {c : UInt16} {s : NumberState} (h : p.state.next c = some s) :
    ∃ q : NumberPart, p.next c = some q ∧ q.literal = p.literal ++ [c] ∧ q.state = s := by
  unfold NumberPart.next
  split
  · rename_i hs
    cases h.symm.trans hs
  · rename_i s' hs
    obtain rfl := Option.some.inj (hs.symm.trans h)
    exact ⟨_, rfl, rfl, rfl⟩

theorem run_number {p : NumberPart} {rest : CodeUnits} {s : NumberState}
    (h : rest.foldlM NumberState.next p.state = some s) :
    ∃ q : NumberPart, run ⟨.number p, stack⟩ rest = some ⟨.number q, stack⟩ ∧
      q.literal = p.literal ++ rest ∧ q.state = s := by
  induction rest generalizing p with
  | nil =>
    cases h
    exact ⟨p, rfl, by simp, rfl⟩
  | cons c rest ih =>
    rw [List.foldlM_cons] at h
    obtain ⟨s', hs', hrest⟩ := Option.bind_eq_some_iff.mp h
    obtain ⟨p', hp', hliteral, rfl⟩ := next_some hs'
    obtain ⟨q, hrun, hq, hstate⟩ := ih hrest
    refine ⟨q, ?_, ?_, hstate⟩
    · rw [run_cons]
      simpa [step, hp'] using hrun
    · rw [hq, hliteral]
      simp

theorem settles_number {p : NumberPart} {n : Number} (hvalue : p.value = some n)
    (h : place (.number n) stack = some stack') : Settles ⟨.number p, stack⟩ stack' := by
  refine ⟨?_, ?_⟩
  · intro c hc
    simp [step, next_none (number_ends hc p.state), hvalue, h]
  · simp [finish, hvalue, h]

theorem value_eq {p : NumberPart} {n : Number} (hliteral : p.literal = n.literal)
    (hfinal : p.state.final) : p.value = some n := by
  cases p
  cases n
  cases hliteral
  exact dif_pos hfinal

/-- What another value, an end or space begins with is nothing in a number. -/
theorem number_begins : ∀ d ∈ [quote, openBracket, openBrace, 116, 102, 110, closeBracket,
    32, 9, 10, 13], NumberState.start.next d = none := by
  simp only [List.forall_mem_cons]
  exact ⟨rfl, rfl, rfl, rfl, rfl, rfl, rfl, rfl, rfl, rfl, rfl, List.forall_mem_nil _⟩

theorem run_encode_number (n : Number) (htakes : Takes st stack)
    (h : place (.number n) stack = some stack') :
    ∃ st', run st n.literal = some st' ∧ Settles st' stack' := by
  obtain ⟨literal, wellFormed⟩ := n
  obtain ⟨s, hs, hfinal⟩ := (Option.any_eq_true ..).mp wellFormed
  cases literal with
  | nil =>
    cases hs
    cases hfinal
  | cons c rest =>
    obtain ⟨s₁, hs₁, hrest⟩ := Option.bind_eq_some_iff.mp hs
    have hne : ∀ d, NumberState.start.next d = none → c ≠ d := by
      rintro d hd rfl
      cases hd.symm.trans hs₁
    have hother := fun d hd => hne d (number_begins d hd)
    simp only [List.forall_mem_cons] at hother
    obtain ⟨hquote, hbracket, hbrace, ht, hf, hn, hclose, h32, h9, h10, h13, -⟩ := hother
    obtain ⟨p, hp, hliteral, rfl⟩ := next_some (p := NumberPart.empty) hs₁
    obtain ⟨q, hrun, hq, rfl⟩ := run_number hrest
    have hbegins : begins c := by simp [begins, isSpace, h32, h9, h10, h13, hclose]
    have hvalue : q.value = some ⟨c :: rest, wellFormed⟩ := by
      refine value_eq ?_ hfinal
      rw [hq, hliteral]
      rfl
    refine ⟨_, ?_, settles_number hvalue h⟩
    rw [run_cons, htakes c hbegins]
    simpa [beginValue, hquote, hbracket, hbrace, ht, hf, hn, hp] using hrun

end Numbers

section Values

mutual
theorem run_encode (v : Value) {st : State} {stack stack' : List Frame} (htakes : Takes st stack)
    (h : place v stack = some stack') :
    ∃ st', run st (encode v) = some st' ∧ Settles st' stack' := by
  match v with
  | .null =>
    change ∃ st', run st (110 :: 117 :: units "ll") = some st' ∧ _
    exact run_word htakes rfl rfl h
  | .bool true =>
    change ∃ st', run st (116 :: 114 :: units "ue") = some st' ∧ _
    exact run_word htakes rfl rfl h
  | .bool false =>
    change ∃ st', run st (102 :: 97 :: units "lse") = some st' ∧ _
    exact run_word htakes rfl rfl h
  | .number n => exact run_encode_number n htakes h
  | .string s =>
    obtain ⟨st', hplaced, hsettles⟩ := placed_settles h
    refine ⟨st', ?_, hsettles⟩
    rw [encode, encodeString, run_cons, htakes quote rfl, ← hplaced,
      ← closeString_value h]
    exact run_string s
  | .array [] =>
    obtain ⟨st', hplaced, hsettles⟩ := placed_settles h
    refine ⟨st', ?_, hsettles⟩
    rw [encode, run_cons, htakes openBracket rfl, ← hplaced]
    exact run_single _ _
  | .array (v :: items) =>
    obtain ⟨st', hplaced, hsettles'⟩ := placed_settles h
    obtain ⟨st₁, hrun, hsettles⟩ := run_encode v (@takes_firstItem (.array [] :: stack)) rfl
    obtain ⟨st₂, hrun₂, hsettles₂⟩ := run_encodeItems items hsettles
    refine ⟨st', ?_, hsettles'⟩
    rw [encode, run_cons, htakes openBracket rfl, List.append_assoc, ← hplaced]
    change run ⟨.firstItem, .array [] :: stack⟩ _ = _
    rw [run_append, hrun, Option.bind_some, run_append, hrun₂, Option.bind_some, run_single,
      hsettles₂.step _ rfl]
    rfl
  | .object [] =>
    obtain ⟨st', hplaced, hsettles⟩ := placed_settles h
    refine ⟨st', ?_, hsettles⟩
    rw [encode, run_cons, htakes openBrace rfl, ← hplaced]
    exact run_single _ _
  | .object ((key, v) :: members) =>
    obtain ⟨st', hplaced, hsettles'⟩ := placed_settles h
    obtain ⟨st₁, hrun, hsettles⟩ := run_encode v (@takes_value (.member [] key :: stack)) rfl
    obtain ⟨st₂, hrun₂, hsettles₂⟩ := run_encodeMembers members hsettles
    refine ⟨st', ?_, hsettles'⟩
    rw [encode, run_cons, htakes openBrace rfl, ← hplaced]
    change run ⟨.firstKey, .object [] :: stack⟩ _ = _
    rw [List.append_assoc, List.append_assoc, List.cons_append, run_key key _ rfl, run_append, hrun,
      Option.bind_some, run_append, hrun₂, Option.bind_some, run_single, hsettles₂.step _ rfl]
    rfl

theorem run_encodeItems (items : List Value) {st : State} {before : List Value}
    {stack : List Frame} (h : Settles st (.array before :: stack)) :
    ∃ st', run st (encodeItems items) = some st' ∧
      Settles st' (.array (before ++ items) :: stack) := by
  match items with
  | [] => exact ⟨st, rfl, by simpa using h⟩
  | v :: items =>
    obtain ⟨st₁, hrun, hsettles⟩ := run_encode v (@takes_value (.array before :: stack)) rfl
    obtain ⟨st₂, hrun₂, hsettles₂⟩ := run_encodeItems items hsettles
    refine ⟨st₂, ?_, by simpa using hsettles₂⟩
    rw [encodeItems, run_cons, h.step _ rfl]
    change run ⟨.value, .array before :: stack⟩ _ = _
    rw [run_append, hrun, Option.bind_some, hrun₂]

theorem run_encodeMembers (members : List (CodeUnits × Value)) {st : State}
    {before : List (CodeUnits × Value)} {stack : List Frame}
    (h : Settles st (.object before :: stack)) :
    ∃ st', run st (encodeMembers members) = some st' ∧
      Settles st' (.object (before ++ members) :: stack) := by
  match members with
  | [] => exact ⟨st, rfl, by simpa using h⟩
  | (key, v) :: members =>
    obtain ⟨st₁, hrun, hsettles⟩ := run_encode v (@takes_value (.member before key :: stack)) rfl
    obtain ⟨st₂, hrun₂, hsettles₂⟩ := run_encodeMembers members hsettles
    refine ⟨st₂, ?_, by simpa using hsettles₂⟩
    rw [encodeMembers, run_cons, h.step _ rfl]
    change run ⟨.key, .object before :: stack⟩ _ = _
    rw [List.append_assoc, List.cons_append, run_key key _ rfl, run_append, hrun, Option.bind_some,
      hrun₂]
end

/-- A value is read back from its encoding. -/
theorem decode_encode (v : Value) : decode (encode v) = some v := by
  obtain ⟨st, hrun, hsettles⟩ := run_encode v (@takes_value []) rfl
  simp [decode, hrun, hsettles.finish, finishAfter]

end Values

end Json
