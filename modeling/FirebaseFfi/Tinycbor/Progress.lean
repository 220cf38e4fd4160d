import FirebaseFfi.Tinycbor.Parser

namespace Tinycbor
open Cbor

/-- A cursor before the first byte of an item. -/
def Started (it : CborValue) : Prop := ∃ byte rest, it.src = byte :: rest ∧ byte ≠ breakByte

/-- A cursor before an item, or past the last one of its container. -/
def Live (it : CborValue) : Prop := Started it ∨ it.remaining = 0 ∧ it.type = .invalid

theorem Started.src_ne {it : CborValue} (h : Started it) : it.src ≠ [] := by
  obtain ⟨byte, rest, hsrc, -⟩ := h
  rw [hsrc]
  exact List.cons_ne_nil _ _

theorem Started.length_pos {it : CborValue} (h : Started it) : 0 < it.src.length :=
  List.length_pos_iff.mpr h.src_ne

theorem Live.started {it : CborValue} (h : Live it) (h0 : it.remaining ≠ 0) : Started it := by
  rcases h with h | h
  · exact h
  · exact absurd h.1 h0

theorem Live.of_type {it : CborValue} (h : Live it) (ht : it.type ≠ .invalid) : Started it := by
  rcases h with h | h
  · exact h
  · exact absurd h.2 ht

/-- The cursor `r` comes after some of the input of `it`. -/
structure Shrinks (it r : CborValue) : Prop where
  length : r.src.length < it.src.length
  live : Live r

theorem preparseSimple_src {it r : CborValue} {descriptor : Nat}
    (h : preparseSimple it descriptor = .ok r) : r.src = it.src := by
  unfold preparseSimple at h
  split at h
  all_goals try split at h
  all_goals cases h
  all_goals rfl

theorem preparseNumber_src (it : CborValue) (rest : Bytes) (descriptor : Nat) :
    (preparseNumber it rest descriptor).src = it.src := by
  unfold preparseNumber
  split <;> rfl

theorem preparse_started {it r : CborValue} (h : preparseValue it = .ok r) :
    r.src = it.src ∧ Started it := by
  unfold preparseValue at h
  cases hsrc : it.src with
  | nil =>
    simp only [hsrc] at h
    cases h
  | cons byte rest =>
    have hstarted : byte ≠ breakByte := by
      intro hbreak
      subst hbreak
      simp only [hsrc] at h
      cases h
    refine ⟨?_, byte, rest, hsrc, hstarted⟩
    simp only [hsrc] at h
    split at h
    · split at h
      · cases h
      · split at h
        · cases h
        · cases h
          rfl
    · split at h
      · cases h
      · split at h
        · cases h
          exact preparseNumber_src ..
        · split at h
          · exact (preparseSimple_src h).trans (preparseNumber_src ..)
          · cases h
            exact preparseNumber_src ..

theorem Started.of_src {it r : CborValue} (h : Started it) (hsrc : r.src = it.src) : Started r := by
  obtain ⟨byte, rest, hit, hbyte⟩ := h
  exact ⟨byte, rest, hsrc.trans hit, hbyte⟩

/-- A step that looks at the next item moves past no input. -/
theorem nodecrement_src {it r : CborValue} (h : preparseNextValueNodecrement it = .ok r) :
    r.src = it.src ∧ Live r := by
  unfold preparseNextValueNodecrement at h
  split at h
  · split at h
    · cases h
    · cases h
      exact ⟨rfl, .inr ⟨rfl, rfl⟩⟩
  · obtain ⟨hsrc, hstarted⟩ := preparse_started h
    exact ⟨hsrc, .inl (hstarted.of_src hsrc)⟩

theorem next_src {it r : CborValue} (h : preparseNextValue it = .ok r) :
    r.src = it.src ∧ Live r := by
  unfold preparseNextValue at h
  split at h
  · exact nodecrement_src h
  · dsimp only at h
    generalize (if it.remaining = uint32Max then uint32Max else decr32 it.remaining) = left at h
    split at h
    · cases h
      exact ⟨rfl, .inr ⟨rfl, rfl⟩⟩
    · obtain ⟨hsrc, hlive⟩ := nodecrement_src h
      exact ⟨hsrc, hlive⟩

theorem drop_shorter {α : Type} {l : List α} (n : Nat) (h : l ≠ []) :
    (l.drop (n + 1)).length < l.length := by
  have hpos := List.length_pos_iff.mpr h
  rw [List.length_drop]
  omega

theorem next_shrinks {it mid r : CborValue} (hmid : mid.src.length < it.src.length)
    (h : preparseNextValue mid = .ok r) : Shrinks it r := by
  obtain ⟨hsrc, hlive⟩ := next_src h
  exact ⟨by rw [hsrc]; exact hmid, hlive⟩

theorem advanceInternal_shrinks {it r : CborValue} (hne : it.src ≠ [])
    (h : advanceInternal it = .ok r) : Shrinks it r := by
  have hdrop := drop_shorter (bytesNeeded ((it.src.headD 0).toNat % 32)) hne
  cases hstring : it.type == .byteString || it.type == .textString with
  | true =>
    simp only [advanceInternal, extractNumberAndAdvance, advanceBytes, hstring, if_true] at h
    refine next_shrinks ?_ h
    rw [List.length_drop]
    exact Nat.lt_of_le_of_lt (Nat.sub_le _ _) hdrop
  | false =>
    simp only [advanceInternal, extractNumberAndAdvance, advanceBytes, hstring] at h
    exact next_shrinks hdrop h

/-- Entering a container moves past its head, or what is taken for one. -/
theorem enter_src {it r : CborValue} (h : cborValueEnterContainer it = .ok r) :
    ∃ k, r.src = it.src.drop (k + 1) ∧ Live r := by
  unfold cborValueEnterContainer at h
  split at h
  · exact ⟨0, nodecrement_src h⟩
  · dsimp only [extractNumberAndAdvance, advanceBytes] at h
    generalize extractInt64Helper it = len at h
    refine ⟨bytesNeeded ((it.src.headD 0).toNat % 32), ?_⟩
    by_cases hbig : len % 2 ^ 32 ≠ len ∨ len = uint32Max
    · rw [if_pos hbig] at h
      cases h
    · rw [if_neg hbig] at h
      by_cases hmap : (it.type == .map) = true ∧ uint32Max / 2 < len
      · rw [if_pos hmap] at h
        cases h
      · rw [if_neg hmap] at h
        by_cases h0 : len = 0
        · rw [if_pos h0] at h
          cases h
          exact ⟨rfl, .inr ⟨by simp [h0], rfl⟩⟩
        · rw [if_neg h0] at h
          exact nodecrement_src h

theorem enter_shrinks {it r : CborValue} (hne : it.src ≠ [])
    (h : cborValueEnterContainer it = .ok r) : Shrinks it r := by
  obtain ⟨k, hsrc, hlive⟩ := enter_src h
  exact ⟨by rw [hsrc]; exact drop_shorter k hne, hlive⟩

theorem leave_src {it recursed r : CborValue} (h : cborValueLeaveContainer it recursed = .ok r) :
    r.src.length ≤ recursed.src.length ∧ Live r := by
  unfold cborValueLeaveContainer at h
  split at h
  · obtain ⟨hsrc, hlive⟩ := next_src h
    refine ⟨?_, hlive⟩
    rw [hsrc]
    simp [advanceBytes]
  · obtain ⟨hsrc, hlive⟩ := next_src h
    exact ⟨by rw [hsrc], hlive⟩

/-- A container that has been gone through and left is past. -/
theorem leave_shrinks {it recursed r : CborValue} (hlt : recursed.src.length < it.src.length)
    (h : cborValueLeaveContainer it recursed = .ok r) : Shrinks it r := by
  obtain ⟨hle, hlive⟩ := leave_src h
  exact ⟨Nat.lt_of_le_of_lt hle hlt, hlive⟩

theorem getStringChunk_shorter {it it' : CborValue} {chunk : Bytes}
    (h : getStringChunk it = .ok (chunk, it')) :
    it'.src.length < it.src.length ∧ it'.unknownLength = it.unknownLength := by
  unfold getStringChunk at h
  split at h
  · cases h
  · cases hsrc : it.src with
    | nil =>
      rw [hsrc] at h
      cases h
    | cons byte rest =>
      simp only [hsrc] at h
      split_ifs at h
      all_goals
        cases h
        refine ⟨?_, rfl⟩
        simp only [List.length_drop, List.length_cons]
        omega

/-- A step of the cursor that does not fail with the code that only a loop
without fuel gives here. -/
def Finishes {α : Type} (r : Except CborError α) : Prop := r ≠ .error .unknownError

theorem Finishes.ok {α : Type} (a : α) : Finishes (.ok a) := by
  intro h
  cases h

theorem Finishes.map {α β : Type} {r : Except CborError α} {f : α → β} (h : Finishes r) :
    Finishes (r.map f) := by
  cases r with
  | error e =>
    intro he
    cases he
    exact h rfl
  | ok a => exact .ok (f a)

theorem preparseSimple_finishes (it : CborValue) (descriptor : Nat) :
    Finishes (preparseSimple it descriptor) := by
  intro h
  unfold preparseSimple at h
  split at h
  all_goals try split at h
  all_goals cases h

theorem preparseValue_finishes (it : CborValue) : Finishes (preparseValue it) := by
  intro h
  unfold preparseValue at h
  dsimp only at h
  split at h
  · cases h
  · split at h
    · split at h
      · split at h <;> cases h
      · split at h
        · split at h <;> cases h
        · cases h
    · split at h
      · cases h
      · split at h
        · cases h
        · split at h
          · exact preparseSimple_finishes _ _ h
          · cases h

theorem nodecrement_finishes (it : CborValue) : Finishes (preparseNextValueNodecrement it) := by
  unfold preparseNextValueNodecrement
  split
  · split
    · intro h
      cases h
    · exact .ok _
  · exact preparseValue_finishes it

theorem next_finishes (it : CborValue) : Finishes (preparseNextValue it) := by
  unfold preparseNextValue
  split
  · exact nodecrement_finishes it
  · dsimp only
    generalize (if it.remaining = uint32Max then uint32Max else decr32 it.remaining) = left
    split
    · exact .ok _
    · exact nodecrement_finishes _

theorem advanceInternal_finishes (it : CborValue) : Finishes (advanceInternal it) := by
  unfold advanceInternal
  dsimp only
  split <;> exact next_finishes _

theorem enter_finishes (it : CborValue) : Finishes (cborValueEnterContainer it) := by
  unfold cborValueEnterContainer
  split
  · exact nodecrement_finishes _
  · dsimp only
    split
    · intro h
      cases h
    · split
      · intro h
        cases h
      · split
        · exact .ok _
        · exact nodecrement_finishes _

theorem leave_finishes (it recursed : CborValue) :
    Finishes (cborValueLeaveContainer it recursed) := next_finishes _

theorem getStringChunk_finishes (it : CborValue) : Finishes (getStringChunk it) := by
  intro h
  unfold getStringChunk at h
  split at h
  · cases h
  · split at h
    · cases h
    · dsimp only at h
      split_ifs at h
      all_goals cases h

theorem iterateStringChunks_src {fuel : Nat} {it it' : CborValue} {content : Bytes}
    (h : iterateStringChunks fuel it = .ok (content, it')) :
    it'.src.length ≤ it.src.length ∧ it'.unknownLength = it.unknownLength := by
  induction fuel generalizing it content it' with
  | zero => cases h
  | succ fuel ih =>
    rw [iterateStringChunks] at h
    split at h
    · cases h
      exact ⟨Nat.le_refl _, rfl⟩
    · cases h
    · next chunk next hchunk =>
      obtain ⟨hlt, hu⟩ := getStringChunk_shorter hchunk
      split at h
      · cases h
      · next chunks last hrest =>
        cases h
        obtain ⟨hle, hu'⟩ := ih hrest
        exact ⟨Nat.le_trans hle (Nat.le_of_lt hlt), hu'.trans hu⟩

theorem iterateStringChunks_first {fuel : Nat} {it it' : CborValue} {content : Bytes}
    (hchunk : getStringChunk it ≠ .error .noMoreStringChunks)
    (h : iterateStringChunks fuel it = .ok (content, it')) :
    it'.src.length < it.src.length := by
  cases fuel with
  | zero => cases h
  | succ fuel =>
    rw [iterateStringChunks] at h
    split at h
    · next hnone => exact absurd hnone hchunk
    · cases h
    · next chunk next hnext =>
      split at h
      · cases h
      · next chunks last hrest =>
        cases h
        have hle := (iterateStringChunks_src hrest).1
        exact Nat.lt_of_le_of_lt hle (getStringChunk_shorter hnext).1

/-- A string takes its head at least. -/
theorem dupString_shrinks {it r : CborValue} {content : Bytes} (hit : Started it)
    (h : cborValueDupString it = .ok (content, r)) : Shrinks it r := by
  obtain ⟨byte, rest, hsrc, hbyte⟩ := hit
  unfold cborValueDupString at h
  split at h
  · cases h
  · next content' it' hiter =>
    split at h
    · cases h
    · next last hfinish =>
      cases h
      have hlt : it'.src.length < it.src.length := by
        cases hu : it.unknownLength with
        | false =>
          have hbegin : beginStringIteration it = { it with beforeFirstStringChunk := true } :=
            if_pos (by simp [cborValueIsLengthKnown, hu])
          rw [hbegin] at hiter
          have hchunk : getStringChunk { it with beforeFirstStringChunk := true } ≠
              .error .noMoreStringChunks := by
            intro hnone
            unfold getStringChunk at hnone
            rw [if_neg (by simp)] at hnone
            simp only [hsrc, if_neg hbyte] at hnone
            split_ifs at hnone <;> cases hnone
          have hfirst := iterateStringChunks_first hchunk hiter
          exact hfirst
        | true =>
          have hbegin : beginStringIteration it =
              { it with src := rest, beforeFirstStringChunk := true } := by
            rw [beginStringIteration, if_neg (by simp [cborValueIsLengthKnown, hu])]
            simp [advanceBytes, hsrc]
          rw [hbegin] at hiter
          have hle := (iterateStringChunks_src hiter).1
          rw [hsrc]
          exact Nat.lt_succ_of_le hle
      refine next_shrinks ?_ hfinish
      split
      · exact hlt
      · exact Nat.lt_of_le_of_lt (by simp [advanceBytes]) hlt

/-- Every chunk takes a byte of the source. -/
theorem iterateStringChunks_finishes {fuel : Nat} {it : CborValue} (hfuel : it.src.length < fuel) :
    Finishes (iterateStringChunks fuel it) := by
  induction fuel generalizing it with
  | zero => omega
  | succ fuel ih =>
    intro h
    rw [iterateStringChunks] at h
    split at h
    · cases h
    · next e _ he =>
      cases h
      exact getStringChunk_finishes it he
    · next chunk next hchunk =>
      have hlt := (getStringChunk_shorter hchunk).1
      split at h
      · next e he =>
        cases h
        exact ih (by omega) he
      · cases h

/-- No string runs the loop over its chunks out of fuel. -/
theorem dupString_finishes (it : CborValue) : Finishes (cborValueDupString it) := by
  intro h
  have hle : (beginStringIteration it).src.length ≤ it.src.length := by
    unfold beginStringIteration
    dsimp only
    split
    · exact Nat.le_refl _
    · simp [advanceBytes]
  unfold cborValueDupString at h
  split at h
  · next e he =>
    cases h
    exact iterateStringChunks_finishes (by omega) he
  · split at h
    · next e he =>
      cases h
      exact next_finishes _ he
    · cases h

/-- Every turn of a loop's body takes some input. -/
def Progresses {ε σ : Type} (body : CborValue → σ → Except ε (CborValue × σ)) : Prop :=
  ∀ it acc it' acc', Started it → body it acc = .ok (it', acc') → Shrinks it it'

section Loops

variable {ε σ : Type} {outOfFuel : ε} {body : CborValue → σ → Except ε (CborValue × σ)}
  {fuel : Nat} {it fin : CborValue} {acc acc' : σ}

theorem whileNotAtEnd_step (h : it.remaining ≠ 0) :
    whileNotAtEnd outOfFuel body (fuel + 1) it acc =
      (body it acc >>= fun p => whileNotAtEnd outOfFuel body fuel p.1 p.2) := by
  rw [whileNotAtEnd, if_neg (by simpa [cborValueAtEnd] using h)]
  cases body it acc <;> rfl

theorem whileNotAtEnd_done (h : it.remaining = 0) :
    whileNotAtEnd outOfFuel body (fuel + 1) it acc = .ok (it, acc) := by
  rw [whileNotAtEnd, if_pos (by simpa [cborValueAtEnd] using h)]

/-- Where every turn makes progress, so does the loop. -/
theorem whileNotAtEnd_src (hbody : Progresses body) (hit : Live it) (h : whileNotAtEnd outOfFuel body fuel it acc = .ok (fin, acc')) :
    fin.src.length ≤ it.src.length ∧ Live fin := by
  induction fuel generalizing it acc with
  | zero => cases h
  | succ fuel ih =>
    by_cases h0 : it.remaining = 0
    · rw [whileNotAtEnd_done h0] at h
      cases h
      exact ⟨Nat.le_refl _, hit⟩
    · rw [whileNotAtEnd_step h0] at h
      cases hstep : body it acc with
      | error e =>
        rw [hstep] at h
        cases h
      | ok p =>
        rw [hstep] at h
        have hone := hbody _ _ _ _ (hit.started h0) hstep
        obtain ⟨hle, hfin⟩ := ih hone.live h
        exact ⟨Nat.le_trans hle (Nat.le_of_lt hone.length), hfin⟩

/-- A loop has fuel for a turn on each byte, and needs no more. -/
theorem whileNotAtEnd_fuel {n : Nat} (hbody : Progresses body)
    (hends : ∀ it acc, Started it → it.src.length ≤ n → body it acc ≠ .error outOfFuel)
    (hit : Live it) (hn : it.src.length ≤ n) (hfuel : it.src.length < fuel) :
    whileNotAtEnd outOfFuel body fuel it acc ≠ .error outOfFuel := by
  induction fuel generalizing it acc with
  | zero => omega
  | succ fuel ih =>
    by_cases h0 : it.remaining = 0
    · rw [whileNotAtEnd_done h0]
      intro h
      cases h
    · have hstarted := hit.started h0
      rw [whileNotAtEnd_step h0]
      cases hstep : body it acc with
      | error e =>
        have he := hends it acc hstarted hn
        rw [hstep] at he
        exact he
      | ok p =>
        have hone := hbody _ _ _ _ hstarted hstep
        have hlt := hone.length
        exact ih hone.live (by omega) (by omega)

end Loops

theorem map_inv {ε α β : Type} {r : Except ε α} {f : α → β} {b : β} (h : r.map f = .ok b) :
    ∃ a, r = .ok a ∧ f a = b := by
  cases r with
  | error e => cases h
  | ok a => exact ⟨a, rfl, Except.ok.inj h⟩

theorem advanceString_shrinks {it r : CborValue} (hit : Started it)
    (h : (cborValueDupString it).map (·.2) = .ok r) : Shrinks it r := by
  obtain ⟨p, hdup, rfl⟩ := map_inv h
  exact dupString_shrinks hit hdup

/-- A turn of the loop over what a container holds. -/
theorem turn_progresses {advance : CborValue → Except CborError CborValue}
    (h : ∀ it r, Started it → advance it = .ok r → Shrinks it r) :
    Progresses fun (it : CborValue) (_ : Unit) => (advance it).map fun it => (it, ()) := by
  intro it acc it' acc' hstarted hrun
  obtain ⟨r, hadv, hr⟩ := map_inv hrun
  cases hr
  exact h _ _ hstarted hadv

theorem advanceRecursive_shrinks {level : Nat} {it r : CborValue} (hit : Started it)
    (h : advanceRecursive level it = .ok r) : Shrinks it r := by
  induction level generalizing it r with
  | zero =>
    unfold advanceRecursive at h
    split at h
    · exact advanceInternal_shrinks hit.src_ne h
    · split at h
      · exact advanceString_shrinks hit h
      · cases h
  | succ level ih =>
    have hbody := turn_progresses fun it r => @ih it r
    unfold advanceRecursive at h
    split at h
    · exact advanceInternal_shrinks hit.src_ne h
    · split at h
      · exact advanceString_shrinks hit h
      · dsimp only at h
        split at h
        · cases h
        · next recursed henter =>
          split at h
          · cases h
          · next recursed' _ hloop =>
            have hentered := enter_shrinks hit.src_ne henter
            obtain ⟨hle, -⟩ := whileNotAtEnd_src hbody hentered.live hloop
            exact leave_shrinks (Nat.lt_of_le_of_lt hle hentered.length) h

/-- Advancing over a container ends at any level of nesting. -/
theorem advanceRecursive_finishes (level : Nat) (it : CborValue) :
    Finishes (advanceRecursive level it) := by
  induction level generalizing it with
  | zero =>
    unfold advanceRecursive
    split
    · exact advanceInternal_finishes it
    · split
      · exact (dupString_finishes it).map
      · intro h
        cases h
  | succ level ih =>
    unfold advanceRecursive
    split
    · exact advanceInternal_finishes it
    · split
      · exact (dupString_finishes it).map
      · dsimp only
        split
        · next e he =>
          intro h
          cases h
          exact enter_finishes it he
        · next recursed henter =>
          obtain ⟨k, hsrc, hlive⟩ := enter_src henter
          have hle : recursed.src.length ≤ it.src.length := by
            rw [hsrc, List.length_drop]
            omega
          have hbody := turn_progresses fun it r => @advanceRecursive_shrinks level it r
          have hloop : Finishes (whileNotAtEnd .unknownError _ (it.src.length + 2) recursed ()) :=
            whileNotAtEnd_fuel hbody (fun it _ _ _ => (ih it).map) hlive (Nat.le_refl _) (by omega)
          split
          · next e he =>
            intro h
            cases h
            exact hloop he
          · exact leave_finishes _ _

theorem advance_finishes (it : CborValue) : Finishes (cborValueAdvance it) := by
  unfold cborValueAdvance
  split
  · intro h
    cases h
  · exact advanceRecursive_finishes _ it

theorem advance_shrinks {it r : CborValue} (hit : Live it) (h : cborValueAdvance it = .ok r) :
    Shrinks it r := by
  unfold cborValueAdvance at h
  split at h
  · cases h
  · next h0 => exact advanceRecursive_shrinks (hit.started h0) h

/-- Past a tag there is an item. -/
theorem advance_tag_started {it r : CborValue} (ht : it.type = .tag)
    (h : advanceInternal it = .ok r) : Started r := by
  have hnext : advanceInternal it = preparseNextValueNodecrement (extractNumberAndAdvance it).2 := by
    simp [advanceInternal, preparseNextValue, extractNumberAndAdvance, advanceBytes, ht]
  have htag : (extractNumberAndAdvance it).2.type = .tag := ht
  rw [hnext] at h
  unfold preparseNextValueNodecrement at h
  split at h
  · rw [if_pos (by simp [htag])] at h
    cases h
  · obtain ⟨hsrc, hstarted⟩ := preparse_started h
    exact hstarted.of_src hsrc

end Tinycbor
