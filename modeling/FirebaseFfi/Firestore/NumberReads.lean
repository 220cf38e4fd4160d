import FirebaseFfi.Cbor.Item
import FirebaseFfi.Firestore.Reading

namespace Firestore
open Cbor Tinycbor

/-- A run bears a reading out: it fails where the reading says so, and where
the reading has a value `good` holds of that value and the run's result. An
unchecked deviation says nothing of the run. -/
def Reads {α β : Type} (reading : Reading α) (res : Except Failure β)
    (good : α → Except Failure β → Prop) : Prop :=
  match reading with
  | .error .unchecked => True
  | .error .fails => ∃ f, res = .error f
  | .ok v => good v res

theorem Reads.bind {α β γ δ : Type} {reading : Reading α} {res : Except Failure β}
    {P : α → β → Prop} {f : α → Reading γ} {g : β → Except Failure δ}
    {good : γ → Except Failure δ → Prop} (h : Reads reading res fun v r => ∃ b, r = .ok b ∧ P v b)
    (hf : ∀ v b, P v b → Reads (f v) (g b) good) : Reads (reading >>= f) (res >>= g) good := by
  cases reading with
  | error e =>
    cases e with
    | unchecked => trivial
    | fails =>
      obtain ⟨f, rfl⟩ := h
      exact ⟨f, rfl⟩
  | ok v =>
    obtain ⟨b, rfl, hP⟩ := h
    exact hf v b hP

theorem Reads.imp {α β : Type} {reading : Reading α} {res : Except Failure β}
    {good g : α → Except Failure β → Prop} (h : Reads reading res good)
    (hg : ∀ v r, good v r → g v r) : Reads reading res g := by
  cases reading with
  | error e =>
    cases e with
    | unchecked => trivial
    | fails => exact h
  | ok v => exact hg v res h

/-- A run that succeeds bears out a value, unless the item went unchecked. -/
theorem Reads.value {α β : Type} {reading : Reading α} {res : Except Failure β}
    {good : α → Except Failure β → Prop} (h : Reads reading res good)
    (hchecked : reading ≠ .unchecked) {b : β} (hok : res = .ok b) :
    ∃ v, reading = .ok v ∧ good v res := by
  cases reading with
  | error e =>
    cases e with
    | unchecked => exact absurd rfl hchecked
    | fails =>
      obtain ⟨f, hf⟩ := h
      rw [hok] at hf
      cases hf
  | ok v => exact ⟨v, rfl, h⟩

/-- A value is read and the cursor moves on to `rest`. -/
def ConsumedAs {α : Type} (it : CborValue) (rest : Bytes) (v : α)
    (res : Except Failure (CborValue × α)) : Prop :=
  ∃ next, Consumed it rest next ∧ res = (checked next).map fun it' => (it', v)

/-- Inside a container moving on succeeds and leaves one item less. -/
theorem ConsumedAs.next {α : Type} {len : Option Width} {isMap : Bool} {rest : Bytes} {x : Item}
    {xs : List Item} {it : CborValue} {v : α} {res : Except Failure (CborValue × α)}
    (hxs : ∀ y ∈ xs, y.WF) (hat : Ready len isMap rest (x :: xs) it)
    (h : ConsumedAs it (bytesAll xs ++ closing len ++ rest) v res) :
    ∃ it', res = .ok (it', v) ∧ Ready len isMap rest xs it' := by
  obtain ⟨next, hc, rfl⟩ := h
  obtain ⟨it', rfl, hr⟩ := hat.next hxs hc
  exact ⟨it', rfl, hr⟩

theorem checked_map {α β : Type} (f : α → β) (r : Except CborError α) :
    checked (r.map f) = (checked r).map f := by
  cases r <;> rfl

theorem checked_bind {α β : Type} (r : Except CborError α) (v : β) :
    (checked r >>= fun a => pure (a, v)) = (checked r).map fun a => (a, v) := by
  cases r <;> rfl

theorem advance_fixed {it : CborValue} (h0 : it.remaining ≠ 0) (h : isFixedType it.type = true) :
    cborValueAdvance it = advanceInternal it := by
  rw [cborValueAdvance, if_neg h0, cborParserMaxRecursions, advanceRecursive, if_pos h]

theorem advanceFixed_eq {it : CborValue} (h0 : it.remaining ≠ 0) :
    cborValueAdvanceFixed it = advanceInternal it := if_neg h0

theorem getInt64_item {neg : Bool} {w : Width} {n : Nat} {rest : Bytes} {it : CborValue}
    (hat : AtItem (.int neg w n) rest it) : cborValueGetInt64 it = int64Of neg n := by
  have hn : extractInt64Helper it = n := hat.shows.number
  have hneg : it.negativeInteger = neg := hat.shows.negative
  simp [cborValueGetInt64, int64Of, hn, hneg]

/-- A number below `2 ^ 63` is the integer it stands for. -/
theorem int64Of_toInt {neg : Bool} {n : Nat} (h : n < 2 ^ 63) :
    (int64Of neg n).toInt = intValue neg n := by
  have hn : (Int64.ofNat n).toInt = n := Int64.toInt_ofNat_of_lt h
  unfold int64Of intValue
  cases neg
  · simpa using hn
  · simp only [if_true, Int64.toInt_sub, Int64.toInt_neg, hn]
    have h1 : (1 : Int64).toInt = 1 := by decide
    rw [h1, Int.bmod_def, Int.bmod_def]
    omega

theorem readCborDouble_error {it : CborValue} {e : Failure} (h : readCborDouble it = .error e) :
    e = .refused := by
  unfold readCborDouble at h
  split at h <;> cases h
  rfl

theorem primType_tiny (n : Nat) :
    primType .tiny n = .boolean ∨ primType .tiny n = .null ∨ primType .tiny n = .undefined ∨
      primType .tiny n = .simple := by
  simp only [primType]
  split
  · simp
  split
  · simp
  split
  · simp
  · simp

theorem primType_cases (w : Width) (n : Nat) :
    primType w n = .boolean ∨ primType w n = .null ∨ primType w n = .undefined ∨
      primType w n = .simple ∨ primType w n = .halfFloat ∨ primType w n = .float ∨
      primType w n = .double := by
  cases w with
  | tiny => rcases primType_tiny n with h | h | h | h <;> simp [h]
  | _ => simp [primType]

/-- Numbers are read at any width, and other items are refused. -/
theorem readCborDouble_item {x : Item} {rest : Bytes} {it : CborValue} (hat : AtItem x rest it) :
    Reads (readDouble x) (readCborDouble it) fun d r => r = .ok d := by
  have ht := hat.shows.type
  have hn := hat.shows.number
  cases x with
  | int neg w n => simp only [readDouble, Reads, readCborDouble, ht, itemType, getInt64_item hat]
  | prim w n =>
    cases w with
    | tiny =>
      have hnone : readCborDouble it = .error .refused := by
        rcases primType_tiny n with h | h | h | h <;>
          simp only [readCborDouble, ht, itemType, h]
      exact ⟨_, hnone⟩
    | one => simp [readDouble, Reads, Reading.fails, readCborDouble, ht, itemType, primType]
    | two =>
      have hextra : it.extra = n := by
        have hl : it.tooLarge = false := hat.shows.tooLarge
        simpa [extractInt64Helper, hl, itemNumber] using hn
      simp [readDouble, Reads, readCborDouble, ht, itemType, primType, hextra]
    | four =>
      have hn : extractInt64Helper it = n := hn
      simp [readDouble, Reads, readCborDouble, ht, itemType, primType, hn]
    | eight =>
      have hn : extractInt64Helper it = n := hn
      simp [readDouble, Reads, readCborDouble, ht, itemType, primType, hn]
  | str text s =>
    cases text <;> simp [readDouble, Reads, Reading.fails, readCborDouble, ht, itemType]
  | array len xs => simp [readDouble, Reads, Reading.fails, readCborDouble, ht, itemType]
  | map len es => simp [readDouble, Reads, Reading.fails, readCborDouble, ht, itemType]
  | tag w t x => simp [readDouble, Reads, Reading.fails, readCborDouble, ht, itemType]

end Firestore
