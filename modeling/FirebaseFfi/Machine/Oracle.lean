import Mathlib.Tactic.Common

namespace Machine

variable {Q ε α β : Type} {no : ε}

/-- A run asks an oracle one question after another, and ends with `no` at the
first that it denies. Otherwise it ends in a way that is not the oracle's. -/
def Asks (no : ε) (run : (Q → Bool) → Except ε α) : Prop :=
  ∃ (asked : List Q) (final : Except ε α), final ≠ .error no ∧
    ∀ oracle, run oracle = if asked.all oracle then final else .error no

theorem Asks.const {r : Except ε α} (h : r ≠ .error no) : Asks no fun _ : Q → Bool => r :=
  ⟨[], r, h, fun _ => rfl⟩

theorem Asks.ok (a : α) : Asks no fun _ : Q → Bool => (.ok a : Except ε α) :=
  .const fun h => by cases h

theorem Asks.question (q : Q) (a : α) :
    Asks no fun oracle : Q → Bool => if oracle q then .ok a else .error no := by
  refine ⟨[q], .ok a, fun h => (by cases h), fun oracle => ?_⟩
  simp

theorem Asks.bind {run : (Q → Bool) → Except ε α} {f : (Q → Bool) → α → Except ε β}
    (h : Asks no run) (hf : ∀ a, Asks no fun oracle => f oracle a) :
    Asks no fun oracle => run oracle >>= f oracle := by
  obtain ⟨asked, final, hfinal, hrun⟩ := h
  cases final with
  | error e =>
    refine ⟨asked, .error e, fun he => hfinal (by cases he; rfl), fun oracle => ?_⟩
    show run oracle >>= f oracle = _
    rw [hrun]
    split <;> rfl
  | ok a =>
    obtain ⟨asked', final', hfinal', hrun'⟩ := hf a
    refine ⟨asked ++ asked', final', hfinal', fun oracle => ?_⟩
    show run oracle >>= f oracle = _
    rw [hrun, List.all_append]
    cases asked.all oracle with
    | true => exact hrun' oracle
    | false => rfl

/-- A run that is not denied goes as with an oracle that denies nothing. -/
theorem Asks.agrees {run : (Q → Bool) → Except ε α} (h : Asks no run) {oracle : Q → Bool}
    (hrun : run oracle ≠ .error no) : run oracle = run fun _ => true := by
  obtain ⟨asked, final, _, hasks⟩ := h
  rw [hasks] at hrun ⊢
  rw [hasks]
  cases hall : asked.all oracle with
  | true => simp
  | false =>
    rw [hall] at hrun
    exact absurd rfl hrun

/-- A run is denied exactly when some question is denied that it comes to, that
is at which it ends when no other question is denied. -/
theorem Asks.denied [DecidableEq Q] {run : (Q → Bool) → Except ε α} (h : Asks no run)
    (oracle : Q → Bool) : run oracle = .error no ↔
      ∃ q, oracle q = false ∧ run (fun p => p ≠ q) = .error no := by
  obtain ⟨asked, final, hfinal, hrun⟩ := h
  have hdenied : ∀ oracle, run oracle = .error no ↔ ∃ q ∈ asked, oracle q = false := by
    intro oracle
    rw [hrun]
    cases hall : asked.all oracle with
    | true =>
      refine iff_of_false hfinal ?_
      intro hex
      obtain ⟨q, hq, hno⟩ := hex
      rw [List.all_eq_true.mp hall q hq] at hno
      cases hno
    | false =>
      refine iff_of_true rfl ?_
      simpa using hall
  rw [hdenied]
  constructor
  · intro hex
    obtain ⟨q, hq, hno⟩ := hex
    exact ⟨q, hno, (hdenied _).mpr ⟨q, hq, by simp⟩⟩
  · intro hex
    obtain ⟨q, hno, hq⟩ := hex
    obtain ⟨p, hp, heq⟩ := (hdenied _).mp hq
    obtain rfl : p = q := by simpa using heq
    exact ⟨p, hp, hno⟩

end Machine
