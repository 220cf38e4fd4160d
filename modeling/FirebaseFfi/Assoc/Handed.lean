import Mathlib.Tactic.Common

namespace Assoc

variable {α : Type}

/-- A call that adds to a list, or one that replaces it. -/
inductive Edit (α : Type)
  | add (new : List α)
  | replace (all : List α)

def Edit.apply (xs : List α) : Edit α → List α
  | .add new => xs ++ new
  | .replace all => all

/-- The call goes to a delegate that adds what it is handed, and is handed the
whole list as it stands with the new elements after it. -/
def Edit.handOver (xs : List α) : Edit α → List α
  | .add new => xs ++ (xs ++ new)
  | .replace all => all

def given (xs : List α) (edits : List (Edit α)) : List α := edits.foldl Edit.apply xs

def handed (xs : List α) (edits : List (Edit α)) : List α := edits.foldl Edit.handOver xs

def Replaces (edits : List (Edit α)) : Prop := ∃ all, .replace all ∈ edits

/-- Nothing is added to elements that are there already, unless the list is
replaced after that. -/
def AddedOnce (xs : List α) : List (Edit α) → Prop
  | [] => True
  | .add new :: edits => (xs = [] ∨ Replaces edits) ∧ AddedOnce (xs ++ new) edits
  | .replace all :: edits => AddedOnce all edits

variable {xs ys : List α} {edits : List (Edit α)}

theorem not_replaces_nil : ¬ Replaces ([] : List (Edit α)) := by
  intro h
  obtain ⟨all, hall⟩ := h
  cases hall

theorem replaces_add {new : List α} : Replaces (.add new :: edits) ↔ Replaces edits := by
  constructor
  · intro h
    obtain ⟨all, hall⟩ := h
    rcases List.mem_cons.mp hall with hall | hall
    · cases hall
    · exact ⟨all, hall⟩
  · intro h
    obtain ⟨all, hall⟩ := h
    exact ⟨all, List.mem_cons_of_mem _ hall⟩

theorem replaces_replace {all : List α} : Replaces (.replace all :: edits) :=
  ⟨all, List.mem_cons_self⟩

/-- A list that is handed over is the one given exactly when nothing is added
twice. It is never shorter, and of the same length only when it is the same. -/
theorem handed_given (hlen : xs.length ≤ ys.length) (hsame : ys.length = xs.length → ys = xs) :
    ((handed ys edits).length = (given xs edits).length ↔
      (ys.length = xs.length ∨ Replaces edits) ∧ AddedOnce xs edits) ∧
    ((handed ys edits).length = (given xs edits).length → handed ys edits = given xs edits) := by
  induction edits generalizing xs ys with
  | nil =>
    refine ⟨?_, hsame⟩
    rw [AddedOnce, and_true, or_iff_left not_replaces_nil]
    rfl
  | cons edit edits ih =>
    cases edit with
    | replace all =>
      obtain ⟨hiff, himp⟩ := @ih all all (Nat.le_refl _) fun _ => rfl
      refine ⟨hiff.trans ?_, himp⟩
      exact and_congr_left fun _ => iff_of_true (.inl rfl) (.inr replaces_replace)
    | add new =>
      have hgrown : (ys ++ (ys ++ new)).length = (xs ++ new).length → ys = [] ∧ xs = [] := by
        intro h
        simp only [List.length_append] at h
        exact ⟨List.eq_nil_of_length_eq_zero (by omega), List.eq_nil_of_length_eq_zero (by omega)⟩
      obtain ⟨hiff, himp⟩ := @ih (xs ++ new) (ys ++ (ys ++ new)) (by simp; omega) (by
        intro h
        obtain ⟨hys, hxs⟩ := hgrown h
        rw [hys, hxs]
        rfl)
      refine ⟨hiff.trans ?_, himp⟩
      rw [replaces_add, AddedOnce]
      constructor
      · intro h
        obtain ⟨hadded, hrest⟩ := h
        rcases hadded with hadded | hadded
        · obtain ⟨hys, hxs⟩ := hgrown hadded
          exact ⟨.inl (by rw [hys, hxs]), .inl hxs, hrest⟩
        · exact ⟨.inr hadded, .inr hadded, hrest⟩
      · intro h
        obtain ⟨hold, hadded, hrest⟩ := h
        refine ⟨?_, hrest⟩
        rcases hadded with hxs | hadded
        · rcases hold with hold | hold
          · left
            rw [hsame hold, hxs]
            rfl
          · exact .inr hold
        · exact .inr hadded

/-- From the start, where nothing is there. -/
theorem handed_iff : (handed [] edits).length = (given [] edits).length ↔ AddedOnce [] edits :=
  (handed_given (Nat.le_refl _) fun _ => rfl).1.trans (and_iff_right (.inl rfl))

theorem handed_eq (h : AddedOnce [] edits) : handed [] edits = given [] edits :=
  (handed_given (Nat.le_refl _) fun _ => rfl).2 (handed_iff.mpr h)

/-- A list that every step hands over or leaves alone. -/
theorem handed_fold {σ β : Type} {step : σ → β → σ} {list : σ → List α} {edit : β → Option (Edit α)}
    (h : ∀ s b, list (step s b) = (edit b).elim (list s) (Edit.handOver (list s))) (bs : List β)
    (s : σ) : list (bs.foldl step s) = handed (list s) (bs.filterMap edit) := by
  induction bs generalizing s with
  | nil => rfl
  | cons b bs ih =>
    rw [List.foldl_cons, ih, h, List.filterMap_cons]
    cases edit b <;> rfl

end Assoc
