import Mathlib.Data.List.Forall2

namespace Machine

variable {ε α β : Type} {f : α → Except ε β} {xs : List α} {ys : List β}

/-- A traversal succeeds with what its function gives of each element. -/
theorem mapM_ok : xs.mapM f = .ok ys ↔ List.Forall₂ (fun x y => f x = .ok y) xs ys := by
  induction xs generalizing ys with
  | nil =>
    rw [List.mapM_nil, List.forall₂_nil_left_iff]
    constructor
    · intro h
      cases h
      rfl
    · intro h
      rw [h]
      rfl
  | cons x xs ih =>
    rw [List.mapM_cons, List.forall₂_cons_left_iff]
    cases hx : f x with
    | error e =>
      constructor
      · intro h
        cases h
      · intro h
        obtain ⟨y, _, hy, -⟩ := h
        cases hy
    | ok y =>
      constructor
      · intro h
        cases hxs : xs.mapM f with
        | error e =>
          rw [hxs] at h
          cases h
        | ok zs =>
          rw [hxs] at h
          cases h
          exact ⟨y, zs, rfl, ih.mp hxs, rfl⟩
      · intro h
        obtain ⟨z, zs, hz, hzs, rfl⟩ := h
        cases hz
        rw [ih.mpr hzs]
        rfl

/-- A traversal succeeds exactly when its function does on every element. -/
theorem mapM_total : (∃ ys, xs.mapM f = .ok ys) ↔ ∀ x ∈ xs, ∃ y, f x = .ok y := by
  simp only [mapM_ok]
  constructor
  · intro h x hx
    obtain ⟨ys, hall⟩ := h
    obtain ⟨i, hi, rfl⟩ := List.mem_iff_getElem.mp hx
    exact ⟨_, hall.get hi (hall.length_eq ▸ hi)⟩
  · intro h
    induction xs with
    | nil => exact ⟨[], .nil⟩
    | cons x xs ih =>
      obtain ⟨y, hy⟩ := h x (by simp)
      obtain ⟨ys, hys⟩ := ih fun x hx => h x (List.mem_cons_of_mem _ hx)
      exact ⟨y :: ys, .cons hy hys⟩

end Machine
