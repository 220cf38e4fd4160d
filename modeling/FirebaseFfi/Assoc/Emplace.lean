import FirebaseFfi.Assoc.Assign

namespace Assoc

section Emplace

variable {Key Value : Type} [DecidableEq Key]

/-- A key that is present keeps its value. -/
def emplace (m : List (Key × Value)) (k : Key) (v : Value) : List (Key × Value) :=
  if (m.lookup k).isSome then m else m ++ [(k, v)]

def erase (m : List (Key × Value)) (k : Key) : List (Key × Value) := m.filter fun e => e.1 ≠ k

variable {m : List (Key × Value)} {j k : Key} {v w : Value}

theorem lookup_emplace (h : m.lookup k = none) :
    (emplace m k v).lookup j = if j = k then some v else m.lookup j := by
  rw [emplace, h, if_neg (by simp)]
  apply lookup_snoc
  intro e he hk
  have hne := List.lookup_eq_none_iff.mp h e he
  simp [hk] at hne

theorem emplace_taken (h : m.lookup k = some w) : emplace m k v = m := by
  rw [emplace, h, Option.isSome_some, if_pos rfl]

/-- What is found stays found. -/
theorem lookup_emplace_of_some (h : m.lookup j = some w) : (emplace m k v).lookup j = some w := by
  cases hk : m.lookup k with
  | some u =>
    rw [emplace_taken hk]
    exact h
  | none =>
    have hne : j ≠ k := by
      intro hjk
      rw [hjk, hk] at h
      cases h
    rw [lookup_emplace hk, if_neg hne]
    exact h

theorem lookup_erase : (erase m k).lookup j = if j = k then none else m.lookup j := by
  induction m with
  | nil => simp [erase]
  | cons e m ih =>
    obtain ⟨i, u⟩ := e
    rw [erase] at ih ⊢
    by_cases hi : i = k
    · rw [List.filter_cons_of_neg (by simpa using hi), ih]
      by_cases hj : j = k
      · rw [if_pos hj, if_pos hj]
      · have hji : (j == i) = false := by simpa [hi] using hj
        rw [if_neg hj, if_neg hj, List.lookup_cons, hji]
    · rw [List.filter_cons_of_pos (by simpa using hi), List.lookup_cons, List.lookup_cons, ih]
      by_cases hji : j = i
      · have hjk : j ≠ k := fun h => hi (hji ▸ h)
        simp only [if_neg hjk]
      · have hne : (j == i) = false := by simpa using hji
        rw [hne]

theorem assign_fresh (h : ∀ e ∈ m, e.1 ≠ k) : assign m (k, v) = m ++ [(k, v)] := by
  rw [assign, if_neg]
  intro hany
  obtain ⟨e, he, hk⟩ := List.any_eq_true.mp hany
  exact h e he (by simpa using hk)

theorem mem_erase {e : Key × Value} : e ∈ erase m k ↔ e ∈ m ∧ e.1 ≠ k := by
  rw [erase, List.mem_filter]
  simp

/-- What is taken out of a map, and what stays. -/
theorem erase_perm (hd : (m.map Prod.fst).Nodup) (h : m.lookup k = some v) :
    m.Perm ((k, v) :: erase m k) := by
  induction m with
  | nil => cases h
  | cons e m ih =>
    obtain ⟨j, w⟩ := e
    obtain ⟨hj, hd⟩ := List.nodup_cons.mp hd
    rw [erase]
    by_cases hk : j = k
    · subst hk
      rw [List.lookup_cons_self] at h
      cases h
      rw [List.filter_cons_of_neg (by simp)]
      refine .cons _ (.of_eq (List.filter_eq_self.mpr ?_).symm)
      intro e he
      have hne : e.1 ≠ j := by
        intro heq
        apply hj
        rw [← heq]
        show e.1 ∈ m.map Prod.fst
        exact List.mem_map_of_mem he
      simpa using hne
    · have hne : (k == j) = false := by simpa using Ne.symm hk
      rw [List.lookup_cons, hne] at h
      rw [List.filter_cons_of_pos (by simpa using hk)]
      exact (List.Perm.cons _ (ih hd h)).trans (.swap _ _ _)

end Emplace

end Assoc
