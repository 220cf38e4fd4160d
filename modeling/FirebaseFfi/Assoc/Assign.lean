import Mathlib.Data.List.Forall2

namespace Assoc

/-- Without duplicates what comes is not among what there was. -/
theorem head_new {α : Type} {xs ys : List α} {a : α} (h : (xs ++ a :: ys).Nodup) : a ∉ xs := by
  obtain ⟨-, -, hne⟩ := List.nodup_append.mp h
  exact fun hmem => hne a hmem a List.mem_cons_self rfl

theorem lookup_mem {Key Value : Type} [BEq Key] [LawfulBEq Key] {m : List (Key × Value)}
    (hd : (m.map Prod.fst).Nodup) {k : Key} {v : Value} : m.lookup k = some v ↔ (k, v) ∈ m := by
  induction m with
  | nil => simp
  | cons e es ih =>
    obtain ⟨j, w⟩ := e
    obtain ⟨hj, hd⟩ := List.nodup_cons.mp hd
    rw [List.mem_cons]
    by_cases h : (k == j) = true
    · obtain rfl := eq_of_beq h
      rw [List.lookup_cons_self]
      constructor
      · intro hw
        cases hw
        exact .inl rfl
      · intro hw
        rcases hw with hw | hw
        · cases hw
          rfl
        · exact absurd (List.mem_map_of_mem (f := Prod.fst) hw) hj
    · have hne : (k == j) = false := by simpa using h
      rw [List.lookup_cons, hne, ih hd]
      constructor
      · exact .inr
      · intro hw
        rcases hw with hw | hw
        · cases hw
          exact absurd BEq.rfl h
        · exact hw

section Assign

variable {Key Value : Type} [DecidableEq Key]

/-- An assignment replaces the value of a key in its place, or comes last. -/
def assign (m : List (Key × Value)) (e : Key × Value) : List (Key × Value) :=
  if m.any (fun d => d.1 = e.1) then m.map fun d => if d.1 = e.1 then e else d else m ++ [e]

/-- A map literal that spreads `m` and then assigns `es`. -/
def assignAll (m es : List (Key × Value)) : List (Key × Value) := es.foldl assign m

/-- The value that a list of assignments leaves at a key. -/
def last : List (Key × Value) → Key → Option Value
  | [], _ => none
  | e :: es, k => (last es k).or (if e.1 = k then some e.2 else none)

variable {m es fs : List (Key × Value)} {e : Key × Value} {k : Key}

theorem last_none (h : ∀ e ∈ es, e.1 ≠ k) : last es k = none := by
  induction es with
  | nil => rfl
  | cons e es ih =>
    rw [last, ih fun d hd => h d (List.mem_cons_of_mem _ hd), if_neg (h e (by simp))]
    rfl

theorem lookup_snoc (h : ∀ d ∈ m, d.1 ≠ e.1) :
    (m ++ [e]).lookup k = if k = e.1 then some e.2 else m.lookup k := by
  rw [List.lookup_append]
  by_cases hk : k = e.1
  · subst hk
    have hnone : m.lookup e.1 = none := by
      apply List.lookup_eq_none_iff.mpr
      intro d hd
      simpa using Ne.symm (h d hd)
    rw [hnone, if_pos rfl, List.lookup_cons, beq_self_eq_true, Option.none_or]
  · have hke : (k == e.1) = false := by simpa using hk
    rw [if_neg hk, List.lookup_cons, hke]
    simp

theorem assign_nodup (h : (m.map Prod.fst).Nodup) : ((assign m e).map Prod.fst).Nodup := by
  unfold assign
  split
  · have hkeys : (m.map fun d => if d.1 = e.1 then e else d).map Prod.fst = m.map Prod.fst := by
      rw [List.map_map]
      apply List.map_congr_left
      intro d _
      by_cases hd : d.1 = e.1 <;> simp [hd]
    rw [hkeys]
    exact h
  · next hn =>
    rw [List.map_append, List.nodup_append]
    refine ⟨h, by simp, ?_⟩
    intro a ha b hb hab
    obtain ⟨d, hd, rfl⟩ := List.mem_map.mp ha
    obtain rfl : b = e.1 := by simpa using hb
    exact hn (List.any_eq_true.mpr ⟨d, hd, by simpa using hab⟩)

theorem assignAll_nodup (h : (m.map Prod.fst).Nodup) : ((assignAll m es).map Prod.fst).Nodup := by
  induction es generalizing m with
  | nil => exact h
  | cons e es ih => exact ih (assign_nodup h)

theorem mem_assign {d : Key × Value} (h : d ∈ assign m e) : d ∈ m ∨ d = e := by
  unfold assign at h
  split at h
  · obtain ⟨c, hc, rfl⟩ := List.mem_map.mp h
    split
    · exact .inr rfl
    · exact .inl hc
  · rcases List.mem_append.mp h with h | h
    · exact .inl h
    · exact .inr (List.mem_singleton.mp h)

theorem mem_assignAll {d : Key × Value} (h : d ∈ assignAll m es) : d ∈ m ∨ d ∈ es := by
  induction es generalizing m with
  | nil => exact .inl h
  | cons e es ih =>
    rcases ih h with h | h
    · rcases mem_assign h with h | rfl
      · exact .inl h
      · exact .inr List.mem_cons_self
    · exact .inr (List.mem_cons_of_mem _ h)

/-- Assignments to different new keys come after one another. -/
theorem assignAll_new (h : ((m ++ es).map Prod.fst).Nodup) : assignAll m es = m ++ es := by
  induction es generalizing m with
  | nil => rw [List.append_nil]; rfl
  | cons e es ih =>
    have hnew : assign m e = m ++ [e] := by
      rw [assign, if_neg]
      intro hany
      obtain ⟨d, hd, hk⟩ := List.any_eq_true.mp hany
      have hkey : d.1 = e.1 := by simpa using hk
      have hfresh : e.1 ∉ m.map Prod.fst := head_new (by simpa using h)
      exact hfresh (hkey ▸ List.mem_map_of_mem hd)
    rw [assignAll, List.foldl_cons, hnew]
    show assignAll (m ++ [e]) es = _
    rw [ih (by rwa [List.append_assoc]), List.append_assoc]
    rfl

end Assign

section LastOf

variable {α β : Type}

/-- What the last element that `f` has a value for gives. -/
def lastOf (f : α → Option β) (xs : List α) : Option β := (xs.filterMap f).getLast?

variable {f : α → Option β} {xs ys : List α}

theorem lastOf_append : lastOf f (xs ++ ys) = (lastOf f ys).or (lastOf f xs) := by
  rw [lastOf, List.filterMap_append, List.getLast?_append]
  rfl

theorem lastOf_singleton (x : α) : lastOf f [x] = f x := by
  cases h : f x <;> simp [lastOf, h]

theorem lastOf_cons (x : α) : lastOf f (x :: xs) = (lastOf f xs).or (f x) := by
  rw [← List.singleton_append, lastOf_append, lastOf_singleton]

theorem lastOf_eq_none : lastOf f xs = none ↔ ∀ x ∈ xs, f x = none := by
  rw [lastOf, List.getLast?_eq_none_iff, List.filterMap_eq_nil_iff]

theorem lastOf_mem {y : β} (h : lastOf f xs = some y) : ∃ x ∈ xs, f x = some y :=
  List.mem_filterMap.mp (List.mem_of_getLast? h)

theorem lastOf_map {γ : Type} (g : γ → α) (zs : List γ) :
    lastOf f (zs.map g) = lastOf (fun z => f (g z)) zs := by
  rw [lastOf, List.filterMap_map]
  rfl

/-- A slot that each step may overwrite holds what the last one put there. -/
theorem lastOf_fold {σ : Type} {step : σ → α → σ} {slot : σ → Option β}
    (h : ∀ s x, slot (step s x) = (f x).or (slot s)) (xs : List α) (s : σ) :
    slot (xs.foldl step s) = (lastOf f xs).or (slot s) := by
  induction xs generalizing s with
  | nil => rfl
  | cons x xs ih => rw [List.foldl_cons, ih, h, lastOf_cons, Option.or_assoc]

theorem lastOf_rel {γ δ : Type} {R : α → γ → Prop} {P : β → δ → Prop} {g : γ → Option δ}
    (hR : ∀ x z, R x z → Option.Rel P (f x) (g z)) {zs : List γ} (h : List.Forall₂ R xs zs) :
    Option.Rel P (lastOf f xs) (lastOf g zs) := by
  induction h with
  | nil => exact .none
  | cons hx _ ih =>
    rw [lastOf_cons, lastOf_cons]
    generalize lastOf f _ = b at ih ⊢
    generalize lastOf g _ = d at ih ⊢
    cases ih with
    | some h => exact .some h
    | none => exact hR _ _ hx

/-- What an element gives under one key. -/
def under {Key : Type} [DecidableEq Key] (f : α → Option (Key × β)) (k : Key) (x : α) : Option β :=
  (f x).bind fun e => if e.1 = k then some e.2 else none

theorem lastOf_under {Key : Type} [DecidableEq Key] {f : α → Option (Key × β)} {k : Key} {v : β}
    (h : lastOf f xs = some (k, v)) : lastOf (under f k) xs = some v := by
  induction xs with
  | nil => cases h
  | cons x xs ih =>
    rw [lastOf_cons] at h ⊢
    rcases Option.or_eq_some_iff.mp h with h | ⟨hnone, hx⟩
    · rw [ih h]
      rfl
    · have hrest : lastOf (under f k) xs = none := by
        rw [lastOf_eq_none] at hnone ⊢
        intro y hy
        rw [under, hnone y hy]
        rfl
      rw [hrest, under, hx]
      simp

theorem lastOf_under_none {Key : Type} [DecidableEq Key] {f : α → Option (Key × β)}
    (h : lastOf f xs = none) (k : Key) : lastOf (under f k) xs = none := by
  rw [lastOf_eq_none] at h ⊢
  intro x hx
  rw [under, h x hx]
  rfl

end LastOf

end Assoc
