import Mathlib.Tactic.Common

namespace Machine

section Run

variable {State Action : Type}

/-- The states that a run reaches whose steps all meet a guard. -/
inductive Run (step : State → Action → Option State) (guard : State → Action → Prop) (s : State) :
    State → Prop
  | start : Run step guard s s
  | next {t u a} : Run step guard s t → guard t a → step t a = some u → Run step guard s u

variable {step : State → Action → Option State} {guard : State → Action → Prop} {s t : State}

theorem Run.invariant {I : State → Prop} (hs : I s)
    (hstep : ∀ t a u, I t → guard t a → step t a = some u → I u) (h : Run step guard s t) :
    I t := by
  induction h with
  | start => exact hs
  | next _ hg ha ih => exact hstep _ _ _ ih hg ha

theorem Run.trans {u : State} (h : Run step guard s t) (h' : Run step guard t u) :
    Run step guard s u := by
  induction h' with
  | start => exact h
  | next _ hg ha ih => exact .next ih hg ha

/-- A run under a guard is one under any weaker guard. -/
theorem Run.weaken {guard' : State → Action → Prop} (hg : ∀ s a, guard s a → guard' s a)
    (h : Run step guard s t) : Run step guard' s t := by
  induction h with
  | start => exact .start
  | next _ ha hstep ih => exact .next ih (hg _ _ ha) hstep

/-- The state after the given actions, when each of them can be taken. -/
def exec (step : State → Action → Option State) (s : State) : List Action → Option State
  | [] => some s
  | a :: as => (step s a).bind fun t => exec step t as

/-- Each of the actions meets the guard where it is taken. -/
def Guarded (step : State → Action → Option State) (guard : State → Action → Prop) (s : State) :
    List Action → Prop
  | [] => True
  | a :: as => guard s a ∧ ∀ t, step s a = some t → Guarded step guard t as

theorem Guarded.next {a : Action} {as : List Action} (hg : guard s a) (hs : step s a = some t)
    (h : Guarded step guard t as) : Guarded step guard s (a :: as) := by
  refine ⟨hg, ?_⟩
  intro u hu
  obtain rfl := Option.some.inj (hs.symm.trans hu)
  exact h

theorem Guarded.unguarded (as : List Action) : Guarded step (fun _ _ => True) s as := by
  induction as generalizing s with
  | nil => trivial
  | cons a as ih => exact ⟨trivial, fun t _ => ih⟩

/-- A guard that looks at the actions only. -/
theorem Guarded.of_actions {guard : Action → Prop} {as : List Action} (h : ∀ a ∈ as, guard a) :
    Guarded step (fun _ a => guard a) s as := by
  induction as generalizing s with
  | nil => trivial
  | cons a as ih =>
    exact ⟨h a List.mem_cons_self, fun t _ => ih fun b hb => h b (List.mem_cons_of_mem _ hb)⟩

theorem Run.of_exec {as : List Action} (h : exec step s as = some t)
    (hg : Guarded step guard s as) : Run step guard s t := by
  induction as generalizing s with
  | nil =>
    cases h
    exact .start
  | cons a as ih =>
    obtain ⟨u, hu, h⟩ := Option.bind_eq_some_iff.mp h
    exact Run.trans (.next .start hg.1 hu) (ih h (hg.2 u hu))

end Run

section Observed

variable {State Action Event Ledger : Type}

/-- A machine whose steps are seen through their events, each entered in a
ledger. -/
def observed (step : State → Action → Option (State × List Event))
    (record : Ledger → Event → Ledger) (s : State × Ledger) (a : Action) :
    Option (State × Ledger) :=
  (step s.1 a).map fun r => (r.1, r.2.foldl record s.2)

variable {step : State → Action → Option (State × List Event)} {record : Ledger → Event → Ledger}

theorem observed_step {s u : State × Ledger} {a : Action} (h : observed step record s a = some u) :
    ∃ t events, step s.1 a = some (t, events) ∧ u = (t, events.foldl record s.2) := by
  unfold observed at h
  obtain ⟨⟨t, events⟩, ht, rfl⟩ := Option.map_eq_some_iff.mp h
  exact ⟨t, events, ht, rfl⟩

/-- Where a step's events are all of a kind exactly when the step meets a guard,
the events of a run are so exactly when all of its steps meet it. -/
theorem exec_events {P : Event → Prop} {guard : State → Action → Prop}
    (hstep : ∀ {s t a events}, step s a = some (t, events) → ((∀ e ∈ events, P e) ↔ guard s a))
    {as : List Action} {s u : State × List Event}
    (h : exec (observed step fun l e => l ++ [e]) s as = some u) :
    (∀ e ∈ u.2, P e) ↔ (∀ e ∈ s.2, P e) ∧
      Guarded (observed step fun l e => l ++ [e]) (fun s a => guard s.1 a) s as := by
  induction as generalizing s with
  | nil =>
    cases h
    exact (and_iff_left trivial).symm
  | cons a as ih =>
    obtain ⟨v, hv, h⟩ := Option.bind_eq_some_iff.mp h
    obtain ⟨t, events, ht, heq⟩ := observed_step hv
    have hledger : v.2 = s.2 ++ events := by
      rw [heq]
      exact (@List.foldl_append_eq_append _ _ events (fun e => [e]) s.2).trans
        (congrArg _ (List.flatMap_singleton' events))
    rw [ih h, hledger, List.forall_mem_append, hstep ht, and_assoc]
    refine and_congr_right fun _ => and_congr_right fun _ => ⟨?_, fun hrest => hrest v hv⟩
    intro hrest w hw
    obtain rfl := Option.some.inj (hv.symm.trans hw)
    exact hrest

end Observed

section Counter

variable {n m : Int64}

/-- A counter goes up by one as long as it is not at its largest value. -/
theorem toInt_succ (h : n ≠ Int64.maxValue) : (n + 1).toInt = n.toInt + 1 := by
  have hle := n.toInt_le
  have hge := n.le_toInt
  have hne : n.toInt ≠ Int64.maxValue.toInt := fun heq => h (Int64.toInt_inj.mp heq)
  rw [Int64.toInt_maxValue] at hne hle
  rw [Int64.toInt_add, Int64.toInt_one]
  apply Int.bmod_eq_of_le <;> omega

theorem lt_succ (h : n ≠ Int64.maxValue) : n < n + 1 := by
  rw [Int64.lt_iff_toInt_lt, toInt_succ h]
  omega

theorem lt_succ_of_le (h : n ≠ Int64.maxValue) (hm : m ≤ n) : m < n + 1 :=
  Int64.lt_of_le_of_lt hm (lt_succ h)

theorem neg_nonpos (h : 0 ≤ n) : -n ≤ 0 := by
  have hle := n.toInt_le
  rw [Int64.toInt_maxValue] at hle
  rw [Int64.le_iff_toInt_le, Int64.toInt_zero] at h
  rw [Int64.le_iff_toInt_le, Int64.toInt_zero, Int64.toInt_neg, Int.bmod_eq_of_le] <;> omega

theorem neg_negative (h : 0 < n) : -n < 0 := by
  have hle := n.toInt_le
  rw [Int64.toInt_maxValue] at hle
  rw [Int64.lt_iff_toInt_lt, Int64.toInt_zero] at h
  rw [Int64.lt_iff_toInt_lt, Int64.toInt_zero, Int64.toInt_neg, Int.bmod_eq_of_le] <;> omega

/-- Numbers that were taken from a counter, in their order. -/
theorem pairwise_snoc {ns : List Int64} (h : ns.Pairwise (· < ·)) (hn : ∀ k ∈ ns, k < n) :
    (ns ++ [n]).Pairwise (· < ·) := by
  rw [List.pairwise_append]
  refine ⟨h, List.pairwise_singleton _ _, ?_⟩
  intro k hk j hj
  obtain rfl := List.mem_singleton.mp hj
  exact hn k hk

end Counter

end Machine
