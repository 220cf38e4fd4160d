import FirebaseFfi.Machine.Exchange

namespace Machine

section Services

variable {Call Request Result Message Outcome Port : Type}
  {Call' Request' Result' Message' Outcome' : Type}

/-- What a protocol is there for: the results that a request may have, and what a
call is told of one. Of some it is told nothing. -/
structure Service (Call Request Result Outcome : Type) where
  Suits : Request → Result → Prop
  Tells : Call → Result → Option Outcome → Prop

/-- The messages of a protocol tell what the service says. -/
def Protocol.Provides (P : Protocol Call Request Result Message Outcome)
    (S : Service Call Request Result Outcome) : Prop :=
  ∀ c request r, P.start c = .ok request → S.Suits request r →
    S.Tells c r ((P.post request r).bind (P.handle c))

/-- The calls and jobs of two protocols, side by side. -/
def Protocol.sum (P : Protocol Call Request Result Message Outcome)
    (Q : Protocol Call' Request' Result' Message' Outcome') :
    Protocol (Call ⊕ Call') (Request ⊕ Request') (Result ⊕ Result') (Message ⊕ Message')
      (Outcome ⊕ Outcome') where
  start
    | .inl c => match P.start c with
      | .ok request => .ok (.inl request)
      | .error o => .error (.inl o)
    | .inr c => match Q.start c with
      | .ok request => .ok (.inr request)
      | .error o => .error (.inr o)
  post
    | .inl request, .inl r => (P.post request r).map .inl
    | .inr request, .inr r => (Q.post request r).map .inr
    | _, _ => none
  handle
    | .inl c, .inl m => (P.handle c m).map .inl
    | .inr c, .inr m => (Q.handle c m).map .inr
    | _, _ => none

def Service.sum (S : Service Call Request Result Outcome)
    (T : Service Call' Request' Result' Outcome') :
    Service (Call ⊕ Call') (Request ⊕ Request') (Result ⊕ Result') (Outcome ⊕ Outcome') where
  Suits
    | .inl request, .inl r => S.Suits request r
    | .inr request, .inr r => T.Suits request r
    | _, _ => False
  Tells
    | .inl c, .inl r, o => ∃ o', S.Tells c r o' ∧ o = o'.map .inl
    | .inr c, .inr r, o => ∃ o', T.Tells c r o' ∧ o = o'.map .inr
    | _, _, _ => False

theorem Protocol.Provides.sum {P : Protocol Call Request Result Message Outcome}
    {Q : Protocol Call' Request' Result' Message' Outcome'}
    {S : Service Call Request Result Outcome} {T : Service Call' Request' Result' Outcome'}
    (hP : P.Provides S) (hQ : Q.Provides T) : (P.sum Q).Provides (S.sum T) := by
  intro c request r hstart hsuits
  cases c with
  | inl c =>
    have hcall : ∃ asked, P.start c = .ok asked ∧ request = .inl asked := by
      simp only [Protocol.sum] at hstart
      split at hstart
      · next asked hasked =>
        cases hstart
        exact ⟨asked, hasked, rfl⟩
      · cases hstart
    obtain ⟨asked, hasked, rfl⟩ := hcall
    cases r with
    | inr r => exact hsuits.elim
    | inl r =>
      refine ⟨_, hP c asked r hasked hsuits, ?_⟩
      show ((P.post asked r).map Sum.inl).bind _ = _
      cases P.post asked r <;> rfl
  | inr c =>
    have hcall : ∃ asked, Q.start c = .ok asked ∧ request = .inr asked := by
      simp only [Protocol.sum] at hstart
      split at hstart
      · next asked hasked =>
        cases hstart
        exact ⟨asked, hasked, rfl⟩
      · cases hstart
    obtain ⟨asked, hasked, rfl⟩ := hcall
    cases r with
    | inl r => exact hsuits.elim
    | inr r =>
      refine ⟨_, hQ c asked r hasked hsuits, ?_⟩
      show ((Q.post asked r).map Sum.inr).bind _ = _
      cases Q.post asked r <;> rfl

end Services

section Answered

variable {Call Request Result Message Outcome Port : Type}

/-- A job is completed with a result that suits its request. -/
def Exchange.Suited (S : Service Call Request Result Outcome)
    (x : Exchange Call Request Result Message Outcome Port)
    (a : ExchangeAction Call Result Port) : Prop :=
  ∀ j r job, a = .complete j r → x.jobs[j]? = some job → S.Suits job.request r

variable (P : Protocol Call Request Result Message Outcome)
  (S : Service Call Request Result Outcome)
  (x : Exchange Call Request Result Message Outcome Port)

/-- Where a call is: refused, or asked of the other side, and then without an outcome
or with what the service tells of the result of its own request. -/
structure Exchange.Served (w : Waiter Call Port Outcome) : Prop where
  refused : ∀ o, P.start w.call = .error o → w.job = none ∧ w.outcome = some o
  asked : ∀ request, P.start w.call = .ok request → ∃ j job, w.job = some j ∧
    x.jobs[j]? = some job ∧ job.request = request ∧
      ∀ o, w.outcome = some o → ∃ r, job.result = some r ∧ S.Tells w.call r (some o)

/-- What holds of the calls at any time: what is asked of the other side is what they
ask for, once each and in their order; and each is answered for its own request, at
most once. When all is delivered, only those are without an answer that have no
result, or one that they are not told of. -/
structure Exchange.Answered [DecidableEq Port] : Prop where
  requests : x.jobs.map Job.request = x.calls.filterMap fun w => (P.start w.call).toOption
  each : ∀ w ∈ x.calls, x.Served P S w
  inOrder : x.calls.filterMap Waiter.job = List.range x.jobs.length
  once : ∀ (i : Nat) w x', x.calls[i]? = some w →
    Run (Exchange.step P) (fun _ _ => True) x x' → ∃ w', x'.calls[i]? = some w' ∧ w.Later w'
  settles : ∃ as x', exec (Exchange.step P) x as = some x' ∧ x'.jobs = x.jobs ∧
    ∀ w ∈ x'.calls, w.outcome = none → ∃ j job, w.job = some j ∧ x'.jobs[j]? = some job ∧
      ∀ r, job.result = some r → S.Tells w.call r none

variable {P S x} [DecidableEq Port]

theorem Exchange.Kept.answered (hprovides : P.Provides S) (h : x.Kept P)
    (hresults : ∀ job ∈ x.jobs, ∀ r, job.result = some r → S.Suits job.request r) :
    x.Answered P S := by
  refine ⟨h.requests, ?_, h.made, ?_, ?_⟩
  · intro w hw
    rcases h.served hw with ⟨o, hstart, hjob, hout⟩ | ⟨j, job, hstart, hjob, hj, hserved⟩
    · refine ⟨?_, ?_⟩
      · intro o' ho'
        cases hstart.symm.trans ho'
        exact ⟨hjob, hout⟩
      · intro request hrequest
        cases hstart.symm.trans hrequest
    · refine ⟨?_, ?_⟩
      · intro o' ho'
        cases hstart.symm.trans ho'
      · intro request hrequest
        cases hstart.symm.trans hrequest
        refine ⟨j, job, hjob, hj, rfl, ?_⟩
        intro o ho
        obtain ⟨r, m, hr, hpost, hhandle⟩ := hserved o ho
        refine ⟨r, hr, ?_⟩
        have htold := hprovides _ _ r hstart (hresults job (List.mem_of_getElem? hj) r hr)
        rw [hpost, Option.bind_some, hhandle] at htold
        exact htold
  · intro i w x' hi hrun
    exact Exchange.run_later hrun hi
  · obtain ⟨as, x', hexec, hempty, hjobs, hkept⟩ := h.drains
    refine ⟨as, x', hexec, hjobs, ?_⟩
    intro w hw hnone
    obtain ⟨j, job, hjob, hj, hlost⟩ := hkept.unsettled hempty hw hnone
    refine ⟨j, job, hjob, hj, ?_⟩
    intro r hr
    rcases hkept.served hw with ⟨o, -, hno, -⟩ | ⟨i, made, hstart, hi, hmade, -⟩
    · cases hno.symm.trans hjob
    · cases hi.symm.trans hjob
      cases hmade.symm.trans hj
      have htold := hprovides _ _ r hstart
        (hresults job (List.mem_of_getElem? (hjobs ▸ hj)) r hr)
      rw [hlost r hr] at htold
      exact htold

/-- In every run whose results suit their requests, whatever their order, the calls
are answered as the service says. -/
theorem Exchange.provided (hprovides : P.Provides S)
    (h : Run (Exchange.step P) (Exchange.Suited S) .start x) : x.Answered P S :=
  Kept.answered hprovides (Kept.run h) (Exchange.results_meet h)

section Suited

omit [DecidableEq Port]

theorem Exchange.Suited.call (c : Call) (port : Port) : x.Suited S (.call c port) := by
  intro j r job hcomplete
  cases hcomplete

theorem Exchange.Suited.deliver : x.Suited S .deliver := by
  intro j r job hcomplete
  cases hcomplete

theorem Exchange.Suited.complete {j : Nat} {r : Result}
    (h : ∀ job, x.jobs[j]? = some job → S.Suits job.request r) : x.Suited S (.complete j r) := by
  intro j' r' job hcomplete hj
  cases hcomplete
  exact h job hj

end Suited

end Answered

end Machine
