import FirebaseFfi.Firestore.TxnState

namespace Firestore
open Cbor Machine

/-- An accepted call, the attempts in which it was accepted and taken, and the
reads answered for it, each with its path and port. -/
structure Ticket where
  call : TxnCall
  accepted : Nat
  taken : Option Nat
  answers : List (Bytes × Int64)

/-- What became of every accepted call: those that are over, the one the update
function took last and the one in the slot. -/
structure Ledger where
  attempt : Nat
  past : List Ticket
  serving : Option Ticket
  slot : Option Ticket

def Ledger.start : Ledger := ⟨0, [], none, none⟩

/-- A call that is accepted puts an end to the one in the slot. -/
def Ledger.record (l : Ledger) : Event → Ledger
  | .accepted c =>
    { l with past := l.past ++ l.slot.toList, slot := some ⟨c, l.attempt, none, []⟩ }
  | .began attempt => { l with attempt := attempt }
  | .taken =>
    { l with past := l.past ++ l.serving.toList,
             serving := l.slot.map fun t => { t with taken := some l.attempt },
             slot := none }
  | .answered path port =>
    { l with serving := l.serving.map fun t => { t with answers := t.answers ++ [(path, port)] } }

/-- A read is answered once, on its port and for its path. -/
def TxnCall.answers : TxnCall → List (Bytes × Int64)
  | .get _ path port => [(path, port)]
  | _ => []

/-- Taken in the attempt in which it was accepted, and answered. -/
def Ticket.Delivered (t : Ticket) : Prop :=
  t.taken = some t.accepted ∧ t.answers = t.call.answers

/-- No accepted call is lost. Only the last one taken can be a read whose answer
is still to come, and only the one in the slot waits to be taken, in an attempt
that is still to end. -/
structure Kept (s : Native) (l : Ledger) : Prop where
  past : ∀ t ∈ l.past, t.Delivered
  serving : ∀ t, l.serving = some t → t.Delivered ∨
    t.taken = some t.accepted ∧ t.answers = [] ∧
      ∃ path port, s.lambda = .reading path port ∧ t.call.answers = [(path, port)]
  slot : ∀ t, l.slot = some t → t.accepted = l.attempt ∧ t.taken = none ∧ s.lambda.open

/-- The slot is empty when a call locks it, the attempt is still to end, and a
path that is read is one that `Document(path)` takes. -/
def InTurn (document : Bytes → Bool) (s : Native) : Action → Prop
  | .lock i => s.state.req = .none ∧ s.lambda.open ∧
      ∀ c, s.callers[i]? = some c → ∀ r ∈ c.answers, document r.1
  | _ => True

/-- The slot has the request of a call. -/
def TxnState.Holds (state : TxnState) : TxnCall → Prop
  | .get _ path port => state.req = .get ∧ state.getPath = path ∧ state.getPort = port
  | .commit _ writes => state.req = .commit ∧ state.writes = writes
  | .abort _ => state.req = .abort

section Delivery

variable (document : Bytes → Bool)

/-- The ledger knows what is in the slot. -/
structure Slotted (state : TxnState) (l : Ledger) : Prop where
  attempt : l.attempt = state.attempt
  empty : l.slot = none → state.req = .none
  held : ∀ t, l.slot = some t → state.Holds t.call ∧ t.accepted = l.attempt ∧ t.taken = none ∧
    t.answers = [] ∧ ∀ r ∈ t.call.answers, document r.1

/-- The last call that was taken is the read in progress, or is done with. -/
def Serving (lambda : Lambda) (l : Ledger) : Prop :=
  match lambda with
  | .reading path port => document path ∧ ∃ t, l.serving = some t ∧ t.taken = some t.accepted ∧
      t.answers = [] ∧ t.call.answers = [(path, port)]
  | _ => ∀ t, l.serving = some t → t.Delivered

/-- What holds between two steps of a run whose calls are in turn. -/
structure Coherent (state : TxnState) (lambda : Lambda) (l : Ledger) : Prop where
  slotted : Slotted document state l
  past : ∀ t ∈ l.past, t.Delivered
  serving : Serving document lambda l
  inAttempt : l.slot ≠ none → lambda.open

variable {document} {state : TxnState} {lambda : Lambda} {l : Ledger}

theorem Coherent.kept {s : Native} (h : Coherent document s.state s.lambda l) : Kept s l := by
  refine ⟨h.past, fun t ht => ?_, fun t ht => ?_⟩
  · have hserving := h.serving
    unfold Serving at hserving
    split at hserving
    · next path port hreading =>
      obtain ⟨_, t', ht', htaken, hnone, hcall⟩ := hserving
      rw [ht] at ht'
      cases ht'
      exact .inr ⟨htaken, hnone, path, port, hreading, hcall⟩
    · exact .inl (hserving t ht)
  · obtain ⟨_, haccepted, htaken, _⟩ := h.slotted.held t ht
    refine ⟨haccepted, htaken, h.inAttempt ?_⟩
    rw [ht]
    exact Option.some_ne_none t

/-- Outside of a read, what was taken is done with. -/
theorem Coherent.delivered (h : Coherent document state lambda l)
    (hr : ∀ path port, lambda ≠ .reading path port) : ∀ t, l.serving = some t → t.Delivered := by
  have hserving := h.serving
  unfold Serving at hserving
  split at hserving
  · next path port => exact absurd rfl (hr path port)
  · exact hserving

/-- The update function stops with the slot empty. -/
theorem Coherent.stopped (h : Coherent document state lambda l) (hl : lambda.open = false) :
    l.slot = none := by
  by_contra hslot
  have hopen := h.inAttempt hslot
  rw [hl] at hopen
  cases hopen

theorem past_append {ts : List Ticket} {o : Option Ticket} (hts : ∀ t ∈ ts, t.Delivered)
    (ho : ∀ t, o = some t → t.Delivered) : ∀ t ∈ ts ++ o.toList, t.Delivered := by
  intro t ht
  rcases List.mem_append.mp ht with h | h
  · exact hts t h
  · exact ho t (Option.mem_toList.mp h)

/-- A call that is in turn fills the slot. -/
theorem Coherent.accept (h : Coherent document state lambda l) {c : TxnCall}
    (hempty : state.req = .none) (hopen : lambda.open = true)
    (hc : ∀ r ∈ c.answers, document r.1) :
    Coherent document (state.accept c) lambda (l.record (.accepted c)) := by
  have hslot : l.slot = none := by
    cases hs : l.slot with
    | none => rfl
    | some t =>
      have hheld := (h.slotted.held t hs).1
      cases ht : t.call <;> rw [ht] at hheld <;> simp [TxnState.Holds, hempty] at hheld
  refine ⟨⟨?_, ?_, ?_⟩, ?_, h.serving, fun _ => hopen⟩
  · rw [Ledger.record, h.slotted.attempt]
    cases c <;> rfl
  · intro hnone
    cases hnone
  · rintro t ⟨⟩
    refine ⟨?_, rfl, rfl, rfl, hc⟩
    cases c
    · exact ⟨rfl, rfl, rfl⟩
    · exact ⟨rfl, rfl⟩
    · rfl
  · rw [Ledger.record, hslot]
    simpa using h.past

theorem Slotted.taken (h : Slotted document state l) {state' : TxnState}
    (hreq : state'.req = .none) (hattempt : state'.attempt = state.attempt) :
    Slotted document state' (l.record .taken) := by
  refine ⟨?_, fun _ => hreq, ?_⟩
  · rw [hattempt]
    exact h.attempt
  · rintro t ⟨⟩

/-- What was taken in the slot's attempt is done with, unless it is a read. -/
theorem taken_delivered {t : Ticket} (hs : l.slot = some t) (haccepted : t.accepted = l.attempt)
    (hanswers : t.answers = []) (hnone : t.call.answers = []) :
    ∀ t', (l.record .taken).serving = some t' → t'.Delivered := by
  intro t' ht'
  rw [Ledger.record, hs] at ht'
  cases ht'
  exact ⟨congrArg some haccepted.symm, hanswers.trans hnone.symm⟩

theorem serve_coherent {s : Native} (hslot : Slotted document s.state l)
    (hpast : ∀ t ∈ l.past, t.Delivered) (hserving : ∀ t, l.serving = some t → t.Delivered) :
    Coherent document (serve s).1.state (serve s).1.lambda ((serve s).2.foldl Ledger.record l) := by
  have hpast' : ∀ t ∈ (l.record .taken).past, t.Delivered := past_append hpast hserving
  cases hs : l.slot with
  | none =>
    have hreq := hslot.empty hs
    simp only [serve, hreq, List.foldl_nil]
    exact ⟨hslot, hpast, hserving, fun h => absurd hs h⟩
  | some t =>
    obtain ⟨hheld, haccepted, htaken, hanswers, hdocument⟩ := hslot.held t hs
    cases hc : t.call with
    | get id path port =>
      rw [hc] at hheld hdocument
      obtain ⟨hreq, rfl, rfl⟩ := hheld
      simp only [serve, hreq, List.foldl_cons, List.foldl_nil]
      refine ⟨hslot.taken rfl rfl, hpast', ?_, fun h => absurd rfl h⟩
      refine ⟨hdocument _ (List.mem_singleton.mpr rfl), { t with taken := some l.attempt }, ?_⟩
      refine ⟨?_, congrArg some haccepted.symm, hanswers, by rw [hc]; rfl⟩
      rw [Ledger.record, hs]
      rfl
    | commit id writes =>
      rw [hc] at hheld
      obtain ⟨hreq, rfl⟩ := hheld
      simp only [serve, hreq, List.foldl_cons, List.foldl_nil]
      exact ⟨hslot.taken rfl rfl, hpast', taken_delivered hs haccepted hanswers (by rw [hc]; rfl),
        fun h => absurd rfl h⟩
    | abort id =>
      rw [hc] at hheld
      have hreq : s.state.req = .abort := hheld
      simp only [serve, hreq, List.foldl_cons, List.foldl_nil]
      exact ⟨hslot.taken rfl rfl, hpast', taken_delivered hs haccepted hanswers (by rw [hc]; rfl),
        fun h => absurd rfl h⟩

/-- The answer to the read in progress. -/
theorem Coherent.answer {path : Bytes} {port : Int64}
    (h : Coherent document state (.reading path port) l) :
    Coherent document state .answered (l.record (.answered path port)) := by
  obtain ⟨_, t, ht, htaken, hnone, hcall⟩ := h.serving
  refine ⟨⟨h.slotted.attempt, h.slotted.empty, h.slotted.held⟩, h.past, ?_, fun _ => rfl⟩
  intro t' ht'
  rw [Ledger.record, ht] at ht'
  cases ht'
  refine ⟨htaken, ?_⟩
  show t.answers ++ [(path, port)] = t.call.answers
  rw [hnone, hcall]
  rfl

/-- The update function moves on, without a request and without an answer. -/
theorem Coherent.move (h : Coherent document state lambda l) {lambda' : Lambda}
    (hl : lambda.open = false) (hl' : ∀ path port, lambda' ≠ .reading path port) :
    Coherent document state lambda' l := by
  refine ⟨h.slotted, h.past, ?_, fun hslot => absurd (h.stopped hl) hslot⟩
  have hdelivered := h.delivered (by rintro path port rfl; cases hl)
  unfold Serving
  split
  · next path port => exact absurd rfl (hl' path port)
  · exact hdelivered

/-- A new attempt finds the slot empty. -/
theorem Coherent.begin (h : Coherent document state lambda l) (hl : lambda.open = false)
    (attempt : Nat) :
    Slotted document { state with attempt := attempt } (l.record (.began attempt)) := by
  have hslot := h.stopped hl
  refine ⟨rfl, h.slotted.empty, fun t ht => ?_⟩
  rw [show (l.record (.began attempt)).slot = none from hslot] at ht
  cases ht

theorem step_coherent {s u : Native × Ledger} {a : Action}
    (h : Coherent document s.1.state s.1.lambda s.2) (hturn : InTurn document s.1 a)
    (hstep : observed (step document) Ledger.record s a = some u) :
    Coherent document u.1.state u.1.lambda u.2 := by
  obtain ⟨t, events, ht, rfl⟩ := observed_step hstep
  obtain ⟨s, l⟩ := s
  cases a with
  | call c =>
    simp only [step, Option.ite_none_right_eq_some] at ht
    obtain ⟨_, ht⟩ := ht
    cases ht
    exact h
  | lock i =>
    obtain ⟨hempty, hopen, hdocument⟩ := hturn
    simp only [step] at ht
    split at ht
    · next c hc =>
      cases ht
      exact h.accept hempty hopen (hdocument c hc)
    · cases ht
  | run =>
    simp only [step, Option.ite_none_right_eq_some, Bool.and_eq_true] at ht
    obtain ⟨⟨_, hstopped⟩, ht⟩ := ht
    cases ht
    have hl := Lambda.stopped_not_open hstopped
    exact serve_coherent (h.begin hl _) h.past
      (h.delivered (by intro path port hr; rw [hr] at hl; cases hl))
  | wake =>
    simp only [step] at ht
    split at ht
    · next hw =>
      split at ht
      · cases ht
      · have hserve := serve_coherent h.slotted h.past
          (h.delivered (by rw [hw]; intro _ _ hr; cases hr))
        rw [Option.some.inj ht] at hserve
        exact hserve
    · cases ht
  | answer =>
    simp only [step] at ht
    split at ht
    · next path reply hr =>
      have hreading := h
      rw [hr] at hreading
      rw [if_pos hreading.serving.1] at ht
      cases ht
      exact hreading.answer
    · cases ht
  | relock =>
    simp only [step] at ht
    split at ht
    · next hw =>
      have hserve := serve_coherent h.slotted h.past
        (h.delivered (by rw [hw]; intro _ _ hr; cases hr))
      rw [Option.some.inj ht] at hserve
      exact hserve
    · cases ht
  | apply r =>
    simp only [step] at ht
    split at ht
    · next writes hw =>
      cases ht
      exact h.move (by rw [hw]; rfl) (by intro _ _ hr; cases hr)
    · next hw =>
      cases ht
      exact h.move (by rw [hw]; rfl) (by intro _ _ hr; cases hr)
    · next hw =>
      cases ht
      exact h.move (by rw [hw]; rfl) (by intro _ _ hr; cases hr)
    · cases ht
  | finish =>
    simp only [step, Option.ite_none_right_eq_some] at ht
    obtain ⟨_, ht⟩ := ht
    cases ht
    exact h

theorem start_coherent : Coherent document TxnState.start .idle Ledger.start := by
  refine ⟨⟨rfl, fun _ => rfl, ?_⟩, ?_, ?_, fun h => absurd rfl h⟩
  · rintro t ⟨⟩
  · intro t ht
    cases ht
  · rintro t ⟨⟩

/-- In a run whose calls are all in turn, no accepted call is lost. -/
theorem requests_kept (document : Bytes → Bool) {s : Native} {l : Ledger}
    (h : Run (observed (step document) Ledger.record) (fun u a => InTurn document u.1 a)
      (.start, .start) (s, l)) : Kept s l :=
  (h.invariant (I := fun u => Coherent document u.1.state u.1.lambda u.2) start_coherent
    fun _ _ _ hi hg hs => step_coherent hi hg hs).kept

/-- A read and then a commit, each once the one before is done with. -/
def readThenCommit : List Action :=
  [.run, .call (.get 1 [0x61] 7), .lock 0, .wake, .answer, .relock, .call (.commit 1 []), .lock 0,
    .wake, .apply .ok, .finish]

theorem readThenCommit_kept :
    Kept ⟨false, ⟨.none, [0x61], 7, [], 1⟩, .returned (.ok []), []⟩
      ⟨1, [⟨.get 1 [0x61] 7, 1, some 1, [([0x61], 7)]⟩], some ⟨.commit 1 [], 1, some 1, []⟩,
        none⟩ := by
  have hexec : exec (observed (step fun _ => true) Ledger.record) (Native.start, Ledger.start)
      readThenCommit = some (_, _) := rfl
  refine requests_kept (fun _ => true) (Run.of_exec hexec ?_)
  repeat' first
    | exact trivial
    | exact ⟨rfl, rfl, fun _ _ _ _ => rfl⟩
    | refine ⟨?_, ?_⟩
    | rintro _ ⟨⟩

/-- Two reads that are asked for before the update function wakes up. -/
def twoReads : List Action :=
  [.run, .call (.get 1 [0x61] 7), .call (.get 1 [0x62] 8), .lock 0, .lock 0]

/-- The first read is accepted, and then its request is overwritten. -/
theorem twoReads_lost : ∃ u, exec (observed (step fun _ => true) Ledger.record)
    (Native.start, Ledger.start) twoReads = some u ∧
      u.2.past = [⟨.get 1 [0x61] 7, 1, none, []⟩] ∧ ¬ Kept u.1 u.2 := by
  refine ⟨_, rfl, rfl, fun h => ?_⟩
  have htaken := (h.past _ (List.mem_singleton.mpr rfl)).1
  cases htaken

end Delivery

end Firestore
