import FirebaseFfi.Database.TxnWorld
import FirebaseFfi.Machine.Run

namespace Database
open Assoc Cbor Dart Machine

section Messages

variable {package : CborPackage} {handler : Handler} {s : Session} {m : Message}

theorem complete_kept (s : Session) (c : Completion) :
    (s.complete c).1.calls = s.calls ∧ (s.complete c).1.txnId = s.txnId := by
  unfold Session.complete
  split <;> exact ⟨rfl, rfl⟩

theorem onFailure_kept (s : Session) (seq : Int64) (bytes : Bytes) :
    (onFailure package s seq bytes).1.calls = s.calls ∧
      (onFailure package s seq bytes).1.txnId = s.txnId := by
  unfold onFailure
  split
  · exact complete_kept s _
  · split
    · exact ⟨rfl, rfl⟩
    · split
      · exact ⟨rfl, rfl⟩
      · exact complete_kept s _

theorem onSuccess_kept (s : Session) (bytes : Bytes) :
    (onSuccess package s bytes).1.calls = s.calls ∧
      (onSuccess package s bytes).1.txnId = s.txnId := by
  unfold onSuccess
  split
  · exact ⟨rfl, rfl⟩
  · exact complete_kept s _

theorem onMessage_deaf (hs : s.listening = false) (bytes : Bytes) :
    (onMessage package handler s bytes).1 = s := by
  rw [onMessage, hs]
  rfl

/-- The event that ends a transaction is not answered. -/
theorem onMessage_ended (hm : m.seq ≤ 0) :
    (onMessage package handler s m.bytes).1.calls = s.calls ∧
      (onMessage package handler s m.bytes).1.txnId = s.txnId := by
  cases hs : s.listening with
  | false =>
    rw [onMessage_deaf hs]
    exact ⟨rfl, rfl⟩
  | true =>
    rw [onMessage, hs, Message.bytes, seqOf_post]
    simp only [Bool.not_true, Bool.false_eq_true, if_false]
    split
    · exact onFailure_kept _ _ _
    · next hneg =>
      have hzero : m.seq = 0 := by
        apply Int64.toInt_inj.mp
        rw [Int64.le_iff_toInt_le] at hm
        rw [Int64.lt_iff_toInt_lt] at hneg
        omega
      rw [if_pos hzero]
      exact onSuccess_kept _ _

/-- An attempt is answered with at most one call, which carries the decision. -/
theorem onMessage_attempt (hm : 0 < m.seq) :
    (onMessage package handler s m.bytes).1.txnId = s.txnId ∧
      ((onMessage package handler s m.bytes).1.calls = s.calls ∨
        ∃ call, (onMessage package handler s m.bytes).1.calls = s.calls ++ [call] ∧
          call.txnId = s.txnId ∧ call.Carries package (decideAttempt package handler m.bytes)) := by
  cases hs : s.listening with
  | false =>
    rw [onMessage_deaf hs]
    exact ⟨rfl, .inl rfl⟩
  | true =>
    refine ⟨process_txnId package hs ⟨m.seq, m.now, m.payload, handler, hm⟩, ?_⟩
    cases he : encodedDecision package (decideAttempt package handler m.bytes) with
    | error e =>
      left
      exact process_unsent package hs ⟨m.seq, m.now, m.payload, handler, hm⟩ he
    | ok encoded =>
      right
      have hcalls := process_sent package hs ⟨m.seq, m.now, m.payload, handler, hm⟩ he
      exact ⟨_, hcalls, rfl, encodedDecision_carries package he⟩

end Messages

/-- What the update function makes of the state that a call has written is what the call
asks for, whatever the state was. -/
theorem decide_apply (less : Firebase.Less) (state : DbTxnState) (call : ApplyCall) :
    (fdbDbTxnApply state call).decide less = call.result less := by
  obtain ⟨txnId, cbor, abort⟩ := call
  cases abort with
  | true => rfl
  | false =>
    cases cbor with
    | nil => rfl
    | cons b bytes => rfl

section Transaction

variable (package : CborPackage) (less : Firebase.Less)

/-- What is entered about a transaction, whatever step comes next. -/
structure Ledger (i : Nat) (t : Txn) : Prop where
  count : 0 ≤ t.state.attempt
  session : t.returned = true → t.session.txnId = t.id
  posted : (t.posted.map Prod.fst).Pairwise (· < ·)
  postedBound : ∀ k ∈ t.posted.map Prod.fst, k ≤ t.state.attempt
  used : (t.uses.map Use.attempt).Pairwise (· < ·)
  usedBound : ∀ k ∈ t.uses.map Use.attempt, k ≤ t.state.attempt
  answers : ∀ a ∈ t.answers, a.txn = i ∧ (a.message.seq, a.message.payload) ∈ t.posted ∧
    a.call.Carries package (decideAttempt package a.handler a.message.bytes)
  uses : ∀ u ∈ t.uses, u.Proper package less i t

/-- There is no message to handle and no call to make. -/
structure Txn.Quiet (t : Txn) : Prop where
  inbox : t.inbox = []
  outbox : t.outbox = []
  found : t.found = none

/-- The update function is parked and its attempt has not been used. -/
structure Txn.Parked (t : Txn) : Prop where
  thread : t.thread = .waiting t.state.attempt
  unused : ∀ k ∈ t.uses.map Use.attempt, k < t.state.attempt

/-- Where the one answer to the attempt is: nowhere yet, in the message, in the
call, given up, or in the state. -/
inductive Answering (i : Nat) (t : Txn) : Prop
  | idle : t.thread = .idle → t.Quiet → Answering i t
  | numbered {payload} : t.thread = .numbered t.state.attempt payload → t.Quiet →
      t.state.answered = false → 0 < t.state.attempt →
      (∀ k ∈ t.posted.map Prod.fst, k < t.state.attempt) →
      (∀ k ∈ t.uses.map Use.attempt, k < t.state.attempt) → Answering i t
  | posted {now payload} : t.Parked → t.inbox = [⟨now, t.state.attempt, payload⟩] →
      t.outbox = [] → t.found = none → t.state.answered = false → 0 < t.state.attempt →
      (t.state.attempt, payload) ∈ t.posted → Answering i t
  | calling {a} : t.Parked → t.inbox = [] → t.outbox = [a] → (∀ j, t.found = some j → j = i) →
      a ∈ t.answers → a.message.seq = t.state.attempt → a.call.txnId = t.id →
      t.state.answered = false → Answering i t
  | silent : t.Parked → t.Quiet → t.state.answered = false → Answering i t
  | answered {a} : t.Parked → t.Quiet → t.source = some a → a ∈ t.answers →
      a.message.seq = t.state.attempt → t.state.decide less = a.call.result less → Answering i t
  | ended : t.thread = .completed ∨ t.thread = .erased → t.outbox = [] → t.found = none →
      (∀ m ∈ t.inbox, m.seq ≤ 0) → Answering i t

structure Kept (i : Nat) (t : Txn) : Prop where
  ledger : Ledger package less i t
  stage : Answering less i t

variable {package less} {i : Nat} {t s : Txn}

theorem kept_start (id : Int64) : Kept package less i (.start id) := by
  refine ⟨⟨Int64.le_refl 0, ?_, .nil, ?_, .nil, ?_, ?_, ?_⟩, .idle rfl ⟨rfl, rfl, rfl⟩⟩
  · intro h
    cases h
  · intro k hk
    cases hk
  · intro k hk
    cases hk
  · intro a ha
    cases ha
  · intro u hu
    cases hu

theorem Answering.of_idle (h : Answering less i t) (ht : t.thread = .idle) : t.Quiet := by
  cases h with
  | idle _ hq => exact hq
  | numbered hn => cases ht.symm.trans hn
  | posted hp | calling hp | silent hp | answered hp => cases ht.symm.trans hp.thread
  | ended he =>
    rcases he with he | he
    · cases ht.symm.trans he
    · cases ht.symm.trans he

theorem Kept.attempt {data : Firebase.Variant} (h : Kept package less i t)
    (hs : t.attempt data = some s) : Kept package less i s ∧ s.id = t.id := by
  unfold Txn.attempt at hs
  split at hs
  · next payload ht _ =>
    split at hs
    · cases hs
    · next hmax =>
      cases hs
      have hq := h.stage.of_idle ht
      have hpos : 0 < t.state.attempt + 1 := lt_succ_of_le hmax h.ledger.count
      have hle := Int64.le_of_lt (lt_succ hmax)
      refine ⟨⟨⟨Int64.le_of_lt hpos, h.ledger.session, h.ledger.posted, ?_, h.ledger.used, ?_,
        h.ledger.answers, h.ledger.uses⟩, .numbered rfl ⟨hq.inbox, hq.outbox, hq.found⟩ rfl hpos
          ?_ ?_⟩, rfl⟩
      · intro k hk
        exact Int64.le_trans (h.ledger.postedBound k hk) hle
      · intro k hk
        exact Int64.le_trans (h.ledger.usedBound k hk) hle
      · intro k hk
        exact lt_succ_of_le hmax (h.ledger.postedBound k hk)
      · intro k hk
        exact lt_succ_of_le hmax (h.ledger.usedBound k hk)
  · cases hs
    exact ⟨h, rfl⟩
  · cases hs

theorem Use.Proper.mono {u : Use} (h : u.Proper package less i t)
    (ha : ∀ a ∈ t.answers, a ∈ s.answers) (hp : ∀ p ∈ t.posted, p ∈ s.posted) :
    u.Proper package less i s := by
  obtain ⟨a, hmem, hu, htxn, hseq, hposted, hcall, hres⟩ := h
  exact ⟨a, ha a hmem, hu, htxn, hseq, hp _ hposted, hcall, hres⟩

theorem Kept.post {now : UInt64} (h : Kept package less i t) (hs : t.post now = some s) :
    Kept package less i s ∧ s.id = t.id := by
  unfold Txn.post at hs
  split at hs
  · next attempt payload ht =>
    cases hs
    cases h.stage with
    | numbered hn hq hans hpos hposted hused =>
      cases ht.symm.trans hn
      have hkeys : ((t.posted ++ [(t.state.attempt, payload)]).map Prod.fst) =
          t.posted.map Prod.fst ++ [t.state.attempt] := List.map_append
      have hsub : ∀ p ∈ t.posted, p ∈ t.posted ++ [(t.state.attempt, payload)] := by
        intro p hp
        exact List.mem_append_left _ hp
      refine ⟨⟨⟨h.ledger.count, h.ledger.session, ?_, ?_, h.ledger.used, h.ledger.usedBound, ?_,
        ?_⟩, .posted ⟨rfl, hused⟩ (by rw [hq.inbox]; rfl) hq.outbox hq.found hans hpos
          (List.mem_append_right _ (List.mem_singleton.mpr rfl))⟩, rfl⟩
      · dsimp only
        rw [hkeys]
        exact pairwise_snoc h.ledger.posted hposted
      · dsimp only
        rw [hkeys]
        intro k hk
        rcases List.mem_append.mp hk with hk | hk
        · exact h.ledger.postedBound k hk
        · rw [List.mem_singleton.mp hk]
          exact Int64.le_refl _
      · intro a ha
        obtain ⟨htxn, hp, hcall⟩ := h.ledger.answers a ha
        exact ⟨htxn, hsub _ hp, hcall⟩
      · intro u hu
        exact (h.ledger.uses u hu).mono (fun _ ha => ha) hsub
    | idle hi => cases ht.symm.trans hi
    | posted hp | calling hp | silent hp | answered hp => cases ht.symm.trans hp.thread
    | ended he =>
      rcases he with he | he
      · cases ht.symm.trans he
      · cases ht.symm.trans he
  · cases hs

/-- Only an answer wakes the update function up. -/
theorem Answering.of_wake {attempt : Int64} (h : Answering less i t) (ht : t.thread = .waiting attempt)
    (hans : t.state.answered = true) : t.Parked ∧ t.Quiet ∧ ∃ a, t.source = some a ∧
      a ∈ t.answers ∧ a.message.seq = t.state.attempt ∧
      t.state.decide less = a.call.result less := by
  cases h with
  | answered hp hq hsource ha hseq hres => exact ⟨hp, hq, _, hsource, ha, hseq, hres⟩
  | idle hi => cases ht.symm.trans hi
  | numbered hn => cases ht.symm.trans hn
  | posted _ _ _ _ hno => cases hans.symm.trans hno
  | calling _ _ _ _ _ _ _ hno => cases hans.symm.trans hno
  | silent _ _ hno => cases hans.symm.trans hno
  | ended he =>
    rcases he with he | he
    · cases ht.symm.trans he
    · cases ht.symm.trans he

theorem Kept.wake (h : Kept package less i t) (hs : t.wake less = some s) :
    Kept package less i s ∧ s.id = t.id := by
  unfold Txn.wake at hs
  split at hs
  · next attempt ht =>
    split at hs
    · next hans =>
      cases hs
      obtain ⟨hp, hq, a, hsource, ha, hseq, hres⟩ := h.stage.of_wake ht hans
      cases ht.symm.trans hp.thread
      obtain ⟨htxn, hposted, hcall⟩ := h.ledger.answers a ha
      rw [hseq] at hposted
      have hnew : (Use.mk t.state.attempt t.source (t.state.decide less)).Proper package less i t :=
        ⟨a, ha, hsource, htxn, hseq, hposted, hcall, hres⟩
      have hkeys : (t.uses ++ [Use.mk t.state.attempt t.source (t.state.decide less)]).map
          Use.attempt = t.uses.map Use.attempt ++ [t.state.attempt] := List.map_append
      refine ⟨⟨⟨h.ledger.count, h.ledger.session, h.ledger.posted, h.ledger.postedBound, ?_, ?_,
        h.ledger.answers, ?_⟩, .idle rfl ⟨hq.inbox, hq.outbox, hq.found⟩⟩, rfl⟩
      · dsimp only
        rw [hkeys]
        exact pairwise_snoc h.ledger.used hp.unused
      · dsimp only
        rw [hkeys]
        intro k hk
        rcases List.mem_append.mp hk with hk | hk
        · exact h.ledger.usedBound k hk
        · rw [List.mem_singleton.mp hk]
          exact Int64.le_refl _
      · intro u hu
        rcases List.mem_append.mp hu with hu | hu
        · exact h.ledger.uses u hu
        · rw [List.mem_singleton.mp hu]
          exact hnew
    · cases hs
  · cases hs

theorem Kept.answer (h : Kept package less i t) (hs : t.answer = some s) :
    Kept package less i s ∧ s.id = t.id := by
  unfold Txn.answer at hs
  split at hs
  · cases hs
  · cases hs
    refine ⟨⟨⟨h.ledger.count, fun _ => rfl, h.ledger.posted, h.ledger.postedBound, h.ledger.used,
      h.ledger.usedBound, h.ledger.answers, h.ledger.uses⟩, ?_⟩, rfl⟩
    cases h.stage with
    | idle hi hq => exact .idle hi ⟨hq.inbox, hq.outbox, hq.found⟩
    | numbered hn hq hans hpos hposted hused =>
      exact .numbered hn ⟨hq.inbox, hq.outbox, hq.found⟩ hans hpos hposted hused
    | posted hp hin hout hfound hans hpos hposted =>
      exact .posted ⟨hp.thread, hp.unused⟩ hin hout hfound hans hpos hposted
    | calling hp hin hout hfound ha hseq hid hans =>
      exact .calling ⟨hp.thread, hp.unused⟩ hin hout hfound ha hseq hid hans
    | silent hp hq hans =>
      exact .silent ⟨hp.thread, hp.unused⟩ ⟨hq.inbox, hq.outbox, hq.found⟩ hans
    | answered hp hq hsource ha hseq hres =>
      exact .answered ⟨hp.thread, hp.unused⟩ ⟨hq.inbox, hq.outbox, hq.found⟩ hsource ha hseq hres
    | ended he hout hfound hin => exact .ended he hout hfound hin

/-- The ledger says nothing of the thread, the message and the call, and of the
state only how many attempts there were. -/
theorem Ledger.frame {state : DbTxnState} {source : Option Answer} {thread : Thread}
    {inbox : List Message} {outbox : List Answer} {found : Option Nat}
    (h : Ledger package less i t) (hattempt : state.attempt = t.state.attempt) :
    Ledger package less i { t with
      state := state, source := source, thread := thread, inbox := inbox, outbox := outbox,
      found := found } := by
  refine ⟨?_, h.session, h.posted, ?_, h.used, ?_, h.answers, h.uses⟩
  · rw [hattempt]
    exact h.count
  · rw [hattempt]
    exact h.postedBound
  · rw [hattempt]
    exact h.usedBound

/-- A message that is not answered leaves the calls as they are. -/
theorem Ledger.unanswered {session : Session} {rest : List Message} {outbox : List Answer}
    (h : Ledger package less i t) (hid : session.txnId = t.session.txnId) :
    Ledger package less i { t with
      session := session, inbox := rest, outbox := outbox, answers := t.answers ++ [] } := by
  refine ⟨h.count, ?_, h.posted, h.postedBound, h.used, h.usedBound, ?_, ?_⟩
  · intro hret
    exact hid.trans (h.session hret)
  · dsimp only
    rw [List.append_nil]
    exact h.answers
  · intro u hu
    exact (h.uses u hu).mono (fun _ ha => List.mem_append_left _ ha) fun _ hp => hp

theorem Kept.deliver {handler : Handler} (h : Kept package less i t)
    (hs : t.deliver package i handler = some s) : Kept package less i s ∧ s.id = t.id := by
  unfold Txn.deliver at hs
  split at hs
  · next m rest hret hin hout =>
    cases hs
    cases h.stage with
    | idle _ hq => cases hin.symm.trans hq.inbox
    | numbered _ hq => cases hin.symm.trans hq.inbox
    | calling _ hno => cases hin.symm.trans hno
    | silent _ hq => cases hin.symm.trans hq.inbox
    | answered _ hq => cases hin.symm.trans hq.inbox
    | posted hp hone _ hfound hans hpos hposted =>
      cases hin.symm.trans hone
      obtain ⟨htxn, hcalls⟩ := @onMessage_attempt package handler t.session ⟨_, _, _⟩ hpos
      rcases hcalls with hcalls | ⟨call, hcalls, hid, hcarries⟩
      · rw [hcalls, List.drop_length, List.map_nil]
        exact ⟨⟨h.ledger.unanswered htxn,
          .silent ⟨hp.thread, hp.unused⟩ ⟨rfl, rfl, hfound⟩ hans⟩, rfl⟩
      · rw [hcalls, List.drop_left, List.map_singleton]
        refine ⟨⟨⟨h.ledger.count, ?_, h.ledger.posted, h.ledger.postedBound, h.ledger.used,
          h.ledger.usedBound, ?_, ?_⟩, ?_⟩, rfl⟩
        · intro hret
          exact htxn.trans (h.ledger.session hret)
        · intro a ha
          rcases List.mem_append.mp ha with ha | ha
          · exact h.ledger.answers a ha
          · rw [List.mem_singleton.mp ha]
            exact ⟨rfl, hposted, hcarries⟩
        · intro u hu
          exact (h.ledger.uses u hu).mono (fun _ ha => List.mem_append_left _ ha) fun _ hp => hp
        · refine .calling ⟨hp.thread, hp.unused⟩ rfl rfl ?_
            (List.mem_append_right _ (List.mem_singleton.mpr rfl)) rfl
            (hid.trans (h.ledger.session hret)) hans
          intro j hj
          cases hfound.symm.trans hj
    | ended he _ hfound hall =>
      rw [hin] at hall
      obtain ⟨hcalls, htxn⟩ := @onMessage_ended package handler t.session m
        (hall m List.mem_cons_self)
      rw [hcalls, List.drop_length, List.map_nil]
      exact ⟨⟨h.ledger.unanswered htxn, .ended he rfl hfound
        fun m hm => hall m (List.mem_cons_of_mem _ hm)⟩, rfl⟩
  · cases hs

theorem Kept.complete {now : UInt64} {error : Int64} {payload : Bytes}
    (h : Kept package less i t) (hs : t.complete now error payload = some s) :
    Kept package less i s ∧ s.id = t.id := by
  unfold Txn.complete at hs
  split at hs
  · next ht =>
    split at hs
    · next herror =>
      cases hs
      have hq := h.stage.of_idle ht
      refine ⟨⟨h.ledger.frame rfl,
        .ended (.inl rfl) hq.outbox hq.found ?_⟩, rfl⟩
      intro m hm
      dsimp only at hm
      rw [hq.inbox] at hm
      rw [List.mem_singleton.mp hm]
      exact neg_nonpos herror
    · cases hs
  · cases hs

/-- A call in the making is for this transaction, and the only one. -/
theorem Answering.of_call {a : Answer} {rest : List Answer} (h : Answering less i t)
    (hout : t.outbox = a :: rest) : t.Parked ∧ t.inbox = [] ∧ rest = [] ∧
      (∀ j, t.found = some j → j = i) ∧ a ∈ t.answers ∧ a.message.seq = t.state.attempt ∧
      a.call.txnId = t.id ∧ t.state.answered = false := by
  cases h with
  | calling hp hin hone hfound ha hseq hid hans =>
    cases hout.symm.trans hone
    exact ⟨hp, hin, rfl, hfound, ha, hseq, hid, hans⟩
  | idle _ hq | numbered _ hq | silent _ hq | answered _ hq => cases hout.symm.trans hq.outbox
  | posted _ _ hno | ended _ hno => cases hout.symm.trans hno

/-- The call finds its own state, or none. -/
theorem Kept.found {a : Answer} {rest : List Answer} {j : Nat} (h : Kept package less i t)
    (hout : t.outbox = a :: rest) (hj : j = i) :
    Kept package less i { t with found := some j } := by
  obtain ⟨hp, hin, rfl, -, ha, hseq, hid, hans⟩ := h.stage.of_call hout
  refine ⟨h.ledger.frame rfl,
    .calling ⟨hp.thread, hp.unused⟩ hin hout ?_ ha hseq hid hans⟩
  intro k hk
  cases hk
  exact hj

theorem Kept.missed {a : Answer} {rest : List Answer} (h : Kept package less i t)
    (hout : t.outbox = a :: rest) (hfound : t.found = none) :
    Kept package less i { t with outbox := rest } := by
  obtain ⟨hp, hin, rfl, -, -, -, -, hans⟩ := h.stage.of_call hout
  exact ⟨h.ledger.frame rfl,
    .silent ⟨hp.thread, hp.unused⟩ ⟨hin, rfl, hfound⟩ hans⟩

theorem Kept.apply {a : Answer} {rest : List Answer} (h : Kept package less i t)
    (hout : t.outbox = a :: rest) :
    Kept package less i (Txn.apply { t with outbox := rest, found := none } a) := by
  obtain ⟨hp, hin, rfl, -, ha, hseq, -, -⟩ := h.stage.of_call hout
  exact ⟨h.ledger.frame rfl,
    .answered ⟨hp.thread, hp.unused⟩ ⟨hin, rfl, rfl⟩ rfl ha hseq (decide_apply less _ _)⟩

theorem Kept.erase (h : Kept package less i t) (ht : t.thread = .completed) :
    Kept package less i { t with thread := .erased } := by
  refine ⟨h.ledger.frame rfl, ?_⟩
  cases h.stage with
  | ended _ hout hfound hin => exact .ended (.inr rfl) hout hfound hin
  | idle hno | numbered hno => cases ht.symm.trans hno
  | posted hp | calling hp | silent hp | answered hp => cases ht.symm.trans hp.thread

end Transaction

section World

variable (package : CborPackage) (less : Firebase.Less)

/-- Every id is that of one transaction, and an entry leads to it. -/
structure Inv (w : World) : Prop where
  entry : ∀ {k i}, w.table.lookup k = some i → ∃ t, w.txns[i]? = some t ∧ t.id = k
  distinct : ∀ {i j : Nat} {t s : Txn}, w.txns[i]? = some t → w.txns[j]? = some s → t.id = s.id →
    i = j
  below : ∀ {i : Nat} {t : Txn}, w.txns[i]? = some t → t.id < w.next
  kept : ∀ {i : Nat} {t : Txn}, w.txns[i]? = some t → Kept package less i t

/-- A step that changes one transaction, keeps its id, and makes no entry. -/
structure Moved (w u : World) (i : Nat) (t s : Txn) : Prop where
  old : w.txns[i]? = some t
  new : ∀ j : Nat, u.txns[j]? = if j = i then some s else w.txns[j]?
  id : s.id = t.id
  next : u.next = w.next
  table : ∀ k j, u.table.lookup k = some j → w.table.lookup k = some j

variable {package less} {w u : World} {i : Nat} {t s : Txn}

theorem Moved.back (h : Moved w u i t s) {j : Nat} {r : Txn} (hr : u.txns[j]? = some r) :
    ∃ q, w.txns[j]? = some q ∧ r.id = q.id ∧ (j = i ∧ r = s ∨ r = q) := by
  rw [h.new] at hr
  split at hr
  · next hj =>
    cases hr
    subst hj
    exact ⟨t, h.old, h.id, .inl ⟨rfl, rfl⟩⟩
  · exact ⟨r, hr, rfl, .inr rfl⟩

theorem Inv.moved (hi : Inv package less w) (h : Moved w u i t s) (hs : Kept package less i s) :
    Inv package less u := by
  refine ⟨?_, ?_, ?_, ?_⟩
  · intro k j hk
    obtain ⟨q, hq, hid⟩ := hi.entry (h.table k j hk)
    by_cases hj : j = i
    · subst hj
      cases h.old.symm.trans hq
      exact ⟨s, by rw [h.new, if_pos rfl], h.id.trans hid⟩
    · exact ⟨q, by rw [h.new, if_neg hj]; exact hq, hid⟩
  · intro j l r q hr hq hid
    obtain ⟨r', hr', hrid, -⟩ := h.back hr
    obtain ⟨q', hq', hqid, -⟩ := h.back hq
    rw [hrid, hqid] at hid
    exact hi.distinct hr' hq' hid
  · intro j r hr
    obtain ⟨q, hq, hid, -⟩ := h.back hr
    rw [hid, h.next]
    exact hi.below hq
  · intro j r hr
    obtain ⟨q, hq, -, hcase⟩ := h.back hr
    rcases hcase with ⟨rfl, rfl⟩ | rfl
    · exact hs
    · exact hi.kept hq

theorem getElem?_set_of (ht : w.txns[i]? = some t) (j : Nat) :
    (w.txns.set i s)[j]? = if j = i then some s else w.txns[j]? := by
  rw [List.getElem?_set]
  by_cases hj : j = i
  · subst hj
    simp [(List.getElem?_eq_some_iff.mp ht).1]
  · rw [if_neg fun h => hj h.symm, if_neg hj]

/-- A step inside of one transaction. -/
theorem Inv.at {f : Txn → Option Txn} (hi : Inv package less w) (h : w.at i f = some u)
    (hf : ∀ {t s}, w.txns[i]? = some t → Kept package less i t → f t = some s →
      Kept package less i s ∧ s.id = t.id) : Inv package less u := by
  unfold World.at at h
  split at h
  · next t ht =>
    obtain ⟨s, hs, rfl⟩ := Option.map_eq_some_iff.mp h
    obtain ⟨hkept, hid⟩ := hf ht (hi.kept ht) hs
    exact hi.moved ⟨ht, getElem?_set_of ht, hid, rfl, fun _ _ hk => hk⟩ hkept
  · cases h

/-- The entry of an id leads to the transaction that has it. -/
theorem Inv.routed (hi : Inv package less w) (ht : w.txns[i]? = some t) {j : Nat}
    (hj : w.table.lookup t.id = some j) : j = i := by
  obtain ⟨s, hs, hid⟩ := hi.entry hj
  exact hi.distinct hs ht hid

theorem Inv.register (hi : Inv package less w) (hmax : w.next ≠ Int64.maxValue) :
    Inv package less {
      table := emplace w.table w.next w.txns.length
      next := w.next + 1
      txns := w.txns ++ [.start w.next] } := by
  have hold : ∀ {j : Nat} {r : Txn}, w.txns[j]? = some r →
      (w.txns ++ [Txn.start w.next])[j]? = some r := by
    intro j r hr
    rw [List.getElem?_append_left (List.getElem?_eq_some_iff.mp hr).1]
    exact hr
  have hback : ∀ {j : Nat} {r : Txn}, (w.txns ++ [Txn.start w.next])[j]? = some r →
      w.txns[j]? = some r ∨ j = w.txns.length ∧ r = .start w.next := by
    intro j r hr
    rcases Nat.lt_trichotomy j w.txns.length with hlt | heq | hgt
    · rw [List.getElem?_append_left hlt] at hr
      exact .inl hr
    · rw [heq, List.getElem?_concat_length] at hr
      cases hr
      exact .inr ⟨heq, rfl⟩
    · rw [List.getElem?_eq_none (by simp; omega)] at hr
      cases hr
  have hfresh : ∀ {j : Nat} {r : Txn}, w.txns[j]? = some r → r.id ≠ w.next := by
    intro j r hr hid
    have hlt := hi.below hr
    rw [hid] at hlt
    exact Int64.lt_irrefl hlt
  refine ⟨?_, ?_, ?_, ?_⟩
  · intro k j hk
    have hnone : w.table.lookup w.next = none := by
      apply Option.eq_none_iff_forall_ne_some.mpr
      intro l hl
      obtain ⟨r, hr, hid⟩ := hi.entry hl
      exact hfresh hr hid
    dsimp only at hk
    rw [lookup_emplace hnone] at hk
    split at hk
    · next hkey =>
      cases hk
      exact ⟨.start w.next, List.getElem?_concat_length, hkey.symm⟩
    · obtain ⟨r, hr, hid⟩ := hi.entry hk
      exact ⟨r, hold hr, hid⟩
  · intro j l r q hr hq hid
    rcases hback hr with hr | ⟨rfl, rfl⟩
    · rcases hback hq with hq | ⟨rfl, rfl⟩
      · exact hi.distinct hr hq hid
      · exact absurd hid (hfresh hr)
    · rcases hback hq with hq | ⟨rfl, rfl⟩
      · exact absurd hid.symm (hfresh hq)
      · rfl
  · intro j r hr
    rcases hback hr with hr | ⟨rfl, rfl⟩
    · exact Int64.lt_trans (hi.below hr) (lt_succ hmax)
    · exact lt_succ hmax
  · intro j r hr
    rcases hback hr with hr | ⟨rfl, rfl⟩
    · exact hi.kept hr
    · exact kept_start w.next

theorem Inv.lock (hi : Inv package less w) {a : Answer} {rest : List Answer} {j : Nat}
    (ht : w.txns[i]? = some t) (hout : t.outbox = a :: rest) (hfound : t.found = some j) :
    Inv package less { w with
      txns := (w.txns.set i { t with outbox := rest, found := none }).modify j
        fun u => u.apply a } := by
  have hkept := hi.kept ht
  obtain ⟨-, -, -, hown, -⟩ := hkept.stage.of_call hout
  obtain rfl := hown j hfound
  refine Inv.moved hi (s := Txn.apply { t with outbox := rest, found := none } a)
    ⟨ht, ?_, rfl, rfl, fun _ _ hk => hk⟩ (hkept.apply hout)
  intro l
  dsimp only
  rw [List.getElem?_modify, getElem?_set_of ht]
  by_cases hl : l = j
  · subst hl
    simp
  · have hne : j ≠ l := fun h => hl h.symm
    simp [hl, hne]

theorem step_inv {a : WorldAction} (hi : Inv package less w)
    (h : w.step package less a = some u) : Inv package less u := by
  cases a with
  | register =>
    simp only [World.step] at h
    split at h
    · cases h
    · next hmax =>
      cases h
      exact hi.register hmax
  | answer i => exact hi.at h fun _ hk hs => hk.answer hs
  | attempt i data => exact hi.at h fun _ hk hs => hk.attempt hs
  | post i now => exact hi.at h fun _ hk hs => hk.post hs
  | wake i => exact hi.at h fun _ hk hs => hk.wake hs
  | deliver i handler => exact hi.at h fun _ hk hs => hk.deliver hs
  | complete i now error payload => exact hi.at h fun _ hk hs => hk.complete hs
  | find i =>
    apply hi.at h
    intro t s ht hk hs
    split at hs
    · next a rest hout hfound =>
      split at hs
      · next j hj =>
        cases hs
        obtain ⟨-, -, -, -, -, -, hid, -⟩ := hk.stage.of_call hout
        rw [hid] at hj
        exact ⟨hk.found hout (hi.routed ht hj), rfl⟩
      · cases hs
        exact ⟨hk.missed hout hfound, rfl⟩
    · cases hs
  | lock i =>
    simp only [World.step] at h
    split at h
    · next t ht =>
      split at h
      · next hout hfound =>
        cases h
        exact hi.lock ht hout hfound
      · cases h
    · cases h
  | erase i =>
    simp only [World.step] at h
    split at h
    · next t ht =>
      split at h
      · next hthread =>
        cases h
        refine hi.moved ⟨ht, getElem?_set_of ht, rfl, rfl, ?_⟩ ((hi.kept ht).erase hthread)
        intro k j hk
        dsimp only at hk
        rw [lookup_erase] at hk
        split at hk
        · cases hk
        · exact hk
      · cases h
    · cases h

theorem inv_start : Inv package less .start := by
  refine ⟨?_, ?_, ?_, ?_⟩
  · intro k i h
    cases h
  · intro i j t s h
    cases h
  · intro i t h
    cases h
  · intro i t h
    cases h

theorem Inv.attributed (hi : Inv package less w) : Attributed package less w := by
  refine ⟨?_, ?_, ?_⟩
  · intro i t u ht hu
    exact (hi.kept ht).ledger.uses u hu
  · intro i t ht
    exact ⟨(hi.kept ht).ledger.posted, (hi.kept ht).ledger.used⟩
  · intro i j k l t s u v a ht hs hu hv hua hva
    obtain ⟨b, -, hb, hbi, hbseq, -⟩ := (hi.kept ht).ledger.uses u (List.mem_of_getElem? hu)
    obtain ⟨c, -, hc, hci, hcseq, -⟩ := (hi.kept hs).ledger.uses v (List.mem_of_getElem? hv)
    cases hua.symm.trans hb
    cases hva.symm.trans hc
    obtain rfl := hbi.symm.trans hci
    cases ht.symm.trans hs
    refine ⟨rfl, ?_⟩
    have hattempt : u.attempt = v.attempt := hbseq.symm.trans hcseq
    have hused := (hi.kept ht).ledger.used
    have hnodup : (t.uses.map Use.attempt).Nodup := by
      apply hused.imp
      intro m n hlt heq
      rw [heq] at hlt
      exact Int64.lt_irrefl hlt
    have hk : (t.uses.map Use.attempt)[k]? = some u.attempt := by
      rw [List.getElem?_map, hu, Option.map_some]
    have hl : (t.uses.map Use.attempt)[l]? = some u.attempt := by
      rw [List.getElem?_map, hv, Option.map_some, hattempt]
    exact (List.getElem?_inj (List.getElem?_eq_some_iff.mp hk).1 hnodup).mp (hk.trans hl.symm)

end World

/-- In every interleaving the update function takes, in each attempt, what the
handler decided for the value posted in that attempt. -/
theorem attempts_attributed (package : CborPackage) (less : Firebase.Less) (w : World)
    (h : Run (World.step package less) (fun _ _ => True) .start w) :
    Attributed package less w := by
  apply Inv.attributed
  apply h.invariant inv_start
  intro t a u hi _ hstep
  exact step_inv hi hstep

/-- A handler that counts up. -/
def counted : Handler
  | .int i => .ok (.commit (.int (i + 1)))
  | _ => .ok .abort

/-- Two transactions whose attempts cross, as far as both have been answered. -/
def crossing : List WorldAction :=
  [.register, .register, .answer 1, .attempt 0 (.int64 5), .attempt 1 .null, .post 1 0,
    .deliver 1 counted, .answer 0, .post 0 0, .deliver 0 counted]

/-- One transaction counts from 5. -/
def committing : Answer := ⟨0, ⟨0, 1, [5]⟩, counted, ⟨1, [6], false⟩⟩

/-- The other has nothing to count. -/
def aborting : Answer := ⟨1, ⟨0, 1, [0xf6]⟩, counted, ⟨2, [], true⟩⟩

def crossed : World where
  table := [(1, 0), (2, 1)]
  next := 3
  txns := [
    { Txn.start 1 with
      returned := true
      state := DbTxnState.start.park
      thread := .waiting 1
      session := ⟨1, false, true, [committing.call], []⟩
      outbox := [committing]
      posted := [(1, [5])]
      answers := [committing] },
    { Txn.start 2 with
      returned := true
      state := DbTxnState.start.park
      thread := .waiting 1
      session := ⟨2, true, true, [aborting.call], []⟩
      outbox := [aborting]
      posted := [(1, [0xf6])]
      answers := [aborting] }]

def World.results (w : World) (i : Nat) : Option (List TransactionResult) :=
  w.txns[i]?.map fun t => t.uses.map Use.result

theorem crossing_attributed :
    exec (World.step bytePackage fun _ _ => false) .start crossing = some crossed ∧
      ∃ w, exec (World.step bytePackage fun _ _ => false) crossed
          [.find 1, .find 0, .lock 0, .lock 1, .wake 1, .wake 0] = some w ∧
        w.results 0 = some [.success (.int64 6)] ∧ w.results 1 = some [.abort] ∧
        Attributed bytePackage (fun _ _ => false) w := by
  have hcrossed : exec (World.step bytePackage fun _ _ => false) .start crossing = some crossed :=
    rfl
  have hexec : exec (World.step bytePackage fun _ _ => false) crossed
      [.find 1, .find 0, .lock 0, .lock 1, .wake 1, .wake 0] = some _ := rfl
  exact ⟨hcrossed, _, hexec, rfl, rfl, attempts_attributed bytePackage _ _
    ((Run.of_exec hcrossed (.unguarded _)).trans (Run.of_exec hexec (.unguarded _)))⟩

end Database
