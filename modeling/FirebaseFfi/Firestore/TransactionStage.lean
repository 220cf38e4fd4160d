import FirebaseFfi.Firestore.Transaction

namespace Firestore
open Cbor Dart Machine

/-- A buffer as PostDocument sends it to the receive port. -/
structure Message where
  now : UInt64
  seq : Int64
  payload : Bytes

def Message.bytes (m : Message) : Bytes := fdbPostBuffer m.now m.seq m.payload

/-- A call from Dart, which finds the state and locks it before it returns. -/
def Native.request (s : Native) (c : TxnCall) : Native :=
  if s.registered then { s with state := s.state.accept c } else s

/-- A transaction with both its sides. `inbox` holds the messages that are
posted and not handled, `outbox` the calls that Dart is about to make, `commits`
what the SDK has committed, with its attempt, and `runs` the handler's runs. -/
structure World where
  native : Native
  session : Session
  inbox : List Message
  outbox : List TxnCall
  commits : List (Nat × Bytes)
  runs : List HandlerRun

def World.start (txnId : Int64) : World := ⟨.start, .start txnId, [], [], [], []⟩

/-- A step of the update function by itself. -/
inductive LambdaAction
  | wake
  | answer
  | relock
  | apply (r : Applied)

def LambdaAction.action : LambdaAction → Action
  | .wake => .wake
  | .answer => .answer
  | .relock => .relock
  | .apply r => .apply r

/-- A step of the SDK (an attempt, a commit that succeeds, or the end without
one), of the update function, or of Dart (a message that is handled, a call). An
attempt may follow any return, as that of `ok` is when the commit fails. -/
inductive WorldAction
  | run (now : UInt64)
  | commit (now : UInt64)
  | fail (now : UInt64) (error : Bytes)
  | lambda (a : LambdaAction)
  | deliver (run : HandlerRun)
  | issue

section Step

variable (package : CborPackage) (document : Bytes → Bool) (limit : UInt32)

/-- Dart handles a message. The run counts when the message is an attempt. -/
def World.handle (w : World) (m : Message) (rest : List Message) (run : HandlerRun) : World :=
  let session := (onMessage package run w.session m.bytes).1
  { w with
    session := session
    inbox := rest
    outbox := session.calls.drop w.session.calls.length
    runs := if 0 < m.seq then w.runs ++ [run] else w.runs }

def World.step (w : World) : WorldAction → Option World
  | .run now =>
    if w.native.state.attempt < limit.toNat then
      (Firestore.step document w.native .run).map fun r =>
        { w with
          native := r.1
          inbox := w.inbox ++ [⟨now, Int64.ofNat r.1.state.attempt, []⟩] }
    else none
  | .commit now =>
    match w.native.lambda with
    | .returned (.ok writes) =>
      (Firestore.step document w.native .finish).map fun r =>
        { w with
          native := r.1
          inbox := w.inbox ++ [⟨now, 0, []⟩]
          commits := w.commits ++ [(w.native.state.attempt, writes)] }
    | _ => none
  | .fail now error =>
    (Firestore.step document w.native .finish).map fun r =>
      { w with native := r.1, inbox := w.inbox ++ [⟨now, -1, error⟩] }
  | .lambda a => (Firestore.step document w.native a.action).map fun r => { w with native := r.1 }
  | .deliver run =>
    match w.inbox, w.outbox with
    | m :: rest, [] => some (w.handle package m rest run)
    | _, _ => none
  | .issue =>
    match w.outbox with
    | c :: cs => some { w with native := w.native.request c, outbox := cs }
    | [] => none

end Step

/-- The writes are those the handler recorded in its run of that attempt. -/
def Recorded (package : CborPackage) (runs : List HandlerRun) (commit : Nat × Bytes) : Prop :=
  ∃ k run, commit.1 = k + 1 ∧ runs[k]? = some run ∧ run.thrown = none ∧
    encodeWrites package run.recorded = .ok commit.2

/-- The future is completed at most once, with success only after a commit. Each
commit is what the handler recorded in the same attempt, and there is none when
the future has the handler's error. -/
structure Outcome (package : CborPackage) (w : World) : Prop where
  once : w.session.completions.length ≤ 1
  success : .done ∈ w.session.completions → w.commits ≠ []
  exact : ∀ c ∈ w.commits, Recorded package w.runs c
  error : ∀ e, .error e ∈ w.session.completions → w.commits = []

/-- A handler that has thrown throws again in every later attempt. -/
def KeepsThrowing (w : World) : WorldAction → Prop
  | .deliver run => ∀ m rest, w.inbox = m :: rest → 0 < m.seq →
      (∃ r ∈ w.runs, r.thrown ≠ none) → run.thrown ≠ none
  | _ => True

section Native

variable {document : Bytes → Bool} {s t : Native}

/-- What the update function can do by itself. -/
inductive LambdaStep (s t : Native) : Prop
  | serves : s.lambda.open → t = (serve s).1 → LambdaStep s t
  | answers {path reply} : s.lambda = .reading path reply → t = { s with lambda := .answered } →
      LambdaStep s t
  | returns {writes r} : s.lambda = .applying writes → r = .ok writes ∨ r = .invalidArgument →
      t = { s with lambda := .returned r } → LambdaStep s t
  | throws : s.lambda ≠ .waiting → s.lambda.stopped = false → t = { s with lambda := .threw } → LambdaStep s t

theorem lambda_step {a : LambdaAction} {events : List Event}
    (h : step document s a.action = some (t, events)) : LambdaStep s t := by
  cases a with
  | wake =>
    simp only [LambdaAction.action, step] at h
    split at h
    · next hl =>
      split at h
      · cases h
      · exact .serves (by rw [hl]; rfl) (by rw [Option.some.inj h])
    · cases h
  | answer =>
    simp only [LambdaAction.action, step] at h
    split at h
    · next hl =>
      split at h
      · cases h
        exact .answers hl rfl
      · cases h
        exact .throws (by rw [hl]; rintro ⟨⟩) (by rw [hl]; rfl) rfl
    · cases h
  | relock =>
    simp only [LambdaAction.action, step] at h
    split at h
    · next hl => exact .serves (by rw [hl]; rfl) (by rw [Option.some.inj h])
    · cases h
  | apply r =>
    simp only [LambdaAction.action, step] at h
    split at h
    · next hl =>
      cases h
      exact .returns hl (.inl rfl) rfl
    · next hl =>
      cases h
      exact .returns hl (.inr rfl) rfl
    · next hl =>
      cases h
      exact .throws (by rw [hl]; rintro ⟨⟩) (by rw [hl]; rfl) rfl
    · cases h

theorem serve_none (h : s.state.req = .none) :
    serve s = ({ s with lambda := .waiting }, []) := by
  rw [serve, h]

/-- The wait goes on, or a read begins. -/
theorem serve_read (h : s.state.req = .none ∨ s.state.req = .get) :
    (serve s).1.lambda.open ∧ (serve s).1.state.req = .none := by
  rcases h with h | h
  · simp only [serve, h]
    exact ⟨rfl, trivial⟩
  · simp only [serve, h]
    exact ⟨rfl, trivial⟩

theorem serve_attempt (s : Native) : (serve s).1.state.attempt = s.state.attempt := by
  unfold serve
  split <;> rfl

end Native

section Run

variable (package : CborPackage)

/-- The writes are those of the last run of the handler. -/
def LastWrote (w : World) (writes : Bytes) : Prop :=
  ∃ run, w.runs.getLast? = some run ∧ run.thrown = none ∧
    encodeWrites package run.recorded = .ok writes

/-- Where a transaction is: between attempts, with an attempt posted, with its
handler's calls still to be made (of which at most the last ends the attempt),
with the last call in the slot, with its writes being applied, or finished. -/
inductive Stage (w : World) : Prop
  | between : w.native.registered = true → w.native.lambda.stopped → w.native.state.req = .none →
      w.inbox = [] → w.outbox = [] → w.runs.length = w.native.state.attempt →
      (∀ writes, w.native.lambda = .returned (.ok writes) → LastWrote package w writes) → Stage w
  | posted : w.native.registered = true → w.native.lambda = .waiting →
      w.native.state.req = .none →
      (∃ now, w.inbox = [⟨now, Int64.ofNat w.native.state.attempt, []⟩]) → w.outbox = [] → w.runs.length + 1 = w.native.state.attempt →
      w.native.state.attempt < 2 ^ 32 → Stage w
  | handled {run gets ends} : w.native.registered = true → w.native.lambda.open →
      w.native.state.req = .none ∨ w.native.state.req = .get → w.inbox = [] →
      w.outbox = gets ++ ends → gets.filter TxnCall.ends = [] →
      ends = [] ∨ ends = [run.answer package w.session.txnId] →
      w.runs.length = w.native.state.attempt → w.runs.getLast? = some run → Stage w
  | answered {run : HandlerRun} : w.native.registered = true → w.native.lambda.open →
      (∃ before : TxnState, w.native.state = before.accept (run.answer package w.session.txnId)) →
      w.inbox = [] → w.outbox = [] → w.runs.length = w.native.state.attempt →
      w.runs.getLast? = some run → Stage w
  | applying {writes} : w.native.registered = true → w.native.lambda = .applying writes →
      w.native.state.req = .none → w.inbox = [] → w.outbox = [] →
      w.runs.length = w.native.state.attempt → LastWrote package w writes → Stage w
  | threw : w.native.lambda = .threw → w.inbox = [] → Stage w
  | finished : w.native.registered = false → w.native.lambda.stopped → w.outbox = [] →
      (∀ m ∈ w.inbox, m.seq = -1 ∨ m.seq = 0 ∧ w.commits ≠ []) → Stage w

/-- The update function takes a commit or an abort that was asked for, -/
theorem Stage.serves {w : World} (h : Stage package w) (hopen : w.native.lambda.open) :
    Stage package { w with native := (serve w.native).1 } := by
  cases h with
  | between _ hstop =>
    rw [Lambda.stopped_not_open hstop] at hopen
    cases hopen
  | posted hreg hl hreq hin hout hruns hlt =>
    rw [serve_none hreq]
    exact .posted hreg rfl hreq hin hout hruns hlt
  | handled hreg _ hreq hin hout hgets hends hruns hlast =>
    obtain ⟨hopen', hreq'⟩ := serve_read hreq
    refine .handled ?_ hopen' (.inl hreq') hin hout hgets hends ?_ hlast
    · exact (serve_registered _).trans hreg
    · exact hruns.trans (serve_attempt _).symm
  | @answered run hreg _ hstate hin hout hruns hlast =>
    obtain ⟨before, hstate⟩ := hstate
    rcases answer_cases package run w.session.txnId with habort | ⟨writes, hcommit, hthrown, hok⟩
    · have hreq : w.native.state.req = .abort := by rw [hstate, habort]; rfl
      have hserve : (serve w.native).1 = { w.native with
          lambda := .returned .cancelled, state := { w.native.state with req := .none } } := by
        simp only [serve, hreq]
      rw [hserve]
      exact .between hreg rfl rfl hin hout hruns (by rintro _ ⟨⟩)
    · have hreq : w.native.state.req = .commit := by rw [hstate, hcommit]; rfl
      have hwrites : w.native.state.writes = writes := by rw [hstate, hcommit]; rfl
      have hserve : (serve w.native).1 = { w.native with
          lambda := .applying writes,
          state := { w.native.state with writes := [], req := .none } } := by
        simp only [serve, hreq, hwrites]
      rw [hserve]
      exact .applying hreg rfl rfl hin hout hruns ⟨run, hlast, hthrown, hok⟩
  | applying _ hl =>
    rw [hl] at hopen
    cases hopen
  | threw hl =>
    rw [hl] at hopen
    cases hopen
  | finished _ hstop =>
    rw [Lambda.stopped_not_open hstop] at hopen
    cases hopen

theorem Stage.answers {w : World} {path : Bytes} {reply : Int64} (h : Stage package w)
    (hl : w.native.lambda = .reading path reply) :
    Stage package { w with native := { w.native with lambda := .answered } } := by
  cases h with
  | between _ hstop =>
    rw [hl] at hstop
    cases hstop
  | posted _ hl' =>
    rw [hl] at hl'
    cases hl'
  | handled hreg _ hreq hin hout hgets hends hruns hlast =>
    exact .handled hreg rfl hreq hin hout hgets hends hruns hlast
  | answered hreg _ hstate hin hout hruns hlast =>
    exact .answered hreg rfl hstate hin hout hruns hlast
  | applying _ hl' =>
    rw [hl] at hl'
    cases hl'
  | threw hl' =>
    rw [hl] at hl'
    cases hl'
  | finished _ hstop =>
    rw [hl] at hstop
    cases hstop

/-- While writes are being applied nothing is under way but them. -/
theorem Stage.while_applying {w : World} {writes : Bytes} (h : Stage package w)
    (hl : w.native.lambda = .applying writes) :
    w.native.registered = true ∧ w.native.state.req = .none ∧ w.inbox = [] ∧ w.outbox = [] ∧
      w.runs.length = w.native.state.attempt ∧ LastWrote package w writes := by
  cases h with
  | between _ hstop =>
    rw [hl] at hstop
    cases hstop
  | posted _ hl' =>
    rw [hl] at hl'
    cases hl'
  | handled _ hopen =>
    rw [hl] at hopen
    cases hopen
  | answered _ hopen =>
    rw [hl] at hopen
    cases hopen
  | applying hreg hl' hreq hin hout hruns hwrote =>
    rw [hl] at hl'
    cases hl'
    exact ⟨hreg, hreq, hin, hout, hruns, hwrote⟩
  | threw hl' =>
    rw [hl] at hl'
    cases hl'
  | finished _ hstop =>
    rw [hl] at hstop
    cases hstop

theorem Stage.returns {w : World} {writes : Bytes} {r : TxnResult} (h : Stage package w)
    (hl : w.native.lambda = .applying writes) (hr : r = .ok writes ∨ r = .invalidArgument) :
    Stage package { w with native := { w.native with lambda := .returned r } } := by
  obtain ⟨hreg, hreq, hin, hout, hruns, hwrote⟩ := h.while_applying package hl
  refine .between hreg rfl hreq hin hout hruns fun writes hreturned => ?_
  rcases hr with rfl | rfl
  · cases hreturned
    exact hwrote
  · cases hreturned

theorem Stage.throws {w : World} (h : Stage package w) (hl : w.native.lambda ≠ .waiting)
    (hstopped : w.native.lambda.stopped = false) :
    Stage package { w with native := { w.native with lambda := .threw } } := by
  cases h with
  | between _ hstop =>
    rw [hstopped] at hstop
    cases hstop
  | posted _ hl' => exact absurd hl' hl
  | handled _ _ _ hin => exact .threw rfl hin
  | answered _ _ _ hin => exact .threw rfl hin
  | applying _ _ _ hin => exact .threw rfl hin
  | threw _ hin => exact .threw rfl hin
  | finished _ hstop =>
    rw [hstopped] at hstop
    cases hstop

/-- and only then stops. -/
theorem Stage.lambda {w : World} (h : Stage package w) {t : Native}
    (hstep : LambdaStep w.native t) : Stage package { w with native := t } := by
  cases hstep with
  | serves hopen ht =>
    subst ht
    exact h.serves package hopen
  | answers hl ht =>
    subst ht
    exact h.answers package hl
  | returns hl hr ht =>
    subst ht
    exact h.returns package hl hr
  | throws hl hstopped ht =>
    subst ht
    exact h.throws package hl hstopped

/-- The SDK moves on only between attempts. -/
theorem Stage.stopped {w : World} (h : Stage package w) (hreg : w.native.registered = true)
    (hstop : w.native.lambda.stopped = true) :
    w.native.state.req = .none ∧ w.inbox = [] ∧ w.outbox = [] ∧
      w.runs.length = w.native.state.attempt ∧
      ∀ writes, w.native.lambda = .returned (.ok writes) → LastWrote package w writes := by
  have hclosed := Lambda.stopped_not_open hstop
  cases h with
  | between _ _ hreq hin hout hruns hok => exact ⟨hreq, hin, hout, hruns, hok⟩
  | posted _ hl =>
    rw [hl] at hstop
    cases hstop
  | handled _ hopen =>
    rw [hclosed] at hopen
    cases hopen
  | answered _ hopen =>
    rw [hclosed] at hopen
    cases hopen
  | applying _ hl =>
    rw [hl] at hstop
    cases hstop
  | threw hl =>
    rw [hl] at hstop
    cases hstop
  | finished hfinished =>
    rw [hreg] at hfinished
    cases hfinished

/-- The writes are those of the last run of the handler, in its attempt. -/
theorem LastWrote.recorded {w : World} {writes : Bytes} (h : LastWrote package w writes)
    (hruns : w.runs.length = w.native.state.attempt) :
    Recorded package w.runs (w.native.state.attempt, writes) := by
  obtain ⟨run, hlast, hthrown, hencoded⟩ := h
  have hne : w.runs ≠ [] := by
    intro hnil
    rw [hnil] at hlast
    cases hlast
  have hpos := List.length_pos_iff.mpr hne
  refine ⟨w.runs.length - 1, run, ?_, ?_, hthrown, hencoded⟩
  · show w.native.state.attempt = _
    omega
  · rw [← hlast, List.getLast?_eq_getElem?]

end Run

end Firestore
