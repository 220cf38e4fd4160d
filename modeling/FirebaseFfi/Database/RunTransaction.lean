import FirebaseFfi.Database.Transaction
import FirebaseFfi.Firebase.VariantObject
import FirebaseFfi.Machine.Run

namespace Database
open Cbor Dart

/-- The plugin's Transaction, which a transaction handler answers with. -/
structure Transaction where
  aborted : Bool
  value : Object

/-- The behaviour of a plugin's transaction handler, given the current value. -/
abbrev TransactionHandler := Object → Except Thrown Transaction

/-- The handler that FfiDatabaseReference.runTransaction passes on. -/
def wrapped (handler : TransactionHandler) : Handler := fun current =>
  match handler current with
  | .error e => .error e
  | .ok result => .ok (if result.aborted then .abort else .commit result.value)

/-- An attempt as it arrives, with what the plugin's handler does in it. -/
structure FfiAttempt where
  seq : Int64
  now : UInt64
  payload : Bytes
  handler : TransactionHandler
  positive : 0 < seq

def FfiAttempt.attempt (a : FfiAttempt) : Attempt :=
  ⟨a.seq, a.now, a.payload, wrapped a.handler, a.positive⟩

section Attempts

variable (package : CborPackage)

/-- The handler is run, and it aborts: this sets the `aborted` of runTransaction.
A throw does not. -/
def FfiAttempt.aborts (a : FfiAttempt) : Bool :=
  match decodeSnapshotValue package a.attempt.bytes >>= a.handler with
  | .ok result => result.aborted
  | .error _ => false

/-- The attempt ends in an abort, whatever made it one. -/
def FfiAttempt.givesUp (a : FfiAttempt) : Bool := (a.attempt.decision package).isAbort

/-- runTransaction over runDbTransaction. It is stuck when processing an attempt
has thrown: the SDK's thread is parked for good. -/
structure FfiSession where
  session : Session
  aborted : Bool
  stuck : Bool

def FfiSession.start (txnId : Int64) : FfiSession := ⟨.start txnId, false, false⟩

def FfiSession.attempt (s : FfiSession) (a : FfiAttempt) : FfiSession :=
  if s.stuck then s
  else
    let r := a.attempt.process package s.session
    ⟨r.1, s.aborted || (s.session.listening && a.aborts package), r.2.isSome⟩

/-- What the SDK's future comes to. -/
inductive SdkOutcome
  | committed (value : Option Firebase.Variant)
  | failed (code : Int64) (message : Bytes) (positive : 0 < code)

def SdkOutcome.bytes (now : UInt64) : SdkOutcome → Bytes
  | .committed value => fdbPostBuffer now 0 ((value.bind Firebase.serializeVariant).getD [])
  | .failed code message _ => fdbPostBuffer now (-code) message

structure FfiTransactionResult where
  committed : Bool
  snapshot : Object

/-- The transaction from its start to its end. There is no result when the future
is not completed, or with an exception. -/
def runTransaction (txnId : Int64) (attempts : List FfiAttempt) (now : UInt64)
    (outcome : SdkOutcome) : Option FfiTransactionResult :=
  let s := attempts.foldl (FfiSession.attempt package) (.start txnId)
  if s.stuck then none
  else
    -- The handler is not run on this message.
    match (onMessage package (fun _ => .error .other) s.session (outcome.bytes now)).1.completions with
    | [.value v] => some ⟨!s.aborted, v⟩
    | _ => none

end Attempts

section Flags

variable {package : CborPackage} {s : FfiSession}

/-- The future is pending, and messages are handled. -/
structure FfiSession.Open (s : FfiSession) : Prop where
  listening : s.session.listening = true
  completions : s.session.completions = []

theorem process_fields {s : Session} (hs : s.listening = true) (a : Attempt) :
    (a.process package s).1.completions = s.completions ∧
      (a.process package s).1.aborted = (s.aborted || (a.decision package).isAbort) := by
  rw [process_attempt package hs, onAttempt, Attempt.decision]
  cases h : (decideAttempt package a.handler a.bytes).isAbort with
  | true =>
    split <;> simp
  | false =>
    split <;> simp

theorem stuck_stays (hs : s.stuck = true) (attempts : List FfiAttempt) :
    attempts.foldl (FfiSession.attempt package) s = s := by
  induction attempts with
  | nil => rfl
  | cons a as ih => rw [List.foldl_cons, FfiSession.attempt, if_pos hs, ih]

/-- The flags after the attempts, as long as each of them was answered. -/
theorem attempts_flags (hopen : s.Open) (attempts : List FfiAttempt)
    (hs : (attempts.foldl (FfiSession.attempt package) s).stuck = false) :
    (attempts.foldl (FfiSession.attempt package) s).Open ∧
      (attempts.foldl (FfiSession.attempt package) s).session.aborted =
        (s.session.aborted || attempts.any (FfiAttempt.givesUp package)) ∧
      (attempts.foldl (FfiSession.attempt package) s).aborted =
        (s.aborted || attempts.any (FfiAttempt.aborts package)) := by
  induction attempts generalizing s with
  | nil => simpa using hopen
  | cons a as ih =>
    rw [List.foldl_cons] at hs ⊢
    cases hstuck : s.stuck with
    | true =>
      rw [FfiSession.attempt, if_pos hstuck, stuck_stays hstuck, hstuck] at hs
      cases hs
    | false =>
      have hnext : s.attempt package a = ⟨(a.attempt.process package s.session).1,
          s.aborted || a.aborts package, (a.attempt.process package s.session).2.isSome⟩ := by
        rw [FfiSession.attempt, hstuck, hopen.listening, Bool.true_and]
        rfl
      obtain ⟨hcompletions, haborted⟩ := @process_fields package _ hopen.listening a.attempt
      have hopen' : (s.attempt package a).Open := by
        rw [hnext]
        exact ⟨process_listening package hopen.listening a.attempt,
          hcompletions.trans hopen.completions⟩
      obtain ⟨hlast, hgive, habort⟩ := ih hopen' hs
      refine ⟨hlast, ?_, ?_⟩
      · rw [hgive, hnext, haborted, List.any_cons, FfiAttempt.givesUp, Bool.or_assoc]
      · rw [habort, hnext, List.any_cons, Bool.or_assoc]

theorem open_start (txnId : Int64) : (FfiSession.start txnId).Open := ⟨rfl, rfl⟩

/-- A result is the one value the future was completed with. -/
theorem runTransaction_some {txnId : Int64} {attempts : List FfiAttempt} {now : UInt64}
    {outcome : SdkOutcome} {r : FfiTransactionResult}
    (h : runTransaction package txnId attempts now outcome = some r) :
    ∃ s : Session, s.listening = true ∧ s.completions = [] ∧
      s.aborted = attempts.any (FfiAttempt.givesUp package) ∧
      (onMessage package (fun _ => .error .other) s (outcome.bytes now)).1.completions =
        [.value r.snapshot] ∧
      r.committed = !attempts.any (FfiAttempt.aborts package) := by
  unfold runTransaction at h
  dsimp only at h
  split at h
  · cases h
  · next hstuck =>
    obtain ⟨hopen, hgive, habort⟩ := attempts_flags (open_start txnId) attempts (by simpa using hstuck)
    split at h
    · next v hv =>
      cases h
      exact ⟨_, hopen.listening, hopen.completions, hgive, hv, by rw [habort]; rfl⟩
    · cases h

theorem complete_value {s : Session} (hs : s.completions = []) {c d : Completion}
    (h : (s.complete c).1.completions = [d]) : c = d := by
  rw [Session.complete, hs] at h
  exact List.singleton_inj.mp h

theorem onFailure_value {s : Session} (hs : s.completions = []) {seq : Int64} {bytes : Bytes}
    {v : Object} (h : (onFailure package s seq bytes).1.completions = [.value v]) :
    s.aborted = true ∧ v = .null := by
  unfold onFailure at h
  split at h
  · next haborted =>
    cases complete_value hs h
    exact ⟨haborted, rfl⟩
  · split at h
    · rw [hs] at h
      cases h
    · split at h
      · rw [hs] at h
        cases h
      · cases complete_value hs h

theorem onSuccess_value {s : Session} (hs : s.completions = []) {bytes : Bytes} {v : Object}
    (h : (onSuccess package s bytes).1.completions = [.value v]) :
    decodeSnapshotValue package bytes = .ok v := by
  unfold onSuccess at h
  split at h
  · rw [hs] at h
    cases h
  · next hv =>
    cases complete_value hs h
    exact hv

variable {txnId : Int64} {attempts : List FfiAttempt} {now : UInt64} {r : FfiTransactionResult}

/-- A failed transaction has a result only when an attempt was given up. -/
theorem failed_result {code : Int64} {message : Bytes} {positive : 0 < code}
    (h : runTransaction package txnId attempts now (.failed code message positive) = some r) :
    attempts.any (FfiAttempt.givesUp package) = true ∧ r.snapshot = .null ∧
      r.committed = !attempts.any (FfiAttempt.aborts package) := by
  obtain ⟨s, hlisten, hcompletions, hgive, hvalue, hcommitted⟩ := runTransaction_some h
  have hmessage : onMessage package (fun _ => .error .other) s
      ((SdkOutcome.failed code message positive).bytes now) =
        onFailure package { s with listening := false } (-code)
          ((SdkOutcome.failed code message positive).bytes now) := by
    rw [onMessage, hlisten, SdkOutcome.bytes, seqOf_post]
    simp [Machine.neg_negative positive]
  rw [hmessage] at hvalue
  obtain ⟨haborted, hnull⟩ :=
    onFailure_value (s := { s with listening := false }) hcompletions hvalue
  exact ⟨hgive.symm.trans haborted, hnull, hcommitted⟩

/-- A committed transaction has the value that is decoded from the event. -/
theorem committed_result {value : Option Firebase.Variant}
    (h : runTransaction package txnId attempts now (.committed value) = some r) :
    decodeSnapshotValue package ((SdkOutcome.committed value).bytes now) = .ok r.snapshot ∧
      r.committed = !attempts.any (FfiAttempt.aborts package) := by
  obtain ⟨s, hlisten, hcompletions, hgive, hvalue, hcommitted⟩ := runTransaction_some h
  have hmessage : onMessage package (fun _ => .error .other) s
      ((SdkOutcome.committed value).bytes now) =
        onSuccess package { s with listening := false } ((SdkOutcome.committed value).bytes now) := by
    rw [onMessage, hlisten, SdkOutcome.bytes, seqOf_post]
    rfl
  rw [hmessage] at hvalue
  exact ⟨onSuccess_value (s := { s with listening := false }) hcompletions hvalue, hcommitted⟩

end Flags

/-- The result tells whether the SDK committed and, if it did, what. -/
def FfiTransactionResult.Reports (r : FfiTransactionResult) : SdkOutcome → Prop
  | .committed value => r.committed = true ∧ ∀ v, value = some v → r.snapshot = v.object
  | .failed _ _ _ => r.committed = false

/-- After a commit, no attempt's handler aborted and the value holds no NUL. After
a failure, some attempt's handler aborted by itself. -/
def Reportable (package : CborPackage) (attempts : List FfiAttempt) : SdkOutcome → Prop
  | .committed value => (∀ a ∈ attempts, a.aborts package = false) ∧ ∀ v, value = some v → v.NulFree
  | .failed _ _ _ => ∃ a ∈ attempts, a.aborts package = true

/-- The value the SDK commits is one that a Variant tree can be. -/
def SdkOutcome.Holds (less : Firebase.Less) : SdkOutcome → Prop
  | .committed value => ∀ v, value = some v → v.Tree less
  | .failed _ _ _ => True

/-- The transaction's result, when it has one, reports what the SDK did exactly
when the attempts and the outcome are reportable. -/
theorem result_reports {package : CborPackage} (hp : package.Documented) {less : Firebase.Less}
    {txnId : Int64} {attempts : List FfiAttempt} {now : UInt64} {outcome : SdkOutcome}
    (ho : outcome.Holds less) {r : FfiTransactionResult}
    (h : runTransaction package txnId attempts now outcome = some r) :
    r.Reports outcome ↔ Reportable package attempts outcome := by
  cases outcome with
  | committed value =>
    obtain ⟨hsnapshot, hcommitted⟩ := committed_result h
    have hflag : r.committed = true ↔ ∀ a ∈ attempts, a.aborts package = false := by
      rw [hcommitted, Bool.not_eq_true', List.any_eq_false]
      simp only [Bool.not_eq_true]
    have hvalue : (∀ v, value = some v → r.snapshot = v.object) ↔ ∀ v, value = some v → v.NulFree := by
      apply forall_congr'
      intro v
      apply imp_congr_right
      intro hv
      subst hv
      have htree := ho v rfl
      rw [htree.decoded hp hsnapshot, htree.shown_eq]
    exact and_congr hflag hvalue
  | failed code message positive =>
    obtain ⟨-, -, hcommitted⟩ := failed_result h
    show r.committed = false ↔ _
    rw [hcommitted, Bool.not_eq_false', List.any_eq_true]
    rfl

/-- An attempt on 5, with a handler that counts up. -/
def countsUp : FfiAttempt :=
  ⟨1, 0, [5], fun current => match current with
    | .int i => .ok ⟨false, .int (i + 1)⟩
    | _ => .ok ⟨true, .null⟩, first_positive⟩

theorem countsUp_reports :
    runTransaction bytePackage 1 [countsUp] 0 (.committed (some (.int64 6))) =
        some ⟨true, .int 6⟩ ∧
      FfiTransactionResult.Reports ⟨true, .int 6⟩ (.committed (some (.int64 6))) := by
  have hrun : runTransaction bytePackage 1 [countsUp] 0 (.committed (some (.int64 6))) =
      some ⟨true, .int 6⟩ := by rfl
  refine ⟨hrun, (@result_reports bytePackage bytePackage_documented (fun _ _ => false) _ _ _ _ ?_ _
    hrun).mpr ⟨?_, ?_⟩⟩
  · intro v hv
    cases hv
    exact .int64
  · intro a ha
    obtain rfl := List.mem_singleton.mp ha
    rfl
  · intro v hv
    cases hv
    exact .int64

/-- An attempt on null, with a handler that throws. -/
def throwing : FfiAttempt := ⟨1, 0, [0xf6], fun _ => .error .other, first_positive⟩

theorem writeCanceled_positive : (0 : Int64) < 11 := by decide

/-- The handler throws, the SDK cancels, and the result says committed. -/
theorem throwing_committed :
    runTransaction bytePackage 1 [throwing] 0
        (.failed 11 (ascii "cancelled") writeCanceled_positive) = some ⟨true, .null⟩ ∧
      ¬ FfiTransactionResult.Reports ⟨true, .null⟩
        (.failed 11 (ascii "cancelled") writeCanceled_positive) := by
  refine ⟨by rfl, ?_⟩
  intro h
  cases h

end Database
