import FirebaseFfi.Dart.Variant

namespace Database
open Cbor Dart

/-- What a transaction handler decided. -/
inductive DbTransactionResult
  | commit (value : Object)
  | abort

def DbTransactionResult.value : DbTransactionResult → Object
  | .commit v => v
  | .abort => .null

def DbTransactionResult.isAbort : DbTransactionResult → Bool
  | .commit _ => false
  | .abort => true

def isNull : Object → Bool
  | .null => true
  | _ => false

/-- The behaviour of a handler, given the current value. -/
abbrev Handler := Object → Except Thrown DbTransactionResult

/-- One call of fdb_db_txn_apply. -/
structure ApplyCall where
  txnId : Int64
  cbor : Bytes
  abort : Bool

/-- How the future is completed: with a value, or with a DatabaseException. -/
inductive Completion
  | value (v : Object)
  | exception (code : Int64) (message : Bytes)

/-- The variables runDbTransaction closes over, the calls made and the
completions of the future so far. -/
structure Session where
  txnId : Int64
  aborted : Bool
  listening : Bool
  calls : List ApplyCall
  completions : List Completion

def Session.start (txnId : Int64) : Session := ⟨txnId, false, true, [], []⟩

/-- A completer throws when it is completed a second time. -/
def Session.complete (s : Session) (c : Completion) : Session × Option Thrown :=
  if s.completions.isEmpty then ({ s with completions := [c] }, none) else (s, some .other)

section Dart

variable (package : CborPackage)

/-- A handler that throws, or a value that is not decoded, aborts. -/
def decideAttempt (handler : Handler) (bytes : Bytes) : DbTransactionResult :=
  match decodeSnapshotValue package bytes >>= handler with
  | .ok decision => decision
  | .error _ => .abort

def encodedDecision (decision : DbTransactionResult) : Except Thrown Bytes :=
  if decision.isAbort || isNull decision.value then .ok []
  else encodeVariant package decision.value

/-- The branch for an attempt. The encoding is outside of the try. -/
def onAttempt (handler : Handler) (s : Session) (bytes : Bytes) : Session × Option Thrown :=
  let decision := decideAttempt package handler bytes
  let s := if decision.isAbort then { s with aborted := true } else s
  match encodedDecision package decision with
  | .error e => (s, some e)
  | .ok encoded =>
    ({ s with calls := s.calls ++ [⟨s.txnId, encoded, decision.isAbort⟩] }, none)

/-- `'${value ?? "transaction failed"}'` -/
def failureText (value : Object) : Option Bytes :=
  if isNull value then some (ascii "transaction failed")
  else interpolate package.toString value

/-- The branch for a failed transaction. -/
def onFailure (s : Session) (seq : Int64) (bytes : Bytes) : Session × Option Thrown :=
  if s.aborted then s.complete (.value .null)
  else
    match decodeSnapshotValue package bytes with
    | .error e => (s, some e)
    | .ok value =>
      match failureText package value with
      | none => (s, some .other)
      | some message => s.complete (.exception (-seq) message)

/-- The branch for a transaction that is done. -/
def onSuccess (s : Session) (bytes : Bytes) : Session × Option Thrown :=
  match decodeSnapshotValue package bytes with
  | .error e => (s, some e)
  | .ok value => s.complete (.value value)

/-- The handler of the receive port. A closed port delivers nothing. -/
def onMessage (handler : Handler) (s : Session) (bytes : Bytes) : Session × Option Thrown :=
  if !s.listening then (s, none)
  else
    match seqOf bytes with
    | .error e => (s, some e)
    | .ok seq =>
      if seq < 0 then onFailure package { s with listening := false } seq bytes
      else if seq = 0 then onSuccess package { s with listening := false } bytes
      else onAttempt package handler s bytes

end Dart

/-- DbTxnState, which the SDK's thread and fdb_db_txn_apply share. -/
structure DbTxnState where
  answered : Bool
  abort : Bool
  valueIsNull : Bool
  value : Bytes
  attempt : Int64

/-- What the update function does before it waits. -/
def DbTxnState.park (state : DbTxnState) : DbTxnState :=
  { state with answered := false, attempt := state.attempt + 1 }

def fdbDbTxnApply (state : DbTxnState) (call : ApplyCall) : DbTxnState :=
  { state with
    abort := call.abort, valueIsNull := call.cbor.isEmpty, value := call.cbor, answered := true }

/-- An attempt as it arrives: the buffer the native side posts, and what the
handler does with the value in it. -/
structure Attempt where
  seq : Int64
  now : UInt64
  payload : Bytes
  handler : Handler
  positive : 0 < seq

def Attempt.bytes (a : Attempt) : Bytes := fdbPostBuffer a.now a.seq a.payload

section Attempts

variable (package : CborPackage)

def Attempt.decision (a : Attempt) : DbTransactionResult := decideAttempt package a.handler a.bytes

def Attempt.process (a : Attempt) (s : Session) : Session × Option Thrown :=
  onMessage package a.handler s a.bytes

/-- The call carries the decision: an abort, or the CBOR of the value. No bytes
at all stand for null. -/
def ApplyCall.Carries (call : ApplyCall) : DbTransactionResult → Prop
  | .abort => call.abort = true
  | .commit v => call.abort = false ∧
      if isNull v then call.cbor = [] else encodeVariant package v = .ok call.cbor

/-- The state the parked thread finds after the calls that processing made. -/
def awaited (s : Session) (a : Attempt) (state : DbTxnState) : DbTxnState :=
  ((a.process package s).1.calls.drop s.calls.length).foldl fdbDbTxnApply state.park

/-- Processing the attempt makes exactly one call, for the transaction and with
the decision, and leaves the thread not parked. -/
structure Answered (s : Session) (a : Attempt) : Prop where
  call : ∃ call, (a.process package s).1.calls = s.calls ++ [call] ∧ call.txnId = s.txnId ∧
    call.Carries package (a.decision package)
  wakes : ∀ state, (awaited package s a state).answered = true

def AllAnswered (s : Session) : List Attempt → Prop
  | [] => True
  | a :: as => Answered package s a ∧ AllAnswered (a.process package s).1 as

/-- The handler aborts, throws, or commits a value that has a CBOR form. -/
def Attempt.Answerable (a : Attempt) : Prop :=
  ∀ v, a.decision package = .commit v → Encodable v

theorem process_attempt {s : Session} (hs : s.listening = true) (a : Attempt) :
    a.process package s = onAttempt package a.handler s a.bytes := by
  have hpos : ¬ a.seq < 0 := by
    have := a.positive
    simp only [Int64.lt_iff_toInt_lt, Int64.toInt_zero] at this ⊢
    omega
  have hzero : a.seq ≠ 0 := by
    intro h
    have := a.positive
    rw [h] at this
    exact absurd this (by decide)
  rw [Attempt.process, onMessage, hs, Attempt.bytes, seqOf_post]
  simp [hpos, hzero]

theorem process_listening {s : Session} (hs : s.listening = true) (a : Attempt) :
    (a.process package s).1.listening = true := by
  rw [process_attempt package hs, onAttempt]
  split <;> split <;> exact hs

theorem process_txnId {s : Session} (hs : s.listening = true) (a : Attempt) :
    (a.process package s).1.txnId = s.txnId := by
  rw [process_attempt package hs, onAttempt]
  split <;> split <;> rfl

theorem process_calls {s : Session} (hs : s.listening = true) (a : Attempt) :
    (a.process package s).1.calls =
      match encodedDecision package (a.decision package) with
      | .error _ => s.calls
      | .ok encoded => s.calls ++ [⟨s.txnId, encoded, (a.decision package).isAbort⟩] := by
  rw [process_attempt package hs, onAttempt, Attempt.decision]
  split
  · split <;> rfl
  · split <;> rfl

theorem process_sent {s : Session} {encoded : Bytes} (hs : s.listening = true) (a : Attempt)
    (he : encodedDecision package (a.decision package) = .ok encoded) :
    (a.process package s).1.calls =
      s.calls ++ [⟨s.txnId, encoded, (a.decision package).isAbort⟩] := by
  rw [process_calls package hs, he]

theorem process_unsent {s : Session} {e : Thrown} (hs : s.listening = true) (a : Attempt)
    (he : encodedDecision package (a.decision package) = .error e) :
    (a.process package s).1.calls = s.calls := by
  rw [process_calls package hs, he]

theorem encodedDecision_carries {decision : DbTransactionResult} {encoded : Bytes} {id : Int64}
    (h : encodedDecision package decision = .ok encoded) :
    (ApplyCall.mk id encoded decision.isAbort).Carries package decision := by
  cases decision with
  | abort => rfl
  | commit v =>
    refine ⟨rfl, ?_⟩
    simp only [encodedDecision, DbTransactionResult.isAbort, DbTransactionResult.value,
      Bool.false_or] at h
    split
    · next hn =>
      rw [if_pos hn] at h
      cases h
      rfl
    · next hn => rwa [if_neg hn] at h

theorem encodedDecision_ok {decision : DbTransactionResult} :
    (∃ encoded, encodedDecision package decision = .ok encoded) ↔
      ∀ v, decision = .commit v → Encodable v := by
  cases decision with
  | abort => exact iff_of_true ⟨[], rfl⟩ fun v h => by cases h
  | commit v =>
    have hiff : (∃ encoded, encodedDecision package (.commit v) = .ok encoded) ↔ Encodable v := by
      simp only [encodedDecision, DbTransactionResult.isAbort, DbTransactionResult.value,
        Bool.false_or]
      split
      · next hn =>
        refine iff_of_true ⟨[], rfl⟩ ?_
        cases v with
        | null => exact .null
        | _ => cases hn
      · exact encodeVariant_ok v
    rw [hiff]
    constructor
    · intro h w hw
      cases hw
      exact h
    · exact fun h => h v rfl

/-- An attempt is answered exactly when its decision can be encoded. -/
theorem answered_iff {s : Session} (hs : s.listening = true) (a : Attempt) :
    Answered package s a ↔ a.Answerable package := by
  rw [Attempt.Answerable, ← encodedDecision_ok package]
  constructor
  · intro h
    obtain ⟨⟨call, hcall, -⟩, -⟩ := h
    cases he : encodedDecision package (a.decision package) with
    | ok encoded => exact ⟨encoded, rfl⟩
    | error e =>
      rw [process_unsent package hs a he] at hcall
      simp at hcall
  · intro h
    obtain ⟨encoded, he⟩ := h
    have hcalls := process_sent package hs a he
    refine ⟨⟨_, hcalls, rfl, encodedDecision_carries package he⟩, fun state => ?_⟩
    rw [awaited, hcalls, List.drop_left]
    rfl

theorem all_answered {s : Session} (hs : s.listening = true) (attempts : List Attempt) :
    AllAnswered package s attempts ↔ ∀ a ∈ attempts, a.Answerable package := by
  induction attempts generalizing s with
  | nil => exact iff_of_true trivial (by simp)
  | cons a attempts ih =>
    rw [AllAnswered, answered_iff package hs, ih (process_listening package hs a),
      List.forall_mem_cons]

end Attempts

/-- Every attempt of a transaction is answered, once and with the handler's
decision, exactly when no handler commits a value without a CBOR form. -/
theorem attempts_answered (package : CborPackage) (txnId : Int64) (attempts : List Attempt) :
    AllAnswered package (.start txnId) attempts ↔
      ∀ a ∈ attempts, a.Answerable package :=
  all_answered package rfl attempts

/-- The first attempt on an empty location, with a handler that commits an
object of a class that has no CBOR form. -/
def unencodable : Attempt where
  seq := 1
  now := 0
  payload := []
  handler _ := .ok (.commit (.other 0))
  positive := first_positive

theorem unencodable_unanswered :
    (unencodable.process idlePackage (.start 1)).1.calls = [] ∧
      ¬ AllAnswered idlePackage (.start 1) [unencodable] := by
  have hdecision : unencodable.decision idlePackage = .commit (.other 0) := by
    rw [Attempt.decision, decideAttempt, Attempt.bytes]
    have hnull := decodeSnapshotValue_empty idlePackage unencodable.now unencodable.seq
    rw [show unencodable.payload = [] from rfl, hnull]
    rfl
  have hcalls : (unencodable.process idlePackage (.start 1)).1.calls = [] := by
    rw [process_calls idlePackage rfl, hdecision]
    rfl
  refine ⟨hcalls, fun h => ?_⟩
  obtain ⟨⟨⟨call, hcall, _⟩, _⟩, _⟩ := h
  rw [hcalls] at hcall
  cases hcall

end Database
