import FirebaseFfi.Dart.Snapshot
import FirebaseFfi.Firestore.Storable
import FirebaseFfi.Firestore.TxnState

namespace Firestore
open Cbor Dart

/-- A write, as a handler asks for it. -/
inductive Write
  | set (path : Bytes) (data : List (Bytes × Object)) (merge : Bool)
  | update (path : Bytes) (data : List (Bytes × Object))
  | delete (path : Bytes)

def documentData (data : List (Bytes × Object)) : Object :=
  .map (data.map fun e => (.string e.1, e.2))

/-- The list that stands for a write: op, path and data. -/
def Write.recorded : Write → Object
  | .set path data merge =>
    .list [.string (ascii (if merge then "merge" else "set")), .string path, documentData data]
  | .update path data => .list [.string (ascii "update"), .string path, documentData data]
  | .delete path => .list [.string (ascii "delete"), .string path]

/-- A commit or an abort ends the attempt that the SDK's thread is parked on. -/
def TxnCall.ends : TxnCall → Bool
  | .get _ _ _ => false
  | .commit _ _ => true
  | .abort _ => true

structure FirestoreTransaction where
  id : Int64
  writes : List Object
  wrote : Bool

def FirestoreTransaction.reset (tx : FirestoreTransaction) : FirestoreTransaction :=
  { tx with writes := [], wrote := false }

def FirestoreTransaction.record (tx : FirestoreTransaction) (w : Write) : FirestoreTransaction :=
  { tx with writes := tx.writes ++ [w.recorded], wrote := true }

/-- A read makes no call, and throws, once there is a write. Otherwise it opens
a port for the answer. -/
def FirestoreTransaction.get (tx : FirestoreTransaction) (path : Bytes) (port : Int64) :
    List TxnCall :=
  if tx.wrote then [] else [.get tx.id path port]

/-- What a handler does with its handle. -/
inductive HandlerStep
  | get (path : Bytes) (port : Int64)
  | write (w : Write)

/-- One run of a handler: its reads and writes, and what it throws at the end. -/
structure HandlerRun where
  steps : List HandlerStep
  thrown : Option Thrown

def HandlerStep.perform (tx : FirestoreTransaction) :
    HandlerStep → FirestoreTransaction × List TxnCall
  | .get path port => (tx, tx.get path port)
  | .write w => (tx.record w, [])

def perform (tx : FirestoreTransaction) : List HandlerStep → FirestoreTransaction × List TxnCall
  | [] => (tx, [])
  | step :: steps =>
    let first := step.perform tx
    let rest := perform first.1 steps
    (rest.1, first.2 ++ rest.2)

/-- How the future is completed. -/
inductive Completion
  | done
  | error (e : Thrown)
  | exception (code : Int64) (message : Bytes)

/-- The variables runTransaction closes over, the calls made and the completions
of the future so far. -/
structure Session where
  txnId : Int64
  tx : FirestoreTransaction
  listening : Bool
  calls : List TxnCall
  completions : List Completion

def Session.start (txnId : Int64) : Session := ⟨txnId, ⟨txnId, [], false⟩, true, [], []⟩

/-- `if (!done.isCompleted)` -/
def Session.complete (s : Session) (c : Completion) : Session :=
  if s.completions.isEmpty then { s with completions := [c] } else s

def Session.call (s : Session) (c : TxnCall) : Session := { s with calls := s.calls ++ [c] }

/-- A handler starts from an empty buffer on each attempt. -/
def Session.handle (s : Session) (run : HandlerRun) : Session :=
  let r := perform s.tx.reset run.steps
  { s with tx := r.1, calls := s.calls ++ r.2 }

section Dart

variable (package : CborPackage)

def encodeWrites (writes : List Object) : Except Thrown Bytes :=
  if writes.isEmpty then .ok []
  else do return package.encode (← encodeFirestoreValue package.toString (.list writes))

/-- The branch for an attempt. The encoding is outside of the try. -/
def onAttempt (run : HandlerRun) (s : Session) : Session × Option Thrown :=
  let s := s.handle run
  match run.thrown with
  | some e => ((s.call (.abort s.txnId)).complete (.error e), none)
  | none =>
    match encodeWrites package s.tx.writes with
    | .error e => (s, some e)
    | .ok encoded => (s.call (.commit s.txnId encoded), none)

/-- `'${reason ?? "failed"}'` -/
def failureText (reason : Object) : Option Bytes :=
  match reason with
  | .null => some (ascii "failed")
  | reason => interpolate package.toString reason

/-- The branch for a failed transaction. -/
def onFailure (s : Session) (bytes : Bytes) : Session × Option Thrown :=
  match decodeSnapshotValue package bytes with
  | .error e => (s, some e)
  | .ok reason =>
    if s.completions.isEmpty then
      match failureText package reason with
      | none => (s, some .other)
      | some message => (s.complete (.exception (-1) message), none)
    else (s, none)

/-- The handler of the receive port. A closed port delivers nothing. -/
def onMessage (run : HandlerRun) (s : Session) (bytes : Bytes) : Session × Option Thrown :=
  if !s.listening then (s, none)
  else
    match seqOf bytes with
    | .error e => (s, some e)
    | .ok seq =>
      if seq < 0 then onFailure package { s with listening := false } bytes
      else if seq = 0 then (({ s with listening := false } : Session).complete .done, none)
      else onAttempt package run s

end Dart

/-- The writes of a run, in order. -/
def HandlerRun.recorded (run : HandlerRun) : List Object :=
  run.steps.filterMap fun
    | .get _ _ => none
    | .write w => some w.recorded

theorem perform_writes (tx : FirestoreTransaction) (steps : List HandlerStep)
    (thrown : Option Thrown) :
    (perform tx steps).1.writes = tx.writes ++ (HandlerRun.mk steps thrown).recorded := by
  induction steps generalizing tx with
  | nil => simp [perform, HandlerRun.recorded]
  | cons step steps ih =>
    rw [perform, ih]
    cases step with
    | get path port => rfl
    | write w => simp [HandlerStep.perform, FirestoreTransaction.record, HandlerRun.recorded]

theorem perform_ends (tx : FirestoreTransaction) (steps : List HandlerStep) :
    (perform tx steps).2.filter TxnCall.ends = [] := by
  induction steps generalizing tx with
  | nil => rfl
  | cons step steps ih =>
    rw [perform, List.filter_append, ih, List.append_nil]
    cases step with
    | get path port =>
      simp only [HandlerStep.perform, FirestoreTransaction.get]
      split <;> rfl
    | write w => rfl

/-- An attempt as it arrives, and the run of the handler it leads to. -/
structure Attempt where
  seq : Int64
  now : UInt64
  payload : Bytes
  run : HandlerRun
  positive : 0 < seq

section Attempts

variable (package : CborPackage)

def Attempt.process (a : Attempt) (s : Session) : Session × Option Thrown :=
  onMessage package a.run s (fdbPostBuffer a.now a.seq a.payload)

/-- The calls that processing an attempt adds. -/
def Attempt.added (a : Attempt) (s : Session) : List TxnCall :=
  (a.process package s).1.calls.drop s.calls.length

/-- A commit carries the encoding of all writes of the run. When the handler
throws, or there is no such encoding, the attempt is aborted. -/
def HandlerRun.answer (run : HandlerRun) (id : Int64) : TxnCall :=
  match run.thrown, encodeWrites package run.recorded with
  | none, .ok encoded => .commit id encoded
  | _, _ => .abort id

/-- Processing the attempt makes exactly one call that ends it, and after an
abort the future has an error unless it was completed before. -/
structure Settled (s : Session) (a : Attempt) : Prop where
  ends : (a.added package s).filter TxnCall.ends = [a.run.answer package s.txnId]
  fails : a.run.answer package s.txnId = .abort s.txnId →
    ∃ e, (a.process package s).1.completions = (s.complete (.error e)).completions

def AllSettled (s : Session) : List Attempt → Prop
  | [] => True
  | a :: as => Settled package s a ∧ AllSettled (a.process package s).1 as

/-- The handler throws, or all its writes have a Firestore mapping. -/
def Attempt.Settleable (a : Attempt) : Prop :=
  a.run.thrown = none → ∀ w ∈ a.run.recorded, Storable package.toString w

theorem process_attempt {s : Session} (hs : s.listening = true) (a : Attempt) :
    a.process package s = onAttempt package a.run s := by
  have hpos := a.positive
  simp only [Int64.lt_iff_toInt_lt, Int64.toInt_zero] at hpos
  have hneg : ¬ a.seq < 0 := by
    simp only [Int64.lt_iff_toInt_lt, Int64.toInt_zero]
    omega
  have hzero : a.seq ≠ 0 := by
    intro h
    rw [h] at hpos
    exact absurd hpos (by decide)
  rw [Attempt.process, onMessage, hs, seqOf_post]
  simp [hneg, hzero]

theorem handled_writes (s : Session) (run : HandlerRun) :
    (s.handle run).tx.writes = run.recorded := by
  rw [Session.handle, perform_writes s.tx.reset run.steps run.thrown]
  rfl

theorem handled_calls (s : Session) (run : HandlerRun) :
    ∃ gets, (s.handle run).calls = s.calls ++ gets ∧ gets.filter TxnCall.ends = [] :=
  ⟨_, rfl, perform_ends _ _⟩

theorem complete_calls (s : Session) (c : Completion) : (s.complete c).calls = s.calls := by
  unfold Session.complete
  split <;> rfl

theorem complete_listening (s : Session) (c : Completion) :
    (s.complete c).listening = s.listening := by
  unfold Session.complete
  split <;> rfl

theorem complete_congr {s t : Session} (h : s.completions = t.completions) (c : Completion) :
    (s.complete c).completions = (t.complete c).completions := by
  unfold Session.complete
  rw [h]
  split
  · rfl
  · exact h

theorem mem_complete {s : Session} {c c' : Completion} (h : c' ∈ (s.complete c).completions) :
    c' ∈ s.completions ∨ c' = c := by
  unfold Session.complete at h
  split at h
  · exact .inr (List.mem_singleton.mp h)
  · exact .inl h

theorem complete_length {s : Session} (h : s.completions.length ≤ 1) (c : Completion) :
    (s.complete c).completions.length ≤ 1 := by
  unfold Session.complete
  split
  · exact Nat.le_refl 1
  · exact h

theorem complete_txnId (s : Session) (c : Completion) : (s.complete c).txnId = s.txnId := by
  unfold Session.complete
  split <;> rfl

/-- What an attempt comes to, for each way its handler's run can end. -/
theorem onAttempt_cases (s : Session) (run : HandlerRun) :
    (∃ e, run.thrown = some e ∧ onAttempt package run s =
      (((s.handle run).call (.abort s.txnId)).complete (.error e), none)) ∨
    (∃ e, run.thrown = none ∧ encodeWrites package run.recorded = .error e ∧
      onAttempt package run s = (s.handle run, some e)) ∨
    (∃ encoded, run.thrown = none ∧ encodeWrites package run.recorded = .ok encoded ∧
      onAttempt package run s = ((s.handle run).call (.commit s.txnId encoded), none)) := by
  unfold onAttempt
  cases hthrown : run.thrown with
  | some e => exact .inl ⟨e, rfl, rfl⟩
  | none =>
    dsimp only
    rw [handled_writes]
    cases hencoded : encodeWrites package run.recorded with
    | error e => exact .inr (.inl ⟨e, rfl, rfl, rfl⟩)
    | ok encoded => exact .inr (.inr ⟨encoded, rfl, rfl, rfl⟩)

theorem onAttempt_listening (s : Session) (run : HandlerRun) :
    (onAttempt package run s).1.listening = s.listening := by
  rcases onAttempt_cases package s run with ⟨e, _, h⟩ | ⟨e, _, _, h⟩ | ⟨b, _, _, h⟩
  · rw [h, complete_listening]
    rfl
  · rw [h]
    rfl
  · rw [h]
    rfl

theorem process_listening {s : Session} (hs : s.listening = true) (a : Attempt) :
    (a.process package s).1.listening = true := by
  rw [process_attempt package hs, onAttempt_listening]
  exact hs

theorem answer_cases (run : HandlerRun) (id : Int64) :
    run.answer package id = .abort id ∨ ∃ writes, run.answer package id = .commit id writes ∧
      run.thrown = none ∧ encodeWrites package run.recorded = .ok writes := by
  unfold HandlerRun.answer
  split
  · next writes ht he => exact .inr ⟨writes, rfl, ht, he⟩
  · exact .inl rfl

/-- The calls of an attempt are reads, and then at most the one that ends it. -/
theorem onAttempt_calls (s : Session) (run : HandlerRun) :
    ∃ gets ends, (onAttempt package run s).1.calls = s.calls ++ (gets ++ ends) ∧
      gets.filter TxnCall.ends = [] ∧ (ends = [] ∨ ends = [run.answer package s.txnId]) := by
  obtain ⟨gets, hgets, hnone⟩ := handled_calls s run
  rcases onAttempt_cases package s run with ⟨e, he, h⟩ | ⟨e, _, _, h⟩ | ⟨b, ht, hb, h⟩
  · refine ⟨gets, [.abort s.txnId], ?_, hnone, .inr ?_⟩
    · rw [h, complete_calls, Session.call, hgets, List.append_assoc]
    · rw [HandlerRun.answer, he]
  · exact ⟨gets, [], by rw [h, hgets, List.append_nil], hnone, .inl rfl⟩
  · refine ⟨gets, [.commit s.txnId b], ?_, hnone, .inr ?_⟩
    · rw [h, Session.call, hgets, List.append_assoc]
    · rw [HandlerRun.answer, ht, hb]

theorem onAttempt_txnId (s : Session) (run : HandlerRun) :
    (onAttempt package run s).1.txnId = s.txnId := by
  rcases onAttempt_cases package s run with ⟨e, _, h⟩ | ⟨e, _, _, h⟩ | ⟨b, _, _, h⟩
  · rw [h, complete_txnId]
    rfl
  · rw [h]
    rfl
  · rw [h]
    rfl

/-- Only a handler that throws completes the future in an attempt. -/
theorem onAttempt_completions (s : Session) (run : HandlerRun) :
    (onAttempt package run s).1.completions = s.completions ∨
      ∃ e, run.thrown = some e ∧
        (onAttempt package run s).1.completions = (s.complete (.error e)).completions := by
  rcases onAttempt_cases package s run with ⟨e, he, h⟩ | ⟨e, _, _, h⟩ | ⟨b, _, _, h⟩
  · refine .inr ⟨e, he, ?_⟩
    rw [h]
    apply complete_congr
    rfl
  · exact .inl (by rw [h]; rfl)
  · exact .inl (by rw [h]; rfl)

theorem encodeWrites_ok (writes : List Object) :
    (∃ encoded, encodeWrites package writes = .ok encoded) ↔
      ∀ w ∈ writes, Storable package.toString w := by
  unfold encodeWrites
  cases writes with
  | nil => exact iff_of_true ⟨[], rfl⟩ (by simp)
  | cons w ws =>
    rw [List.isEmpty_cons, if_neg (by decide), map_ok, encodeFirestoreValue_ok]
    constructor
    · intro h
      cases h
      assumption
    · exact .list

/-- An attempt is settled exactly when its handler throws or its writes can be
encoded. -/
theorem settled_iff {s : Session} (hs : s.listening = true) (a : Attempt) :
    Settled package s a ↔ a.Settleable package := by
  have hprocess := process_attempt package hs a
  obtain ⟨gets, hgets, hnone⟩ := handled_calls s a.run
  rcases onAttempt_cases package s a.run with ⟨e, he, h⟩ | ⟨e, ht, he, h⟩ | ⟨b, ht, hb, h⟩
  · refine iff_of_true ⟨?_, ?_⟩ fun hn => by rw [he] at hn; cases hn
    · have hadded : a.added package s = gets ++ [.abort s.txnId] := by
        rw [Attempt.added, hprocess, h, complete_calls, Session.call, hgets, List.append_assoc,
          List.drop_left]
      rw [hadded, List.filter_append, hnone, HandlerRun.answer, he]
      rfl
    · intro _
      refine ⟨e, ?_⟩
      rw [hprocess, h]
      apply complete_congr
      rfl
  · refine iff_of_false ?_ ?_
    · rintro ⟨hends, _⟩
      rw [Attempt.added, hprocess, h, hgets, List.drop_left, hnone] at hends
      cases hends
    · intro hsettleable
      obtain ⟨b, hb⟩ := (encodeWrites_ok package _).mpr (hsettleable ht)
      rw [he] at hb
      cases hb
  · refine iff_of_true ⟨?_, ?_⟩ fun _ => (encodeWrites_ok package _).mp ⟨b, hb⟩
    · have hadded : a.added package s = gets ++ [.commit s.txnId b] := by
        rw [Attempt.added, hprocess, h, Session.call, hgets, List.append_assoc, List.drop_left]
      rw [hadded, List.filter_append, hnone, HandlerRun.answer, ht, hb]
      rfl
    · intro habort
      rw [HandlerRun.answer, ht, hb] at habort
      cases habort

theorem all_settled {s : Session} (hs : s.listening = true) (attempts : List Attempt) :
    AllSettled package s attempts ↔ ∀ a ∈ attempts, a.Settleable package := by
  induction attempts generalizing s with
  | nil => exact iff_of_true trivial (by simp)
  | cons a attempts ih =>
    rw [AllSettled, settled_iff package hs, ih (process_listening package hs a),
      List.forall_mem_cons]

end Attempts

/-- Every attempt of a transaction ends with one commit of all its writes or one
abort, exactly when no handler returns with a write that cannot be encoded. -/
theorem attempts_settled (package : CborPackage) (txnId : Int64) (attempts : List Attempt) :
    AllSettled package (.start txnId) attempts ↔ ∀ a ∈ attempts, a.Settleable package :=
  all_settled package rfl attempts

/-- A handler that returns after it sets a field to an object without a mapping. -/
def unmapped : Attempt where
  seq := 1
  now := 0
  payload := []
  run := ⟨[.write (.set (ascii "c/d") [(ascii "at", .other 0)] false)], none⟩
  positive := first_positive

theorem unmapped_unsettled :
    (unmapped.process idlePackage (.start 1)).1.calls = [] ∧
      (unmapped.process idlePackage (.start 1)).1.completions = [] ∧
      ¬ AllSettled idlePackage (.start 1) [unmapped] := by
  have hprocess : unmapped.process idlePackage (.start 1) =
      ((Session.start 1).handle unmapped.run, some .argumentError) := by
    rw [process_attempt idlePackage rfl]
    rfl
  have hcalls : (unmapped.process idlePackage (.start 1)).1.calls = [] := by
    rw [hprocess]
    rfl
  refine ⟨hcalls, by rw [hprocess]; rfl, ?_⟩
  rintro ⟨⟨hends, _⟩, _⟩
  rw [Attempt.added, hcalls] at hends
  cases hends

end Firestore
