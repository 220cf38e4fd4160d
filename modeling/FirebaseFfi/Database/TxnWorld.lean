import FirebaseFfi.Assoc.Emplace
import FirebaseFfi.Database.Transaction
import FirebaseFfi.Firebase.Variant
import FirebaseFfi.Machine.Run

namespace Database
open Assoc Cbor Dart Machine

/-- What the update function returns to the SDK. -/
inductive TransactionResult
  | abort
  | success (value : Firebase.Variant)

/-- What the update function makes of the answer it finds, with the lock held. -/
def DbTxnState.decide (less : Firebase.Less) (state : DbTxnState) : TransactionResult :=
  if state.abort then .abort
  else if state.valueIsNull then .success .null
  else
    match Firebase.parseVariant less state.value with
    | .ok next => .success next
    | .error _ => .abort

def DbTxnState.start : DbTxnState := ⟨false, false, false, [], 0⟩

/-- A buffer as fdb_post_buffer sends it to the receive port. -/
structure Message where
  now : UInt64
  seq : Int64
  payload : Bytes

def Message.bytes (m : Message) : Bytes := fdbPostBuffer m.now m.seq m.payload

/-- A call of fdb_db_txn_apply, with the transaction whose handler it is from,
the message the handler was run for, and the handler. -/
structure Answer where
  txn : Nat
  message : Message
  handler : Handler
  call : ApplyCall

/-- The result of an attempt, with the answer it was taken from. -/
structure Use where
  attempt : Int64
  answer : Option Answer
  result : TransactionResult

/-- Where the SDK is with a transaction: between attempts, in the update function
before the post or at the wait, or done with it. -/
inductive Thread
  | idle
  | numbered (attempt : Int64) (payload : Bytes)
  | waiting (attempt : Int64)
  | completed
  | erased

/-- A transaction with both its sides. `source` is the answer whose call wrote
the state last. `inbox` holds the messages that are posted and not handled,
`outbox` the calls that Dart is about to make, and `found` the state that the
first of them has found and not locked yet. The last three are what has been
posted, answered and used. -/
structure Txn where
  id : Int64
  returned : Bool
  state : DbTxnState
  source : Option Answer
  thread : Thread
  inbox : List Message
  session : Session
  outbox : List Answer
  found : Option Nat
  posted : List (Int64 × Bytes)
  answers : List Answer
  uses : List Use

def Txn.start (id : Int64) : Txn :=
  ⟨id, false, .start, none, .idle, [], .start 0, [], none, [], [], []⟩

/-- g_db_txns and g_next_db_txn, beside the transactions in the order they
registered. A state is known by the place of its transaction. -/
structure World where
  table : List (Int64 × Nat)
  next : Int64
  txns : List Txn

def World.start : World := ⟨[], 1, []⟩

/-- Steps of fdb_db_txn_run (`register` and its return), of the update function
(`attempt`, `post`, `wake`), of the completion (`complete`, `erase`), of Dart
(`deliver`) and of fdb_db_txn_apply (`find`, `lock`). -/
inductive WorldAction
  | register
  | answer (i : Nat)
  | attempt (i : Nat) (data : Firebase.Variant)
  | post (i : Nat) (now : UInt64)
  | wake (i : Nat)
  | deliver (i : Nat) (handler : Handler)
  | find (i : Nat)
  | lock (i : Nat)
  | complete (i : Nat) (now : UInt64) (error : Int64) (payload : Bytes)
  | erase (i : Nat)

/-- The update function takes the next number. A value that cannot be written
aborts without one, and there is no number after the largest. -/
def Txn.attempt (t : Txn) (data : Firebase.Variant) : Option Txn :=
  match t.thread, Firebase.serializeVariant data with
  | .idle, some payload =>
    if t.state.attempt = Int64.maxValue then none
    else
      some { t with
        state := t.state.park
        thread := .numbered (t.state.attempt + 1) payload }
  | .idle, none => some t
  | _, _ => none

def Txn.post (t : Txn) (now : UInt64) : Option Txn :=
  match t.thread with
  | .numbered attempt payload =>
    some { t with
      thread := .waiting attempt
      inbox := t.inbox ++ [⟨now, attempt, payload⟩]
      posted := t.posted ++ [(attempt, payload)] }
  | _ => none

def Txn.wake (less : Firebase.Less) (t : Txn) : Option Txn :=
  match t.thread with
  | .waiting attempt =>
    if t.state.answered then
      some { t with
        thread := .idle
        uses := t.uses ++ [⟨attempt, t.source, t.state.decide less⟩] }
    else none
  | _ => none

/-- The call returns its id to Dart, which closes the port when it is not
positive. -/
def Txn.answer (t : Txn) : Option Txn :=
  if t.returned then none
  else
    some { t with
      returned := true
      session := { t.session with txnId := t.id, listening := decide (0 < t.id) } }

/-- Dart handles a message, after the call has returned and with nothing left to
do for the message before. -/
def Txn.deliver (package : CborPackage) (i : Nat) (t : Txn) (handler : Handler) : Option Txn :=
  match t.returned, t.inbox, t.outbox with
  | true, m :: rest, [] =>
    let session := (onMessage package handler t.session m.bytes).1
    let answers := (session.calls.drop t.session.calls.length).map fun c => ⟨i, m, handler, c⟩
    some { t with
      session := session
      inbox := rest
      outbox := answers
      answers := t.answers ++ answers }
  | _, _, _ => none

/-- The completion posts its event: 0, or the SDK's error code as a negative. -/
def Txn.complete (t : Txn) (now : UInt64) (error : Int64) (payload : Bytes) : Option Txn :=
  match t.thread with
  | .idle =>
    if 0 ≤ error then
      some { t with thread := .completed, inbox := t.inbox ++ [⟨now, -error, payload⟩] }
    else none
  | _ => none

/-- The lock section of fdb_db_txn_apply. -/
def Txn.apply (t : Txn) (a : Answer) : Txn :=
  { t with state := fdbDbTxnApply t.state a.call, source := some a }

section Step

variable (package : CborPackage) (less : Firebase.Less)

/-- A step of one transaction that touches nothing outside of it. -/
def World.at (w : World) (i : Nat) (f : Txn → Option Txn) : Option World :=
  match w.txns[i]? with
  | some t => (f t).map fun u => { w with txns := w.txns.set i u }
  | none => none

/-- Registering takes the number and makes the entry under one lock. There is no
number after the largest. -/
def World.step (w : World) : WorldAction → Option World
  | .register =>
    if w.next = Int64.maxValue then none
    else
      some {
        table := emplace w.table w.next w.txns.length
        next := w.next + 1
        txns := w.txns ++ [.start w.next] }
  | .answer i => w.at i Txn.answer
  | .attempt i data => w.at i fun t => t.attempt data
  | .post i now => w.at i fun t => t.post now
  | .wake i => w.at i fun t => t.wake less
  | .deliver i handler => w.at i fun t => t.deliver package i handler
  | .find i =>
    w.at i fun t =>
      match t.outbox, t.found with
      | a :: rest, none =>
        match w.table.lookup a.call.txnId with
        | some j => some { t with found := some j }
        | none => some { t with outbox := rest }
      | _, _ => none
  | .lock i =>
    match w.txns[i]? with
    | some t =>
      match t.outbox, t.found with
      | a :: rest, some j =>
        some { w with
          txns := (w.txns.set i { t with outbox := rest, found := none }).modify j
            fun u => u.apply a }
      | _, _ => none
    | none => none
  | .complete i now error payload => w.at i fun t => t.complete now error payload
  | .erase i =>
    match w.txns[i]? with
    | some t =>
      match t.thread with
      | .completed =>
        some { w with
          table := erase w.table t.id
          txns := w.txns.set i { t with thread := .erased } }
      | _ => none
    | none => none

end Step

/-- What a call asks for: an abort, or the value that its CBOR is read as. No bytes at
all stand for null, and what cannot be read is not stored. -/
def ApplyCall.result (less : Firebase.Less) (call : ApplyCall) : TransactionResult :=
  match call.abort, call.cbor with
  | true, _ => .abort
  | false, [] => .success .null
  | false, b :: bytes =>
    match Firebase.parseVariant less (b :: bytes) with
    | .ok next => .success next
    | .error _ => .abort

/-- The answer is that of the handler of this transaction, for the value that was
posted in this attempt, and the result is what the call that carries the handler's
decision asks for. -/
def Use.Proper (package : CborPackage) (less : Firebase.Less) (i : Nat) (t : Txn) (u : Use) :
    Prop :=
  ∃ a ∈ t.answers, u.answer = some a ∧ a.txn = i ∧ a.message.seq = u.attempt ∧
    (u.attempt, a.message.payload) ∈ t.posted ∧
    a.call.Carries package (decideAttempt package a.handler a.message.bytes) ∧
    u.result = a.call.result less

/-- Every result is proper, the attempts of a transaction count upwards, and no
answer is used a second time. -/
structure Attributed (package : CborPackage) (less : Firebase.Less) (w : World) : Prop where
  proper : ∀ {i : Nat} {t : Txn} {u : Use}, w.txns[i]? = some t → u ∈ t.uses →
    u.Proper package less i t
  increasing : ∀ {i : Nat} {t : Txn}, w.txns[i]? = some t →
    (t.posted.map Prod.fst).Pairwise (· < ·) ∧ (t.uses.map Use.attempt).Pairwise (· < ·)
  once : ∀ {i j k l : Nat} {t s : Txn} {u v : Use} {a : Answer}, w.txns[i]? = some t →
    w.txns[j]? = some s → t.uses[k]? = some u → s.uses[l]? = some v → u.answer = some a →
    v.answer = some a → i = j ∧ k = l

end Database
