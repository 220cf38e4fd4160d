import FirebaseFfi.Cbor.Head
import FirebaseFfi.Machine.Run

namespace Firestore
open Cbor

/-- One call of fdb_fs_txn_get, fdb_fs_txn_commit or fdb_fs_txn_abort. -/
inductive TxnCall
  | get (id : Int64) (path : Bytes) (port : Int64)
  | commit (id : Int64) (writes : Bytes)
  | abort (id : Int64)

inductive TxnRequest
  | none | get | commit | abort
  deriving DecidableEq

/-- The slot that the callers and the update function share. -/
structure TxnState where
  req : TxnRequest
  getPath : Bytes
  getPort : Int64
  writes : Bytes
  attempt : Nat

def TxnState.start : TxnState := ⟨.none, [], 0, [], 0⟩

/-- The part of a call that holds the lock. -/
def TxnState.accept (state : TxnState) : TxnCall → TxnState
  | .get _ path port => { state with getPath := path, getPort := port, req := .get }
  | .commit _ writes => { state with writes := writes, req := .commit }
  | .abort _ => { state with req := .abort }

/-- How the update function returns. With `ok` the SDK goes on to commit the
writes that were applied. -/
inductive TxnResult
  | ok (writes : Bytes)
  | cancelled
  | invalidArgument

/-- Where the update function is. Only `reading`, `answered` and `applying` are
points inside of an attempt at which it does not hold the lock or wait. -/
inductive Lambda
  | idle
  | waiting
  | reading (path : Bytes) (reply : Int64)
  | answered
  | applying (writes : Bytes)
  | returned (result : TxnResult)
  | threw

/-- It is in an attempt, and has not taken the request that ends it. -/
def Lambda.open : Lambda → Bool
  | .waiting | .reading _ _ | .answered => true
  | _ => false

def Lambda.stopped : Lambda → Bool
  | .idle | .returned _ => true
  | _ => false

theorem Lambda.stopped_not_open {lambda : Lambda} (h : lambda.stopped = true) :
    lambda.open = false := by
  cases lambda <;> first | rfl | cases h

/-- A transaction on the native side. `callers` are the calls that have found
the state and not locked it yet. -/
structure Native where
  registered : Bool
  state : TxnState
  lambda : Lambda
  callers : List TxnCall

def Native.start : Native := ⟨true, .start, .idle, []⟩

inductive Event
  | accepted (c : TxnCall)
  | began (attempt : Nat)
  | taken
  | answered (path : Bytes) (port : Int64)

/-- From the wait on, with the lock held. -/
def serve (s : Native) : Native × List Event :=
  match s.state.req with
  | .none => ({ s with lambda := .waiting }, [])
  | .get =>
    ({ s with lambda := .reading s.state.getPath s.state.getPort,
              state := { s.state with req := .none } }, [.taken])
  | .abort =>
    ({ s with lambda := .returned .cancelled, state := { s.state with req := .none } }, [.taken])
  | .commit =>
    ({ s with lambda := .applying s.state.writes,
              state := { s.state with writes := [], req := .none } }, [.taken])

theorem serve_registered (s : Native) : (serve s).1.registered = s.registered := by
  unfold serve
  split <;> rfl

/-- What ApplyWrites comes to. An SDK exception leaves the update function. -/
inductive Applied
  | ok | refused | threw

/-- A step of a caller, of the update function, or of the SDK that runs it. -/
inductive Action
  | call (c : TxnCall)
  | lock (i : Nat)
  | run
  | wake
  | answer
  | relock
  | apply (r : Applied)
  | finish

/-- A call that finds no state returns -1 and is no step. The SDK's
`Document(path)` throws for a path it does not take. -/
def step (document : Bytes → Bool) (s : Native) : Action → Option (Native × List Event)
  | .call c => if s.registered then some ({ s with callers := s.callers ++ [c] }, []) else none
  | .lock i =>
    match s.callers[i]? with
    | some c =>
      some ({ s with callers := s.callers.eraseIdx i, state := s.state.accept c }, [.accepted c])
    | none => none
  | .run =>
    if s.registered && s.lambda.stopped then
      let state := { s.state with attempt := s.state.attempt + 1 }
      let r := serve { s with state := state }
      some (r.1, .began state.attempt :: r.2)
    else none
  | .wake =>
    match s.lambda with
    | .waiting => if s.state.req = .none then none else some (serve s)
    | _ => none
  | .answer =>
    match s.lambda with
    | .reading path reply =>
      if document path then some ({ s with lambda := .answered }, [.answered path reply])
      else some ({ s with lambda := .threw }, [])
    | _ => none
  | .relock =>
    match s.lambda with
    | .answered => some (serve s)
    | _ => none
  | .apply r =>
    match s.lambda, r with
    | .applying writes, .ok => some ({ s with lambda := .returned (.ok writes) }, [])
    | .applying _, .refused => some ({ s with lambda := .returned .invalidArgument }, [])
    | .applying _, .threw => some ({ s with lambda := .threw }, [])
    | _, _ => none
  | .finish =>
    if s.registered && s.lambda.stopped then some ({ s with registered := false }, []) else none

end Firestore
