import FirebaseFfi.Firestore.Consults
import FirebaseFfi.Firestore.TxnTable

namespace Firestore
open Assoc Cbor
open Dart (ascii)

/-- What the calls of the SDK take, rather than throw. -/
structure SdkCalls extends Sdk where
  get : Query → Bool
  addSnapshotListener : Query → Bool
  documentListener : Bytes → Bool
  count : Query → Bool
  sum : Query → Bytes → Bool
  average : Query → Bytes → Bool
  transactionGet : Bytes → Bool

/-- How a call comes back: with a code, and with or without a call of the SDK
that threw, or with the SDK's exception. -/
inductive Exit
  | returned (threw : Bool) (code : Int64)
  | left

/-- A call of an entry point. A null pointer is none, as a null spec is empty. -/
inductive FsCall
  | useEmulator (host : Option Bytes) (port : Int64)
  | init (app instance' success : Bool)
  | set (docPath cbor : Option Bytes)
  | query (collectionPath : Option Bytes) (spec : Bytes)
  | queryListen (collectionPath : Option Bytes) (spec : Bytes)
  | sum (collectionPath : Option Bytes) (spec : Bytes) (field : Option Bytes)
  | average (collectionPath : Option Bytes) (spec : Bytes) (field : Option Bytes)
  | count (collectionPath : Option Bytes) (spec : Bytes)
  | batchCommit (writes : Bytes)
  | txnBegin
  | txnGet (id : Int64) (docPath : Option Bytes) (port : Int64)
  | txnCommit (id : Int64) (writes : Bytes)
  | txnAbort (id : Int64)
  | delete (docPath : Option Bytes)
  | get (docPath : Option Bytes)
  | listen (docPath : Option Bytes)
  | unlisten (id : Int64)

/-- The state behind the entry points. -/
structure Library where
  ready : Bool
  listeners : List Int64
  nextListener : Int64
  table : TxnTable.Table

def Library.start : Library := ⟨false, [], 1, .start⟩

section Calls

variable (sdk : SdkCalls)

/-- A call of the SDK with no handler around it. -/
def unhandled (takes : Bool) (next : Exit) : Exit := if takes then next else .left

/-- A call of the SDK inside of a try block. -/
def handled (takes : Bool) (next : Exit) : Exit := if takes then next else .returned true (-4)

/-- `Query query = g_firestore->Collection("_")` and then BuildQuery, which
returns a code for what the SDK throws in it. -/
def withQuery (path spec : Bytes) (next : Query → Exit) : Exit :=
  unhandled (sdk.base false (ascii "_"))
    (match buildQuery sdk.toSdk path spec with
    | .ok query => next query
    | .error .threw => .returned true (-4)
    | .error _ => .returned false (-3))

def fdbFsUseEmulator (ready : Bool) (host : Option Bytes) (port : Int64) : Exit :=
  if !ready then .returned false (-1)
  else match host with
    | some (_ :: _) => if 0 < port ∧ port ≤ 65535 then .returned false 0 else .returned false (-2)
    | _ => .returned false (-2)

/-- `instance'` is what GetInstance returns and `success` the result beside it. -/
def fdbFsInit (ready app instance' success : Bool) : Exit × Bool :=
  if ready then (.returned false 0, true)
  else if !app then (.returned false (-1), false)
  else (.returned false (if instance' && success then 0 else -2), instance')

def fdbFsSet (ready : Bool) (docPath cbor : Option Bytes) : Exit :=
  if !ready then .returned false (-1)
  else match docPath, cbor with
    | some path, some cbor =>
      match parseDocumentCbor sdk.document cbor with
      | .ok _ => unhandled (sdk.document path) (.returned false 0)
      | .error .threw => .left
      | .error _ => .returned false (-3)
    | _, _ => .returned false (-2)

def fdbFsQuery (ready : Bool) (collectionPath : Option Bytes) (spec : Bytes) : Exit :=
  if !ready then .returned false (-1)
  else match collectionPath with
    | none => .returned false (-2)
    | some path =>
      withQuery sdk path spec fun query => unhandled (sdk.get query) (.returned false 0)

/-- With `id`, the number taken from g_next_listener once there is a query. -/
def fdbFsQueryListen (ready : Bool) (id : Int64) (collectionPath : Option Bytes) (spec : Bytes) :
    Exit :=
  if !ready then .returned false (-1)
  else match collectionPath with
    | none => .returned false (-2)
    | some path =>
      withQuery sdk path spec fun query =>
        unhandled (sdk.addSnapshotListener query) (.returned false id)

/-- The field is not to be empty. Sum and Average are called in a try block. -/
def aggregateOne (ready : Bool) (collectionPath : Option Bytes) (spec : Bytes)
    (field : Option Bytes) (average : Bool) : Exit :=
  if !ready then .returned false (-1)
  else match collectionPath, field with
    | some path, some (c :: field) =>
      withQuery sdk path spec fun query =>
        handled (if average then sdk.average query (c :: field) else sdk.sum query (c :: field))
          (.returned false 0)
    | _, _ => .returned false (-2)

def fdbFsCount (ready : Bool) (collectionPath : Option Bytes) (spec : Bytes) : Exit :=
  if !ready then .returned false (-1)
  else match collectionPath with
    | none => .returned false (-2)
    | some path =>
      withQuery sdk path spec fun query => unhandled (sdk.count query) (.returned false 0)

/-- A call comes back with its code, or with what threw. -/
def exitOf : Except Failure Int64 → Exit
  | .ok code => .returned false code
  | .error _ => .left

/-- What fdb_fs_delete and fdb_fs_get have in common: a document, and a call on
it that the SDK answers in a future. -/
def onDocument (ready : Bool) (docPath : Option Bytes) : Exit :=
  if !ready then .returned false (-1)
  else match docPath with
    | none => .returned false (-2)
    | some path => unhandled (sdk.document path) (.returned false 0)

def fdbFsDelete (ready : Bool) (docPath : Option Bytes) : Exit := onDocument sdk ready docPath

def fdbFsGet (ready : Bool) (docPath : Option Bytes) : Exit := onDocument sdk ready docPath

def fdbFsListen (ready : Bool) (id : Int64) (docPath : Option Bytes) : Exit :=
  if !ready then .returned false (-1)
  else match docPath with
    | none => .returned false (-2)
    | some path =>
      unhandled (sdk.document path) (unhandled (sdk.documentListener path) (.returned false id))

/-- fdb_fs_txn_get, fdb_fs_txn_commit and fdb_fs_txn_abort, up to the lock of the
state they find. What they return is known by then. -/
def txnCall (s : Library) (c : TxnCall) (null : Bool) : Library × List Exit :=
  match s.table.txns.lookup c.id with
  | none => (s, [.returned false (-1)])
  | some _ =>
    if null then (s, [.returned false (-2)])
    else ({ s with table := (TxnTable.step sdk.document s.table (.call c)).getD s.table },
      [.returned false 0])

/-- fdb_fs_txn_begin, up to its `g_next_txn++`. -/
def fdbFsTxnBegin (s : Library) : Library × List Exit :=
  if !s.ready then (s, [.returned false (-1)])
  else ({ s with table := (TxnTable.step sdk.document s.table .register).getD s.table }, [])

def fdbFsUnlisten (s : Library) (id : Int64) : Library × List Exit :=
  if s.listeners.contains id then
    ({ s with listeners := s.listeners.erase id }, [.returned false 0])
  else (s, [.returned false (-1)])

/-- A listener comes back as its number. -/
def Library.listening (s : Library) : Exit → Library
  | .returned _ code =>
    if 0 < code then { s with listeners := s.listeners ++ [code], nextListener := code + 1 } else s
  | .left => s

def call (s : Library) : FsCall → Library × List Exit
  | .useEmulator host port => (s, [fdbFsUseEmulator s.ready host port])
  | .init app instance' success =>
    let r := fdbFsInit s.ready app instance' success
    ({ s with ready := r.2 }, [r.1])
  | .set docPath cbor => (s, [fdbFsSet sdk s.ready docPath cbor])
  | .query collectionPath spec => (s, [fdbFsQuery sdk s.ready collectionPath spec])
  | .queryListen collectionPath spec =>
    let exit := fdbFsQueryListen sdk s.ready s.nextListener collectionPath spec
    (s.listening exit, [exit])
  | .sum collectionPath spec field => (s, [aggregateOne sdk s.ready collectionPath spec field false])
  | .average collectionPath spec field =>
    (s, [aggregateOne sdk s.ready collectionPath spec field true])
  | .count collectionPath spec => (s, [fdbFsCount sdk s.ready collectionPath spec])
  | .batchCommit writes => (s, [exitOf (fdbFsBatchCommit s.ready sdk.document writes).code])
  | .txnBegin => fdbFsTxnBegin sdk s
  | .txnGet id docPath port => txnCall sdk s (.get id (docPath.getD []) port) docPath.isNone
  | .txnCommit id writes => txnCall sdk s (.commit id writes) false
  | .txnAbort id => txnCall sdk s (.abort id) false
  | .delete docPath => (s, [fdbFsDelete sdk s.ready docPath])
  | .get docPath => (s, [fdbFsGet sdk s.ready docPath])
  | .listen docPath =>
    let exit := fdbFsListen sdk s.ready s.nextListener docPath
    (s.listening exit, [exit])
  | .unlisten id => fdbFsUnlisten s id

/-- A call, or what follows in a transaction that has begun. `apply` is the
ApplyWrites of its update function. -/
inductive FsAction
  | call (c : FsCall)
  | txn (a : TxnTable.Action)
  | apply (i : Nat)

/-- A step of a transaction that is none of a call, and not its ApplyWrites. -/
def follows : TxnTable.Action → Bool
  | .register | .call _ | .thread _ (.apply _) => false
  | .number _ | .answer _ | .lock _ _ | .thread _ _ | .complete _ => true

/-- Where the update function of a transaction is. -/
def lambdaOf (t : TxnTable.Table) (i : Nat) : Option Lambda := t.begins[i]?.map (·.native.lambda)

/-- The update function reads a document it makes of the path. -/
def SdkCalls.reads (path : Bytes) : Bool := sdk.document path && sdk.transactionGet path

/-- What comes back in a step of a transaction, which leads to a table: the id, or
what the update function throws. -/
def exits (t : TxnTable.Table) : TxnTable.Action → List Exit
  | .answer i => (t.begins[i]?.bind (·.id)).toList.map (.returned false)
  | .thread i _ =>
    match lambdaOf t i with
    | some .threw => [.left]
    | _ => []
  | _ => []

def follow (s : Library) (a : TxnTable.Action) : Option (Library × List Exit) :=
  (TxnTable.step sdk.reads s.table a).map fun t => ({ s with table := t }, exits t a)

def Library.step (s : Library) : FsAction → Option (Library × List Exit)
  | .call c => some (call sdk s c)
  | .txn a => if follows a then follow sdk s a else none
  | .apply i =>
    match lambdaOf s.table i with
    | some (.applying writes) => follow sdk s (.thread i (.apply (applied sdk.document writes)))
    | _ => none

end Calls

end Firestore
