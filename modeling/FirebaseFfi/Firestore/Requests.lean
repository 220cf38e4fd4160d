import FirebaseFfi.Calls.Outcomes
import FirebaseFfi.Firestore.EntryPoints
import FirebaseFfi.Firestore.FfiQuery
import FirebaseFfi.Firestore.Measured
import FirebaseFfi.Firestore.ResultReads
import FirebaseFfi.Firestore.Writes

namespace Firestore
open Calls Cbor Dart Machine Tinycbor

/-- What the SDK is asked for by a call that it answers in a future. -/
inductive FsRequest
  | set (path : Bytes) (data : MapFieldValue) (merge : Bool)
  | delete (path : Bytes)
  | get (path : Bytes)
  | query (query : Query)
  | count (query : Query)
  | sum (query : Query) (field : Bytes)
  | average (query : Query) (field : Bytes)
  | commit (batch : List SdkWrite)

/-- A call of an entry point that the SDK answers in a future. -/
inductive NativeCall
  | set (docPath cbor : Option Bytes) (merge : Bool)
  | delete (docPath : Option Bytes)
  | get (docPath : Option Bytes)
  | query (collectionPath : Option Bytes) (spec : Bytes)
  | count (collectionPath : Option Bytes) (spec : Bytes)
  | sum (collectionPath : Option Bytes) (spec : Bytes) (field : Option Bytes)
  | average (collectionPath : Option Bytes) (spec : Bytes) (field : Option Bytes)
  | batchCommit (writes : Bytes)

section Native

variable (sdk : SdkCalls) (ready : Bool)

/-- A call that the SDK takes, with no handler around it. -/
def taken (takes : Bool) (request : FsRequest) : Except Exit FsRequest :=
  if takes then .ok request else .error .left

/-- A call of a document's path. -/
def ofDocument (docPath : Option Bytes) (request : Bytes → FsRequest) : Except Exit FsRequest :=
  if !ready then .error (.returned false (-1))
  else
    match docPath with
    | none => .error (.returned false (-2))
    | some path => taken (sdk.document path) (request path)

/-- A call of a query that is built first. -/
def ofQuery (path spec : Bytes) (next : Query → Except Exit FsRequest) : Except Exit FsRequest :=
  if !sdk.base false (ascii "_") then .error .left
  else
    match buildQuery sdk.toSdk path spec with
    | .ok query => next query
    | .error .threw => .error (.returned true (-4))
    | .error _ => .error (.returned false (-3))

def ofCollection (collectionPath : Option Bytes) (spec : Bytes)
    (next : Query → Except Exit FsRequest) : Except Exit FsRequest :=
  if !ready then .error (.returned false (-1))
  else
    match collectionPath with
    | none => .error (.returned false (-2))
    | some path => ofQuery sdk path spec next

/-- Sum and Average are called in a try block. -/
def ofField (collectionPath : Option Bytes) (spec : Bytes) (field : Option Bytes)
    (takes : Query → Bytes → Bool) (request : Query → Bytes → FsRequest) :
    Except Exit FsRequest :=
  if !ready then .error (.returned false (-1))
  else
    match collectionPath, field with
    | some path, some (c :: field) =>
      ofQuery sdk path spec fun query =>
        if takes query (c :: field) then .ok (request query (c :: field))
        else .error (.returned true (-4))
    | _, _ => .error (.returned false (-2))

def ofData (docPath cbor : Option Bytes) (merge : Bool) : Except Exit FsRequest :=
  if !ready then .error (.returned false (-1))
  else
    match docPath, cbor with
    | some path, some cbor =>
      match parseDocumentCbor sdk.document cbor with
      | .ok data => taken (sdk.document path) (.set path data merge)
      | .error .threw => .error .left
      | .error _ => .error (.returned false (-3))
    | _, _ => .error (.returned false (-2))

def ofBatch (writes : Bytes) : Except Exit FsRequest :=
  if !ready then .error (.returned false (-1))
  else
    match applyWrites sdk.document writes with
    | (batch, .ok ()) => .ok (.commit batch)
    | (_, .error .refused) => .error (.returned false (-3))
    | (_, .error _) => .error .left

/-- What a call asks the SDK for, or how it comes back without asking. -/
def NativeCall.request : NativeCall → Except Exit FsRequest
  | .set docPath cbor merge => ofData sdk ready docPath cbor merge
  | .delete docPath => ofDocument sdk ready docPath .delete
  | .get docPath => ofDocument sdk ready docPath .get
  | .query collectionPath spec =>
    ofCollection sdk ready collectionPath spec fun query => taken (sdk.get query) (.query query)
  | .count collectionPath spec =>
    ofCollection sdk ready collectionPath spec fun query => taken (sdk.count query) (.count query)
  | .sum collectionPath spec field => ofField sdk ready collectionPath spec field sdk.sum .sum
  | .average collectionPath spec field =>
    ofField sdk ready collectionPath spec field sdk.average .average
  | .batchCommit writes => ofBatch sdk ready writes

/-- The entry point that is called. -/
def NativeCall.entry : NativeCall → FsCall
  | .set docPath cbor _ => .set docPath cbor
  | .delete docPath => .delete docPath
  | .get docPath => .get docPath
  | .query collectionPath spec => .query collectionPath spec
  | .count collectionPath spec => .count collectionPath spec
  | .sum collectionPath spec field => .sum collectionPath spec field
  | .average collectionPath spec field => .average collectionPath spec field
  | .batchCommit writes => .batchCommit writes

/-- How a call comes back. -/
def exitWith : Except Exit FsRequest → Exit
  | .ok _ => .returned false 0
  | .error exit => exit

end Native

section Completion

/-- What the future of a request is completed with, at the time that goes into its
buffer. -/
inductive FsCompletion
  | finished (f : Finished)
  | document (postedNs error : Int64) (result : Option Snapshot)
  | documents (postedNs error : Int64) (result : Option (List DocumentSnapshot))
  | count (postedNs error : Int64) (result : Option Int64)
  | value (postedNs error : Int64) (result : Option UInt64)

/-- The callback of fdb_fs_query. -/
def Callback.fdbFsQuery (error : Int64) (result : Option (List DocumentSnapshot)) : Posted :=
  if error ≠ 0 then ⟨-1, []⟩
  else
    match result with
    | none => ⟨-1, []⟩
    | some docs =>
      match serializeQueryResult docs with
      | none => ⟨-2, []⟩
      | some payload => ⟨1, payload⟩

/-- The callbacks of the aggregate queries, with the encoder of a result. -/
def Callback.aggregate {α : Type} (encode : α → CborEncoder → Option CborError × CborEncoder)
    (error : Int64) (result : Option α) : Posted :=
  if error ≠ 0 then ⟨-1, []⟩
  else
    match result with
    | none => ⟨-1, []⟩
    | some a => ⟨1, measured (encode a)⟩

def Callback.fdbFsCount (error : Int64) (result : Option Int64) : Posted :=
  Callback.aggregate (fun n enc => cborEncodeInt enc n) error result

def Callback.aggregateOne (error : Int64) (result : Option UInt64) : Posted :=
  Callback.aggregate (fun v enc => cborEncodeDouble enc v) error result

/-- A message to the port of a call. -/
inductive FsMessage
  | outcome (m : OutcomeMessage)
  | buffer (bytes : Bytes)

def Posted.message (p : Posted) (postedNs : Int64) : FsMessage :=
  .buffer (postDocument postedNs p.seq p.payload)

/-- What a request's callback posts. A future has a result of its own kind. -/
def FsRequest.post : FsRequest → FsCompletion → Option FsMessage
  | .set .., .finished f | .delete _, .finished f | .commit _, .finished f => f.post.map .outcome
  | .get _, .document postedNs error result =>
    some ((Callback.fdbFsGet error result).message postedNs)
  | .query _, .documents postedNs error result =>
    some ((Callback.fdbFsQuery error result).message postedNs)
  | .count _, .count postedNs error result =>
    some ((Callback.fdbFsCount error result).message postedNs)
  | .sum .., .value postedNs error result | .average .., .value postedNs error result =>
    some ((Callback.aggregateOne error result).message postedNs)
  | _, _ => none

end Completion

/-- The arguments of a query but for its cursors. -/
structure Rows where
  wheres : List Where
  orderBy : List OrderBy
  limit : Option Int64
  limitToLast : Option Int64
  collectionGroup : Bool

structure Cursors where
  startAt : Option (List Object)
  startAfter : Option (List Object)
  endAt : Option (List Object)
  endBefore : Option (List Object)

def Rows.spec (r : Rows) (c : Cursors) : List (SpecKey × Object) :=
  querySpec r.wheres r.orderBy r.limit r.limitToLast c.startAt c.startAfter c.endAt c.endBefore
    r.collectionGroup

/-- The functions of the library that await one answer. -/
inductive FsOperation
  | setDocument (path : Bytes) (data : List (Bytes × Object)) (merge : Bool)
  | deleteDocument (path : Bytes)
  | getDocument (path : Bytes)
  | queryCollection (collectionPath : Bytes) (rows : Rows) (cursors : Cursors)
  | countCollection (collectionPath : Bytes) (rows : Rows)
  | sumCollection (collectionPath field : Bytes) (rows : Rows)
  | averageCollection (collectionPath field : Bytes) (rows : Rows)
  | commit (writes : List Write)

/-- What the application has of a call: its future is completed without a value, or
with a reply, or fails with an error, or the call has thrown. -/
inductive FsOutcome
  | completed
  | reply (r : Reply)
  | failed (error : Refusal)
  | threw (thrown : Thrown)

section Dart

variable (package : CborPackage)

/-- `' failed to start ($rc)'` -/
def failedToStart (what : Bytes) (rc : Int64) : Refusal :=
  .state (withCode (what ++ ascii " failed to start") rc)

/-- The operation as the errors have it. -/
def FsOperation.what : FsOperation → Bytes
  | .setDocument path .. => ascii "set " ++ path
  | .deleteDocument path => ascii "delete " ++ path
  | .getDocument path => ascii "get " ++ path
  | .queryCollection collectionPath .. => ascii "query " ++ collectionPath
  | .countCollection collectionPath _ => ascii "count " ++ collectionPath
  | .sumCollection collectionPath .. => ascii "sum " ++ collectionPath
  | .averageCollection collectionPath .. => ascii "average " ++ collectionPath
  | .commit _ => ascii "batch commit"

/-- The error for a code that is not zero. -/
def FsOperation.refused (op : FsOperation) (rc : Int64) : Refusal :=
  match op with
  | .setDocument .. | .deleteDocument _ | .getDocument _ => failedToStart op.what rc
  | .queryCollection .. =>
    if rc = -3 then .argument (ascii "this query cannot be expressed through the ABI")
    else if rc = -4 then .argument (ascii "Firestore refused this query; see stderr")
    else failedToStart op.what rc
  | .countCollection .. =>
    if rc = -3 ∨ rc = -4 then .argument (ascii "this query cannot be counted as expressed")
    else failedToStart op.what rc
  | .sumCollection .. | .averageCollection .. =>
    if rc = -2 then .argument (ascii "a collection path and a field are required")
    else if rc = -3 ∨ rc = -4 then
      .argument (ascii "this query cannot be aggregated as expressed")
    else failedToStart op.what rc
  | .commit _ =>
    if rc = -3 then .argument (ascii "a buffered write could not be encoded")
    else failedToStart op.what rc

/-- The native call of an operation, whose arguments are encoded first. A batch
without writes makes none. -/
def FsOperation.invoke : FsOperation → Except Thrown (Option NativeCall)
  | .setDocument path data merge => do
    let value ← encodeFirestoreValue package.toString (documentData data)
    return some (.set (some (cString path)) (some (package.encode value)) merge)
  | .deleteDocument path => return some (.delete (some (cString path)))
  | .getDocument path => return some (.get (some (cString path)))
  | .queryCollection collectionPath rows cursors => do
    return some (.query (some (cString collectionPath)) (← encodeSpec package (rows.spec cursors)))
  | .countCollection collectionPath rows => do
    return some (.count (some (cString collectionPath))
      (← encodeSpec package (rows.spec ⟨none, none, none, none⟩)))
  | .sumCollection collectionPath field rows => do
    return some (.sum (some (cString collectionPath))
      (← encodeSpec package (rows.spec ⟨none, none, none, none⟩)) (some (cString field)))
  | .averageCollection collectionPath field rows => do
    return some (.average (some (cString collectionPath))
      (← encodeSpec package (rows.spec ⟨none, none, none, none⟩)) (some (cString field)))
  | .commit writes => do
    return (← (⟨writes.map Write.recorded⟩ : FirestoreBatch).commit package).map .batchCommit

/-- The handler of `_awaitOutcome`, and of a batch. -/
def awaitOutcome (what : Bytes) (m : OutcomeMessage) : FsOutcome :=
  if m.ok then .completed else .reply (.error m.code m.message what)

/-- The handler of `_aggregate`. A whole number may arrive as an int. -/
def aggregateCollection (what collectionPath field bytes : Bytes) : Except Thrown Reply := do
  let seq ← seqOf bytes
  if seq < 0 then
    .ok (.error seq (what ++ ascii " failed")
      (what ++ ascii " " ++ collectionPath ++ ascii "." ++ field))
  else do
    let value ← decodeSnapshotValue package bytes
    return .value (match value with
      | .double d => .double d
      | .int i => .double (Num.int i).toDouble
      | _ => .double 0)

/-- What a handler that reads a buffer completes its future with. -/
def FsOperation.reply : FsOperation → Bytes → Except Thrown Reply
  | .getDocument path, bytes => Calls.getDocument package path bytes
  | .queryCollection collectionPath .., bytes =>
    Calls.queryCollection package collectionPath bytes
  | .countCollection collectionPath _, bytes => Calls.countCollection package collectionPath bytes
  | .sumCollection collectionPath field _, bytes =>
    aggregateCollection package (ascii "sum") collectionPath field bytes
  | .averageCollection collectionPath field _, bytes =>
    aggregateCollection package (ascii "average") collectionPath field bytes
  | _, _ => .error .other

/-- The handler of a call, unless it throws. -/
def FsOperation.handle (op : FsOperation) (m : FsMessage) : Option FsOutcome :=
  match op, m with
  | .setDocument .., .outcome m | .deleteDocument _, .outcome m | .commit _, .outcome m =>
    some (awaitOutcome op.what m)
  | op, .buffer bytes =>
    match op.reply package bytes with
    | .ok r => some (.reply r)
    | .error _ => none
  | _, _ => none

end Dart

/-- An operation, and whether there is a Firestore when it is called. -/
structure FsRequestCall where
  operation : FsOperation
  ready : Bool

section Protocol

variable (package : CborPackage) (sdk : SdkCalls)

/-- The port of a call that is refused is closed again. An exception that leaves
the native side does not come back as an outcome. -/
def FsRequestCall.start (c : FsRequestCall) : Except FsOutcome FsRequest :=
  match c.operation.invoke package with
  | .error thrown => .error (.threw thrown)
  | .ok none => .error .completed
  | .ok (some native) =>
    match native.request sdk c.ready with
    | .ok request => .ok request
    | .error (.returned _ rc) => .error (.failed (c.operation.refused rc))
    | .error .left => .error (.threw .other)

def requests : Protocol FsRequestCall FsRequest FsCompletion FsMessage FsOutcome where
  start c := c.start package sdk
  post r f := r.post f
  handle c m := c.operation.handle package m

end Protocol

end Firestore
