import FirebaseFfi.Assoc.Assign
import FirebaseFfi.Dart.Snapshot
import FirebaseFfi.Firestore.DartCodec
import FirebaseFfi.Firestore.Query
import Mathlib.Logic.Function.Basic

namespace Firestore
open Cbor Dart

/-- A value of the plugin. A Timestamp keeps its nanoseconds below a second. From
`delete` on they are the FieldValues, whose delegates are made from their elements
by _valueToFfi. `other` is an object of any other class. -/
inductive PluginValue
  | null
  | bool (b : Bool)
  | int (i : Int64)
  | double (bits : UInt64)
  | string (s : Bytes)
  | uint8List (b : Bytes)
  | timestamp (seconds : Int64) (nanoseconds : Int32)
  | geoPoint (latitude longitude : UInt64)
  | reference (path : Bytes)
  | blob (b : Bytes)
  | list (items : List PluginValue)
  | map (entries : List (Bytes × PluginValue))
  | other (id : Nat)
  | delete
  | serverTimestamp
  | arrayUnion (values : List PluginValue)
  | arrayRemove (values : List PluginValue)
  | incrementInt (by' : Int64)
  | incrementDouble (by' : UInt64)

/-- `v.map` makes a map of its own, in which a key comes once. -/
def mapObject (entries : List (Bytes × Object)) : Object :=
  .map ((Assoc.assignAll [] entries).map fun e => (.string e.1, e.2))

mutual
def valueToFfi : PluginValue → Object
  | .null => .null
  | .bool b => .bool b
  | .int i => .int i
  | .double d => .double d
  | .string s => .string s
  -- A Uint8List is a list of its bytes.
  | .uint8List b => .list (b.map fun byte => .int (.ofNat byte.toNat))
  | .timestamp s n => .timestamp s n.toInt64
  | .geoPoint a b => .geoPoint a b
  | .reference p => .reference p
  | .blob b => .uint8List b
  | .list vs => .list (valuesToFfi vs)
  | .map es => mapObject (entriesToFfi es)
  | .other id => .other id
  | .delete => .delete
  | .serverTimestamp => .serverTimestamp
  | .arrayUnion vs => .arrayUnion (valuesToFfi vs)
  | .arrayRemove vs => .arrayRemove (valuesToFfi vs)
  | .incrementInt i => .incrementInt i
  | .incrementDouble d => .incrementDouble d

def valuesToFfi : List PluginValue → List Object
  | [] => []
  | v :: vs => valueToFfi v :: valuesToFfi vs

def entriesToFfi : List (Bytes × PluginValue) → List (Bytes × Object)
  | [] => []
  | (k, v) :: es => (k, valueToFfi v) :: entriesToFfi es
end

/-- The field of a clause. `other` is what `'$field'` gives. -/
inductive PluginField
  | documentId
  | fieldPath (components : List Bytes)
  | other (text : Bytes)

def fieldName : PluginField → Bytes
  | .documentId => ascii "__name__"
  | .fieldPath components => (ascii ".").intercalate components
  | .other text => text

/-- A condition of the plugin is a list of three, whose operator is a string. -/
structure Condition where
  field : PluginField
  op : Bytes
  value : PluginValue

/-- An order of the plugin is a list of two. -/
structure Order where
  field : PluginField
  descending : Bool

/-- A where clause of the binding. -/
structure Where where
  field : Bytes
  op : Bytes
  value : Object

structure OrderBy where
  field : Bytes
  descending : Bool

/-- What the parameters of a query hold under the keys that are read. -/
structure Parameters where
  wheres : List Condition
  orderBy : List Order
  limits : LimitKey → Option Int64
  cursors : CursorKey → Option (List PluginValue)

/-- The defaults that QueryPlatform seeds. -/
def Parameters.seeded : Parameters := ⟨[], [], fun _ => none, fun _ => none⟩

structure FfiQuery where
  collectionPath : Bytes
  isGroup : Bool
  parameters : Parameters

namespace FfiQuery

def start (collectionPath : Bytes) (isGroup : Bool) : FfiQuery :=
  ⟨collectionPath, isGroup, .seeded⟩

section Builders

variable (q : FfiQuery)

/-- `{...parameters, ...changes}` -/
def update (changes : Parameters → Parameters) : FfiQuery :=
  { q with parameters := changes q.parameters }

def where' (conditions : List Condition) : FfiQuery :=
  q.update fun p => { p with wheres := p.wheres ++ conditions }

def orderBy (orders : List Order) : FfiQuery :=
  q.update fun p => { p with orderBy := p.orderBy ++ orders }

/-- `{key: fields.toList()}` -/
def cut (key : CursorKey) (fields : List PluginValue) : FfiQuery :=
  q.update fun p => { p with cursors := Function.update p.cursors key (some fields) }

def startAt (fields : List PluginValue) : FfiQuery := q.cut .startAt fields
def startAfter (fields : List PluginValue) : FfiQuery := q.cut .startAfter fields
def endAt (fields : List PluginValue) : FfiQuery := q.cut .endAt fields
def endBefore (fields : List PluginValue) : FfiQuery := q.cut .endBefore fields

/-- `{'orderBy': orders.toList(), key: values.toList()}` -/
def cutDocument (key : CursorKey) (orders : List Order) (values : List PluginValue) : FfiQuery :=
  (q.cut key values).update fun p => { p with orderBy := orders }

def startAtDocument (orders : List Order) (values : List PluginValue) : FfiQuery :=
  q.cutDocument .startAt orders values
def startAfterDocument (orders : List Order) (values : List PluginValue) : FfiQuery :=
  q.cutDocument .startAfter orders values
def endAtDocument (orders : List Order) (values : List PluginValue) : FfiQuery :=
  q.cutDocument .endAt orders values
def endBeforeDocument (orders : List Order) (values : List PluginValue) : FfiQuery :=
  q.cutDocument .endBefore orders values

def setLimit (key : LimitKey) (n : Int64) : FfiQuery :=
  q.update fun p => { p with limits := Function.update p.limits key (some n) }

def limit (n : Int64) : FfiQuery := q.setLimit .limit n
def limitToLast (n : Int64) : FfiQuery := q.setLimit .limitToLast n

def whereClauses : List Where :=
  q.parameters.wheres.map fun c => ⟨fieldName c.field, c.op, valueToFfi c.value⟩

def orderClauses : List OrderBy :=
  q.parameters.orderBy.map fun o => ⟨fieldName o.field, o.descending⟩

/-- `_cursor`. An empty list is as none. -/
def cursor (key : CursorKey) : Option (List Object) :=
  match q.parameters.cursors key with
  | none | some [] => none
  | some (v :: vs) => some (valuesToFfi (v :: vs))

end Builders

end FfiQuery

/-- `[w.field, w.op, w.value]` -/
def Where.spec (w : Where) : Object := .list [.string w.field, .string w.op, w.value]

/-- `[o.field, o.descending ? 'desc' : 'asc']` -/
def OrderBy.spec (o : OrderBy) : Object :=
  .list [.string o.field, .string (ascii (if o.descending then "desc" else "asc"))]

/-- The entries of the map that _querySpec makes, in order. -/
def querySpec (wheres : List Where) (orderBy : List OrderBy) (limit limitToLast : Option Int64)
    (startAt startAfter endAt endBefore : Option (List Object)) (collectionGroup : Bool) :
    List (SpecKey × Object) :=
  (if collectionGroup then [(.collectionGroup, .bool true)] else []) ++
  (if wheres.isEmpty then [] else [(.wheres, .list (wheres.map Where.spec))]) ++
  (if orderBy.isEmpty then [] else [(.orderBy, .list (orderBy.map OrderBy.spec))]) ++
  (limit.map fun n => (SpecKey.limit .limit, Object.int n)).toList ++
  (limitToLast.map fun n => (SpecKey.limit .limitToLast, Object.int n)).toList ++
  (startAt.map fun vs => (SpecKey.cursor .startAt, Object.list vs)).toList ++
  (startAfter.map fun vs => (SpecKey.cursor .startAfter, Object.list vs)).toList ++
  (endAt.map fun vs => (SpecKey.cursor .endAt, Object.list vs)).toList ++
  (endBefore.map fun vs => (SpecKey.cursor .endBefore, Object.list vs)).toList

def specObject (spec : List (SpecKey × Object)) : Object :=
  .map (spec.map fun e => (.string e.1.name, e.2))

def encodeSpec (package : CborPackage) (spec : List (SpecKey × Object)) : Except Thrown Bytes :=
  if spec.isEmpty then .ok []
  else do return package.encode (← encodeFirestoreValue package.toString (specObject spec))

/-- The specification that get and snapshots hand over. -/
def FfiQuery.spec (q : FfiQuery) : List (SpecKey × Object) :=
  querySpec q.whereClauses q.orderClauses (q.parameters.limits .limit)
    (q.parameters.limits .limitToLast) (q.cursor .startAt) (q.cursor .startAfter)
    (q.cursor .endAt) (q.cursor .endBefore) q.isGroup

/-- The native query that is run for get and snapshots. -/
def FfiQuery.Runs (sdk : Sdk) (package : CborPackage) (q : FfiQuery) (query : Query) : Prop :=
  ∃ bytes, encodeSpec package q.spec = .ok bytes ∧
    buildQuery sdk (Tinycbor.cString q.collectionPath) bytes = .ok query

/-- A call of the app on the plugin's query. A document cursor comes with the
orders and the values that the plugin reads out of the snapshot. -/
inductive PluginCall
  | where' (conditions : List Condition)
  | orderBy (orders : List Order)
  | limit (key : LimitKey) (n : Int64)
  | cursor (key : CursorKey) (fields : List PluginValue)
  | document (key : CursorKey) (orders : List Order) (values : List PluginValue)

/-- The plugin's `where` and `orderBy` read the list in the parameters and hand
over the whole of it with what is new. -/
def FfiQuery.call (q : FfiQuery) : PluginCall → FfiQuery
  | .where' conditions => q.where' (q.parameters.wheres ++ conditions)
  | .orderBy orders => q.orderBy (q.parameters.orderBy ++ orders)
  | .limit .limit n => q.limit n
  | .limit .limitToLast n => q.limitToLast n
  | .cursor .startAt fields => q.startAt fields
  | .cursor .startAfter fields => q.startAfter fields
  | .cursor .endAt fields => q.endAt fields
  | .cursor .endBefore fields => q.endBefore fields
  | .document .startAt orders values => q.startAtDocument orders values
  | .document .startAfter orders values => q.startAfterDocument orders values
  | .document .endAt orders values => q.endAtDocument orders values
  | .document .endBefore orders values => q.endBeforeDocument orders values

/-- A chain of calls on a collection or a collection group. -/
def FfiQuery.chain (collectionPath : Bytes) (isGroup : Bool) (calls : List PluginCall) : FfiQuery :=
  calls.foldl FfiQuery.call (.start collectionPath isGroup)

end Firestore
