import FirebaseFfi.Dart.Value
import FirebaseFfi.Firestore.Decode

namespace Firestore
open Cbor Tinycbor
open Dart (ascii)

/-- A field of a query: a path, or the id of the document. -/
inductive Field
  | documentId
  | path (name : Bytes)
  deriving DecidableEq

def isDocumentId (field : Bytes) : Bool := field = ascii "__name__"

def fieldOf (field : Bytes) : Field := if isDocumentId field then .documentId else .path field

/-- The operators that take one value. -/
inductive Comparison
  | equalTo | notEqualTo | lessThan | lessThanOrEqualTo | greaterThan | greaterThanOrEqualTo
  | arrayContains
  deriving DecidableEq

/-- The operators that take the values of an array. -/
inductive Membership
  | arrayContainsAny | isIn | notIn
  deriving DecidableEq

inductive Operator
  | compare (c : Comparison)
  | member (m : Membership)
  deriving DecidableEq

def Operator.name : Operator → Bytes
  | .compare .equalTo => ascii "=="
  | .compare .notEqualTo => ascii "!="
  | .compare .lessThan => ascii "<"
  | .compare .lessThanOrEqualTo => ascii "<="
  | .compare .greaterThan => ascii ">"
  | .compare .greaterThanOrEqualTo => ascii ">="
  | .compare .arrayContains => ascii "array-contains"
  | .member .arrayContainsAny => ascii "array-contains-any"
  | .member .isIn => ascii "in"
  | .member .notIn => ascii "not-in"

def operators : List Operator :=
  [.compare .equalTo, .compare .notEqualTo, .compare .lessThan, .compare .lessThanOrEqualTo,
    .compare .greaterThan, .compare .greaterThanOrEqualTo, .compare .arrayContains,
    .member .arrayContainsAny, .member .isIn, .member .notIn]

def operatorOf (op : Bytes) : Option Operator := operators.find? fun o => o.name = op

/-- The operators bound on the document id. -/
def Operator.onDocumentId (o : Operator) : Bool := o = .compare .equalTo ∨ o = .member .isIn

/-- One call of a `Where` method of the SDK. -/
inductive Filter
  | compare (field : Field) (c : Comparison) (value : FieldValue)
  | member (field : Field) (m : Membership) (values : List FieldValue)

inductive Direction
  | ascending | descending
  deriving DecidableEq

inductive LimitKey
  | limit | limitToLast
  deriving DecidableEq

inductive CursorKey
  | startAt | startAfter | endAt | endBefore
  deriving DecidableEq

def CursorKey.isStart : CursorKey → Bool
  | .startAt | .startAfter => true
  | .endAt | .endBefore => false

/-- A method of the SDK's Query that returns a narrower query. -/
inductive Constraint
  | filter (f : Filter)
  | orderBy (field : Field) (direction : Direction)
  | limit (key : LimitKey) (n : Int32)
  | cursor (key : CursorKey) (values : List FieldValue)

/-- What a query of the SDK holds. There is room for one limit of either kind
and for one cursor at each end. -/
structure Query where
  collectionGroup : Bool
  path : Bytes
  filters : List Filter
  orders : List (Field × Direction)
  limit : Option (LimitKey × Int32)
  startCursor : Option (CursorKey × List FieldValue)
  endCursor : Option (CursorKey × List FieldValue)

/-- `Collection(path)` or `CollectionGroup(path)`. -/
def Query.base (group : Bool) (path : Bytes) : Query where
  collectionGroup := group
  path := path
  filters := []
  orders := []
  limit := none
  startCursor := none
  endCursor := none

/-- Filters and orders add up. A limit or a cursor takes the place of the last. -/
def Query.add (q : Query) : Constraint → Query
  | .filter f => { q with filters := q.filters ++ [f] }
  | .orderBy field direction => { q with orders := q.orders ++ [(field, direction)] }
  | .limit key n => { q with limit := some (key, n) }
  | .cursor key values =>
    if key.isStart then { q with startCursor := some (key, values) }
    else { q with endCursor := some (key, values) }

/-- What the SDK makes a query of, rather than throw. -/
structure Sdk where
  document : Document
  base : Bool → Bytes → Bool
  takes : Query → Constraint → Bool

def Sdk.collection (sdk : Sdk) (group : Bool) (path : Bytes) : Except Failure Query :=
  if sdk.base group path then .ok (.base group path) else .error .threw

def Sdk.apply (sdk : Sdk) (q : Query) (c : Constraint) : Except Failure Query :=
  if sdk.takes q c then .ok (q.add c) else .error .threw

def Operator.filter (o : Operator) (field : Field) (value : FieldValue) : Option Filter :=
  match o, value with
  | .compare c, v => some (.compare field c v)
  | .member m, .array vs => some (.member field m vs)
  | .member _, _ => none

def applyWhere (sdk : Sdk) (q : Query) (field op : Bytes) (value : FieldValue) :
    Except Failure Query :=
  match operatorOf op with
  | none => .error .refused
  | some o =>
    if isDocumentId field && !o.onDocumentId then .error .refused
    else match o.filter (fieldOf field) value with
      | none => .error .refused
      | some f => sdk.apply q (.filter f)

def readText (it : CborValue) : Except Failure (CborValue × Bytes) :=
  if it.type == .textString then do
    let (text, it) ← checked (cborValueDupString it)
    return (it, text)
  else
    .error .refused

/-- What follows the value in the clause is not looked at. -/
def applyWhereClause (sdk : Sdk) (clause : CborValue) (q : Query) : Except Failure Query := do
  let it ← checked (cborValueEnterContainer clause)
  let (it, field) ← readText it
  let (it, op) ← readText it
  let (_, value) ← decodeValue sdk.document clause.src.length it
  applyWhere sdk q field op value

def Direction.name : Direction → Bytes
  | .ascending => ascii "asc"
  | .descending => ascii "desc"

def directionOf (dir : Bytes) : Option Direction :=
  [.ascending, .descending].find? fun d : Direction => d.name = dir

/-- What follows the direction in the clause is not looked at. -/
def applyOrderClause (sdk : Sdk) (clause : CborValue) (q : Query) : Except Failure Query := do
  let it ← checked (cborValueEnterContainer clause)
  let (it, field) ← readText it
  let (_, dir) ← readText it
  match directionOf dir with
  | none => .error .refused
  | some direction => sdk.apply q (.orderBy (fieldOf field) direction)

def readCursorValues (sdk : Sdk) (array : CborValue) : Except Failure (List FieldValue) :=
  if array.type == .array then do
    let elem ← checked (cborValueEnterContainer array)
    let (_, values) ← whileNotAtEnd .outOfFuel
      (decodeElement (decodeValue sdk.document array.src.length)) (array.src.length + 1) elem []
    return values
  else
    .error .refused

/-- The clause is applied to a copy of the cursor, which then passes over it. -/
def clauseStep (apply : CborValue → Query → Except Failure Query) (elem : CborValue) (q : Query) :
    Except Failure (CborValue × Query) :=
  if elem.type == .array then do
    let q ← apply elem q
    let elem ← checked (cborValueAdvance elem)
    return (elem, q)
  else
    .error .refused

def applyClauseArray (apply : CborValue → Query → Except Failure Query) (array : CborValue)
    (q : Query) : Except Failure Query :=
  if array.type == .array then do
    let elem ← checked (cborValueEnterContainer array)
    let (_, q) ← whileNotAtEnd .outOfFuel (clauseStep apply) (array.src.length + 1) elem q
    return q
  else
    .error .refused

inductive SpecKey
  | wheres
  | orderBy
  | cursor (key : CursorKey)
  | collectionGroup
  | limit (key : LimitKey)
  deriving DecidableEq

def SpecKey.name : SpecKey → Bytes
  | .wheres => ascii "where"
  | .orderBy => ascii "orderBy"
  | .cursor .startAt => ascii "startAt"
  | .cursor .startAfter => ascii "startAfter"
  | .cursor .endAt => ascii "endAt"
  | .cursor .endBefore => ascii "endBefore"
  | .collectionGroup => ascii "collectionGroup"
  | .limit .limit => ascii "limit"
  | .limit .limitToLast => ascii "limitToLast"

def specKeys : List SpecKey :=
  [.wheres, .orderBy, .cursor .startAt, .cursor .startAfter, .cursor .endAt, .cursor .endBefore,
    .collectionGroup, .limit .limit, .limit .limitToLast]

def specKeyOf (key : Bytes) : Option SpecKey := specKeys.find? fun k => k.name = key

/-- The loop of SpecWantsCollectionGroup, which the first such key ends. -/
def wantsCollectionGroup : Nat → CborValue → Bool
  | 0, _ => false
  | fuel + 1, entry =>
    if cborValueAtEnd entry then false
    else match readText entry with
      | .error _ => false
      | .ok (entry, key) =>
        if specKeyOf key = some .collectionGroup then
          entry.type == .boolean && cborValueGetBoolean entry
        else match cborValueAdvance entry with
          | .error _ => false
          | .ok entry => wantsCollectionGroup fuel entry

def specWantsCollectionGroup (spec : Bytes) : Bool :=
  match cborParserInit spec with
  | .error _ => false
  | .ok map =>
    if map.type == .map then
      match cborValueEnterContainer map with
      | .error _ => false
      | .ok entry => wantsCollectionGroup (spec.length + 1) entry
    else
      false

def int32Max : Int64 := 2 ^ 31 - 1

def readLimit (entry : CborValue) : Except Failure Int32 :=
  let n := cborValueGetInt64 entry
  if entry.type == .integer && 0 < n && n ≤ int32Max then .ok n.toInt32 else .error .refused

/-- The value of an entry is read from a copy of the cursor. -/
def applyEntry (sdk : Sdk) (key : Bytes) (entry : CborValue) (q : Query) : Except Failure Query :=
  match specKeyOf key with
  | some .wheres => applyClauseArray (applyWhereClause sdk) entry q
  | some .orderBy => applyClauseArray (applyOrderClause sdk) entry q
  | some (.cursor key) => do
    let values ← readCursorValues sdk entry
    if values.isEmpty then .error .refused else sdk.apply q (.cursor key values)
  | some .collectionGroup => .ok q
  | some (.limit key) => do
    let n ← readLimit entry
    sdk.apply q (.limit key n)
  | none => .error .refused

def buildEntry (sdk : Sdk) (entry : CborValue) (q : Query) : Except Failure (CborValue × Query) := do
  let (entry, key) ← readText entry
  let q ← applyEntry sdk key entry q
  let entry ← checked (cborValueAdvance entry)
  return (entry, q)

/-- `refused` is -3 and `threw` is -4. What follows the map is not looked at. -/
def buildQuery (sdk : Sdk) (path spec : Bytes) : Except Failure Query := do
  let query ← sdk.collection (specWantsCollectionGroup spec) path
  if spec = [] then return query
  else
    let map ← checked (cborParserInit spec)
    if map.type == .map then
      let entry ← checked (cborValueEnterContainer map)
      let (_, query) ← whileNotAtEnd .outOfFuel (buildEntry sdk) (spec.length + 1) entry query
      return query
    else
      .error .refused

end Firestore
