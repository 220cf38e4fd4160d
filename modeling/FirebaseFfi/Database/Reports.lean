import FirebaseFfi.Calls.Handlers
import FirebaseFfi.Database.DbQuery
import FirebaseFfi.Database.FfiDataSnapshot
import FirebaseFfi.Database.Listen

namespace Firebase
open Cbor

/-- A std::map with string keys is copied into one with Variant keys. -/
def serializeVariantMap (less : Less) (m : List (Bytes × Variant)) : Option Bytes :=
  serializeVariant (.map (m.foldl (fun out e => emplace less out (.string e.1) e.2) []))

end Firebase

namespace Database
open Assoc Calls Cbor Dart Machine Tinycbor
open Firebase (Less Variant serializeVariant serializeVariantMap Ascending)
open Firestore (maxSize textItem)

/-- What happened to a child. -/
inductive DbChildEvent
  | added | changed | moved | removed
  deriving DecidableEq

/-- A callback of the SDK's ChildListener, with the key before the child's. Of a
child that is removed there is none. -/
inductive ChildCall
  | added (previous : Option Bytes)
  | changed (previous : Option Bytes)
  | moved (previous : Option Bytes)
  | removed

namespace ChildCall

def type : ChildCall → Int64
  | .added _ => 0
  | .changed _ => 1
  | .moved _ => 2
  | .removed => 3

def previous : ChildCall → Option Bytes
  | .added previous | .changed previous | .moved previous => previous
  | .removed => none

def event : ChildCall → DbChildEvent
  | .added _ => .added
  | .changed _ => .changed
  | .moved _ => .moved
  | .removed => .removed

/-- The SDK says "no predecessor" with an empty string, or with a null pointer. -/
def previousKey (c : ChildCall) : Option Bytes := c.previous.filter fun s => !s.isEmpty

end ChildCall

/-- What the SDK tells a listener. -/
inductive Report
  | value (snap : DataSnapshot)
  | child (call : ChildCall) (snap : DataSnapshot)
  | cancelled (error : Int) (message : Option Bytes)

/-- A PortValueListener is told of values, a PortChildListener of children, and
both of their end. -/
def Report.kind : Report → Option ListenKind
  | .value _ => some .value
  | .child _ _ => some .child
  | .cancelled _ _ => none

section Native

variable (less : Less) (postedNs : Int64)

def valuePost (seq : Int64) (snap : DataSnapshot) : Option Bytes :=
  (serializeVariant snap.value).map fun payload =>
    postSnapshot postedNs seq payload ((serializeOrder snap).getD [])

/-- The map of an event, by its keys. -/
def childEvent (call : ChildCall) (snap : DataSnapshot) : List (Bytes × Variant) :=
  [(ascii "key", .string snap.key),
    (ascii "prev", match call.previousKey with
      | none => .null
      | some previous => .string previous),
    (ascii "type", .int64 call.type),
    (ascii "value", snap.value)]

def childPost (seq : Int64) (call : ChildCall) (snap : DataSnapshot) : Option Bytes :=
  (serializeVariantMap less (childEvent call snap)).map fun payload =>
    postSnapshot postedNs seq payload []

def cancelledText (error : Int) (message : Option Bytes) : Bytes :=
  ascii "error " ++ ascii (toString error) ++
    match message.filter fun s => !s.isEmpty with
    | none => []
    | some message => ascii ": " ++ message

def cancelledPost (error : Int) (message : Option Bytes) : Option Bytes :=
  (serializeVariant (.string (cancelledText error message))).map fun payload =>
    postSnapshot postedNs (-1) payload []

/-- The callbacks of the two listeners: what is posted, and the seq_ that is left.
What cannot be encoded is dropped, and takes no number. -/
def Report.post (seq : Int64) : Report → Int64 × Option Bytes
  | .value snap =>
    match valuePost postedNs (seq + 1) snap with
    | some bytes => (seq + 1, some bytes)
    | none => (seq, none)
  | .child call snap =>
    match childPost less postedNs (seq + 1) call snap with
    | some bytes => (seq + 1, some bytes)
    | none => (seq, none)
  | .cancelled error message => (seq, cancelledPost postedNs error message)

/-- All that a listener posts of what the SDK tells it, each at its time, and its
seq_ then. -/
def postAll (rs : List (Int64 × Report)) : Int64 × List Bytes :=
  rs.foldl (fun out r => ((r.2.post less r.1 out.1).1, out.2 ++ (r.2.post less r.1 out.1).2.toList))
    (0, [])

theorem postAll_snoc (rs : List (Int64 × Report)) (r : Report) :
    postAll less (rs ++ [(postedNs, r)]) =
      ((r.post less postedNs (postAll less rs).1).1,
        (postAll less rs).2 ++ (r.post less postedNs (postAll less rs).1).2.toList) := by
  rw [postAll, List.foldl_append]
  rfl

end Native

/-- One snapshot, decoded. -/
structure DbSnapshot where
  seq : Int64
  value : Object
  postedNs : Int64
  order : Option DbChildOrder

structure DbChildSnapshot where
  event : DbChildEvent
  key : Bytes
  previousKey : Option Bytes
  value : Object

/-- The errors of the streams, with their messages. -/
inductive DbError
  | database (code : Int64) (message operation : Bytes)
  | state (message : Bytes)
  | argument (message : Bytes)
  | format (message : Bytes)

inductive StreamItem
  | snapshot (s : DbSnapshot)
  | child (c : DbChildSnapshot)
  | error (e : DbError)

/-- The functions of the database library that give a stream. -/
inductive StreamCall
  | onValue (path : Bytes)
  | onQueryValue (path : Bytes) (query : DbQuery)
  | onChildEvent (path : Bytes) (query : DbQuery)

namespace StreamCall

def kind : StreamCall → ListenKind
  | .onChildEvent .. => .child
  | _ => .value

/-- The name that goes into the errors of `_listenWith`. -/
def what : StreamCall → Bytes
  | .onValue _ => ascii "onValue"
  | .onQueryValue .. => ascii "onQueryValue"
  | .onChildEvent .. => ascii "onChildEvent"

end StreamCall

section Dart

variable (package : CborPackage)

/-- `'${value ?? "…"}'` -/
def textOr (absent : Bytes) : Object → Except Thrown Bytes
  | .null => .ok absent
  | object => keyOf package.toString object

/-- `values[type.clamp(0, 3)]` -/
def childEventOf (type : Int64) : DbChildEvent :=
  if type ≤ 0 then .added
  else if type = 1 then .changed
  else if type = 2 then .moved
  else .removed

/-- `(m['type'] as int?) ?? 0` -/
def typeOf : Object → Except Thrown Int64
  | .null => .ok 0
  | .int type => .ok type
  | _ => .error .other

/-- `value == null ? null : '$value'` -/
def textOrNull : Object → Except Thrown (Option Bytes)
  | .null => .ok none
  | object => do return some (← keyOf package.toString object)

def decodeChild (bytes : Bytes) : Except Thrown DbChildSnapshot := do
  let m ← mapOrEmpty (← decodeSnapshotValue package bytes)
  let type ← typeOf (entryAt m (ascii "type"))
  let key ← textOr package [] (entryAt m (ascii "key"))
  let previousKey ← textOrNull package (entryAt m (ascii "prev"))
  return ⟨childEventOf type, key, previousKey, entryAt m (ascii "value")⟩

def decodeValue (bytes : Bytes) (seq : Int64) : Except Thrown DbSnapshot := do
  let value ← decodeSnapshotValue package bytes
  let postedNs ← postedNsOf bytes
  let order ← decodeSnapshotOrder package bytes
  return ⟨seq, value, postedNs, order⟩

/-- The handler of the port that `_listenWith` opens: what it adds to the
controller, or what it throws into the zone. -/
def listenWithMessage (what : Bytes) (decode : Bytes → Int64 → Except Thrown StreamItem)
    (bytes : Bytes) : Except Thrown StreamItem := do
  let seq ← seqOf bytes
  if seq < 0 then
    let reason ← textOr package (ascii "listener canceled") (← decodeSnapshotValue package bytes)
    return .error (.database (-seq) reason what)
  else decode bytes seq

def fdbSnapshotMagic : Nat := 0xfdb50000

/-- The handler of the port that onValue opens. -/
def onValueMessage (bytes : Bytes) : Except Thrown StreamItem := do
  let magic ← field 0 4 bytes
  if magic ≠ fdbSnapshotMagic then return .error (.format (ascii "bad snapshot magic"))
  let seq ← seqOf bytes
  let postedNs ← postedNsOf bytes
  if seq < 0 then
    let reason ← textOr package (ascii "no reason") (← decodeSnapshotValue package bytes)
    return .error (.state (ascii "database listener canceled: " ++ reason))
  else
    let value ← decodeSnapshotValue package bytes
    let order ← decodeSnapshotOrder package bytes
    return .snapshot ⟨seq, value, postedNs, order⟩

def StreamCall.message (call : StreamCall) (bytes : Bytes) : Except Thrown StreamItem :=
  match call with
  | .onValue _ => onValueMessage package bytes
  | .onQueryValue .. =>
    listenWithMessage package call.what (fun bytes seq => do
      return .snapshot (← decodeValue package bytes seq)) bytes
  | .onChildEvent .. =>
    listenWithMessage package call.what (fun bytes _ => do
      return .child (← decodeChild package bytes)) bytes

/-- What the stream is given of a message. -/
def StreamCall.handled (call : StreamCall) (bytes : Bytes) : Option StreamItem :=
  match call.message package bytes with
  | .ok item => some item
  | .error _ => none

end Dart

/-- What a stream tells of a report: the error of a listener that has ended, the
snapshot under its number, or the child event. -/
def Report.told (call : StreamCall) (seq postedNs : Int64) : Report → Int64 × StreamItem
  | .value snap =>
    (seq + 1, .snapshot ⟨seq + 1, snap.value.shown, postedNs, some (childOrder snap)⟩)
  | .child c snap =>
    (seq + 1, .child ⟨c.event, snap.key, c.previousKey, snap.value.shown⟩)
  | .cancelled error message =>
    (seq, .error (match call with
      | .onValue _ =>
        .state (ascii "database listener canceled: " ++ cancelledText error message)
      | _ => .database 1 (cancelledText error message) call.what))

/-- All that a stream tells of what the SDK tells its listener: one item for each,
the events numbered from one. -/
def toldAll (call : StreamCall) (rs : List (Int64 × Report)) : Int64 × List StreamItem :=
  rs.foldl (fun out r => ((r.2.told call out.1 r.1).1, out.2 ++ [(r.2.told call out.1 r.1).2]))
    (0, [])

theorem toldAll_snoc (call : StreamCall) (rs : List (Int64 × Report)) (postedNs : Int64)
    (r : Report) :
    toldAll call (rs ++ [(postedNs, r)]) =
      ((r.told call (toldAll call rs).1 postedNs).1,
        (toldAll call rs).2 ++ [(r.told call (toldAll call rs).1 postedNs).2]) := by
  rw [toldAll, List.foldl_append]
  rfl

end Database
