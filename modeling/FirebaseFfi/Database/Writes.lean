import FirebaseFfi.Calls.Outcomes
import FirebaseFfi.Database.Reports
import FirebaseFfi.Firebase.VariantSent

namespace Database
open Calls Cbor Dart Machine Tinycbor
open Firebase (Variant VariantMap Less parseVariant)

/-- What a reference, or what it gives for the time of a disconnect, is asked to do. -/
inductive DbOperation
  | setValue (value : Variant)
  | updateChildren (children : VariantMap)
  | setValueAndPriority (value priority : Variant)
  | setPriority (priority : Variant)
  | removeValue
  | cancel

structure DbRequest where
  path : Bytes
  onDisconnect : Bool
  operation : DbOperation

section Native

variable (less : Less) (database : Bool) (path : Option Bytes)

/-- The checks that the entry points share, and the return code of the one that
fails. -/
def onReference (onDisconnect : Bool) (operation : Except Int64 DbOperation) :
    Except Int64 DbRequest :=
  if !database then .error (-1)
  else
    match path with
    | none => .error (-2)
    | some path => do return ⟨path, onDisconnect, ← operation⟩

def parsed (cbor : Bytes) : Except Int64 Variant :=
  match parseVariant less cbor with
  | .ok value => .ok value
  | .error _ => .error (-3)

def setOperation (cbor : Bytes) : Except Int64 DbOperation := do
  return .setValue (← parsed less cbor)

def updateOperation (cbor : Bytes) : Except Int64 DbOperation := do
  match ← parsed less cbor with
  | .map children => return .updateChildren children
  | _ => .error (-4)

def setWithPriorityOperation (cbor prio : Bytes) : Except Int64 DbOperation := do
  let value ← parsed less cbor
  let priority ← parsed less prio
  return .setValueAndPriority value priority

def fdbDbSet (cbor : Bytes) := onReference database path false (setOperation less cbor)

def fdbDbUpdate (cbor : Bytes) := onReference database path false (updateOperation less cbor)

def fdbDbSetWithPriority (cbor prio : Bytes) :=
  onReference database path false (setWithPriorityOperation less cbor prio)

def fdbDbSetPriority (prio : Bytes) :=
  onReference database path false (do return .setPriority (← parsed less prio))

def fdbDbRemove := onReference database path false (.ok .removeValue)

def fdbDbOnDisconnectSet (cbor : Bytes) :=
  onReference database path true (setOperation less cbor)

def fdbDbOnDisconnectUpdate (cbor : Bytes) :=
  onReference database path true (updateOperation less cbor)

def fdbDbOnDisconnectSetWithPriority (cbor prio : Bytes) :=
  onReference database path true (setWithPriorityOperation less cbor prio)

def fdbDbOnDisconnectRemove := onReference database path true (.ok .removeValue)

def fdbDbOnDisconnectCancel := onReference database path true (.ok .cancel)

end Native

/-- The functions of the database library that await an outcome, those of
OnDisconnect with its path. -/
inductive DbWrite
  | setValue (path : Bytes) (value : Object)
  | updateChildren (path : Bytes) (value : List (Bytes × Object))
  | setValueWithPriority (path : Bytes) (value priority : Object)
  | setPriority (path : Bytes) (priority : Object)
  | removeValue (path : Bytes)
  | onDisconnectSetValue (path : Bytes) (value : Object)
  | onDisconnectUpdateChildren (path : Bytes) (value : List (Bytes × Object))
  | onDisconnectSetValueWithPriority (path : Bytes) (value priority : Object)
  | onDisconnectRemove (path : Bytes)
  | onDisconnectCancel (path : Bytes)

def DbWrite.what : DbWrite → Bytes
  | .setValue .. => ascii "set"
  | .updateChildren .. => ascii "update"
  | .setValueWithPriority .. => ascii "setValueWithPriority"
  | .setPriority .. => ascii "setPriority"
  | .removeValue _ => ascii "remove"
  | .onDisconnectSetValue .. => ascii "onDisconnect.set"
  | .onDisconnectUpdateChildren .. => ascii "onDisconnect.update"
  | .onDisconnectSetValueWithPriority .. => ascii "onDisconnect.setWithPriority"
  | .onDisconnectRemove _ => ascii "onDisconnect.remove"
  | .onDisconnectCancel _ => ascii "onDisconnect.cancel"

/-- A map of strings. -/
def textMap (entries : List (Bytes × Object)) : Object :=
  .map (entries.map fun e => (.string e.1, e.2))

section Calls

variable (package : CborPackage) (less : Less)

/-- The native call of a write, whose values are encoded first. A path is a C
string. -/
def DbWrite.invoke (database : Bool) : DbWrite → Except Thrown (Except Int64 DbRequest)
  | .setValue path value => do
    let cbor ← encodeVariant package value
    return fdbDbSet less database (some (cString path)) cbor
  | .updateChildren path value => do
    let cbor ← encodeVariant package (textMap value)
    return fdbDbUpdate less database (some (cString path)) cbor
  | .setValueWithPriority path value priority => do
    let cbor ← encodeVariant package value
    let prio ← encodeVariant package priority
    return fdbDbSetWithPriority less database (some (cString path)) cbor prio
  | .setPriority path priority => do
    let prio ← encodeVariant package priority
    return fdbDbSetPriority less database (some (cString path)) prio
  | .removeValue path => return fdbDbRemove database (some (cString path))
  | .onDisconnectSetValue path value => do
    let cbor ← encodeVariant package value
    return fdbDbOnDisconnectSet less database (some (cString path)) cbor
  | .onDisconnectUpdateChildren path value => do
    let cbor ← encodeVariant package (textMap value)
    return fdbDbOnDisconnectUpdate less database (some (cString path)) cbor
  | .onDisconnectSetValueWithPriority path value priority => do
    let cbor ← encodeVariant package value
    let prio ← encodeVariant package priority
    return fdbDbOnDisconnectSetWithPriority less database (some (cString path)) cbor prio
  | .onDisconnectRemove path => return fdbDbOnDisconnectRemove database (some (cString path))
  | .onDisconnectCancel path => return fdbDbOnDisconnectCancel database (some (cString path))

/-- The error of a write that the native side has refused. -/
def startError (rc : Int64) (what : Bytes) : DbError :=
  if rc = -1 then .state (what ++ ascii " before the Firebase app was initialized")
  else if rc = -2 then .argument (ascii "a path is required")
  else if rc = -3 then .argument (ascii "this value cannot be encoded")
  else if rc = -4 then .argument (ascii "update takes a map of children")
  else .state (what ++ ascii " failed to start (" ++ ascii (toString rc.toInt) ++ ascii ")")

/-- What the application has of a write: its future is completed or fails, or the
call has thrown. -/
inductive WriteOutcome
  | completed
  | failed (error : DbError)
  | threw (thrown : Thrown)

/-- The handler of `_awaitDbOutcome`. -/
def awaitDbOutcome (what : Bytes) (m : OutcomeMessage) : WriteOutcome :=
  if m.ok then .completed else .failed (.database m.code m.message what)

/-- A write, and whether there is a database when it is called. -/
structure WriteCall where
  write : DbWrite
  database : Bool

/-- The call of `start` in `_awaitDbOutcome`, which closes the port again when the
write is refused. -/
def WriteCall.start (c : WriteCall) : Except WriteOutcome DbRequest :=
  match c.write.invoke package less c.database with
  | .error thrown => .error (.threw thrown)
  | .ok (.error rc) => .error (.failed (startError rc c.write.what))
  | .ok (.ok request) => .ok request

def writes : Protocol WriteCall DbRequest Finished OutcomeMessage WriteOutcome where
  start c := c.start package less
  post _ f := f.post
  handle c m := some (awaitDbOutcome c.write.what m)

end Calls

end Database
