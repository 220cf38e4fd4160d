import FirebaseFfi.Assoc.Assign
import FirebaseFfi.Dart.Snapshot

namespace Dart
open Assoc Cbor

/-- The child keys of a node in the order of the query, and the order within
each child that has one of its own. -/
inductive DbChildOrder
  | mk (keys : List Bytes) (children : List (Bytes × DbChildOrder))

def DbChildOrder.keys : DbChildOrder → List Bytes
  | .mk keys _ => keys

def DbChildOrder.children : DbChildOrder → List (Bytes × DbChildOrder)
  | .mk _ children => children

/-- One turn of the loop over the entries. -/
def DbChildOrder.add (order : DbChildOrder) (key : Bytes) (sub : Option DbChildOrder) :
    DbChildOrder :=
  .mk (order.keys ++ [key])
    (match sub with
    | some sub => assign order.children (key, sub)
    | none => order.children)

section Decode

variable (toString : Object → Option Bytes)

def keyOf (key : Object) : Except Thrown Bytes :=
  match interpolate toString key with
  | some text => .ok text
  | none => .error .other

mutual
/-- `DbChildOrder._decode`. Bytes are a list too, of numbers. -/
def decodeOrder : Object → Except Thrown (Option DbChildOrder)
  | .list entries => do return some (← decodeOrderEntries (.mk [] []) entries)
  | .uint8List _ => .ok (some (.mk [] []))
  | _ => .ok none

/-- An entry that is not a list of two is passed over. -/
def decodeOrderEntries (order : DbChildOrder) : List Object → Except Thrown DbChildOrder
  | [] => .ok order
  | .list [key, sub] :: entries => do
    let key ← keyOf toString key
    let sub ← decodeOrder sub
    decodeOrderEntries (order.add key sub) entries
  | .uint8List [key, _] :: entries => do
    let key ← keyOf toString (.int key.toNat.toInt64)
    decodeOrderEntries (order.add key none) entries
  | _ :: entries => decodeOrderEntries order entries
end

end Decode

/-- An order that will not decode is no order. -/
def decodeSnapshotOrder (package : CborPackage) (bytes : Bytes) :
    Except Thrown (Option DbChildOrder) :=
  if bytes.length < snapshotHeaderBytes then .ok none
  else do
    let valueLen ← field 24 4 bytes
    let orderLen ← field 28 4 bytes
    if orderLen = 0 then return none
    let start := snapshotHeaderBytes + valueLen
    if bytes.length < start + orderLen then return none
    match package.decode ((bytes.take (start + orderLen)).drop start) >>= package.toObject >>=
        decodeOrder package.toString with
    | .ok order => return order
    | .error _ => return none

end Dart
