import FirebaseFfi.Dart.Snapshot
import FirebaseFfi.Firestore.DartCodec
import FirebaseFfi.Firestore.QueryResult

namespace Calls
open Cbor Dart Firestore

structure QueryDocument where
  id : Bytes
  path : Bytes
  data : List (Bytes × Object)

/-- What a future is completed with. An error has the code, the message and the
operation of a FirestoreException, FunctionsException or RemoteConfigException. -/
inductive Reply
  | value (object : Object)
  | documents (docs : List QueryDocument)
  | error (code : Int64) (message operation : Bytes)

section Handlers

variable (package : CborPackage)

def decodeDocument (bytes : Bytes) : Except Thrown Object :=
  if bytes.length < snapshotHeaderBytes then .error .formatException
  else if bytes.length = snapshotHeaderBytes then .ok .null
  else do
    let decoded ← decodeFirestoreValue package (← package.decode
      (bytes.drop snapshotHeaderBytes))
    match decoded with
    | .map es => .ok (.map es)
    | _ => .error .formatException

/-- `entry[key]` -/
def entryAt (entry : List (Object × Object)) (key : Bytes) : Object :=
  match entry with
  | [] => .null
  | (.string k, value) :: rest => if k = key then value else entryAt rest key
  | _ :: rest => entryAt rest key

/-- `{for (final e in entries) '${e.key}': e.value}`, after the entries in `out`. -/
def textKeys (out : List (Bytes × Object)) :
    List (Object × Object) → Except Thrown (List (Bytes × Object))
  | [] => .ok out
  | (key, value) :: es => do
    let k ← interpolated package key
    textKeys (setEntry out k value) es

/-- `(object as Map?) ?? const {}` -/
def mapOrEmpty : Object → Except Thrown (List (Object × Object))
  | .null => .ok []
  | .map es => .ok es
  | _ => .error .other

def queryDocument (entry : List (Object × Object)) : Except Thrown QueryDocument := do
  let id ← interpolated package (entryAt entry keyId)
  let path ← interpolated package (entryAt entry keyPath)
  let data ← textKeys package [] (← mapOrEmpty (entryAt entry keyData))
  return ⟨id, path, data⟩

/-- Entries that are no maps are left out. -/
def queryDocuments : List Object → Except Thrown (List QueryDocument)
  | [] => .ok []
  | .map entry :: rest => do
    let doc ← queryDocument package entry
    let docs ← queryDocuments rest
    return doc :: docs
  | _ :: rest => queryDocuments rest

/-- A Uint8List is a List too, of no maps. -/
def decodeQueryResult (bytes : Bytes) : Except Thrown (List QueryDocument) :=
  if bytes.length ≤ snapshotHeaderBytes then .ok []
  else do
    let decoded ← package.decode (bytes.drop snapshotHeaderBytes)
    match ← decodeFirestoreValue package decoded with
    | .list entries => queryDocuments package entries
    | .uint8List _ => .ok []
    | _ => .error .formatException

/-- Each handler as what it completes its future with, in its last statement, or
what it throws before. -/
def getDocument (path bytes : Bytes) : Except Thrown Reply := do
  let seq ← seqOf bytes
  if seq < 0 then
    .ok (.error seq
      (if seq = -2 then ascii "the document exists but could not be encoded"
        else ascii "read failed")
      (ascii "get " ++ path))
  else do return .value (← decodeDocument package bytes)

def queryCollection (collectionPath bytes : Bytes) : Except Thrown Reply := do
  let seq ← seqOf bytes
  if seq < 0 then
    .ok (.error seq
      (if seq = -2 then ascii "the result could not be encoded" else ascii "query failed")
      (ascii "query " ++ collectionPath))
  else do return .documents (← decodeQueryResult package bytes)

def transactionGet (path bytes : Bytes) : Except Thrown Reply := do
  let seq ← seqOf bytes
  if seq < 0 then .ok (.error seq (ascii "read failed") (ascii "transaction get " ++ path))
  else do return .value (← decodeDocument package bytes)

def countCollection (collectionPath bytes : Bytes) : Except Thrown Reply := do
  let seq ← seqOf bytes
  if seq < 0 then .ok (.error seq (ascii "count failed") (ascii "count " ++ collectionPath))
  else do
    let value ← decodeSnapshotValue package bytes
    return .value (match value with
      | .int n => .int n
      | _ => .int 0)

/-- `seq == -2 ? … : '${reason ?? "failed"}'` -/
def failureMessage (seq : Int64) (reason : Object) : Except Thrown Bytes :=
  if seq = -2 then .ok (ascii "the result could not be encoded")
  else
    match reason with
    | .null => .ok (ascii "failed")
    | reason => interpolated package reason

/-- The reason is decoded for any failure. -/
def callFunction (name bytes : Bytes) : Except Thrown Reply := do
  let seq ← seqOf bytes
  if seq < 0 then do
    let reason ← decodeSnapshotValue package bytes
    return .error seq (← failureMessage package seq reason) name
  else do return .value (← decodeSnapshotValue package bytes)

def decodeValues (bytes : Bytes) : Except Thrown (List (Bytes × Object)) := do
  let decoded ← decodeSnapshotValue package bytes
  textKeys package [] (← mapOrEmpty decoded)

def configValues (bytes : Bytes) : Except Thrown Reply := do
  let seq ← seqOf bytes
  if seq < 0 then .ok (.error (-2) (ascii "values could not be encoded") (ascii "get"))
  else do
    let values ← decodeValues package bytes
    return .value (.map (values.map fun e => (.string e.1, e.2)))

end Handlers

inductive OneShot
  | getDocument (path : Bytes)
  | queryCollection (collectionPath : Bytes)
  | transactionGet (path : Bytes)
  | countCollection (collectionPath : Bytes)
  | callFunction (name : Bytes)
  | configValues

/-- A one-shot call: whether its port is open, its future's completions, and what
its handler threw. -/
structure Waiting where
  listening : Bool
  completions : List Reply
  thrown : List Thrown

section Calls

variable (package : CborPackage) (call : OneShot)

def OneShot.handler (bytes : Bytes) : Except Thrown Reply :=
  match call with
  | .getDocument path => Calls.getDocument package path bytes
  | .queryCollection collectionPath => Calls.queryCollection package collectionPath bytes
  | .transactionGet path => Calls.transactionGet package path bytes
  | .countCollection collectionPath => Calls.countCollection package collectionPath bytes
  | .callFunction name => Calls.callFunction package name bytes
  | .configValues => Calls.configValues package bytes

/-- A future that is complete is not completed again. -/
def Waiting.complete (s : Waiting) (reply : Reply) : Waiting :=
  if s.completions.isEmpty then { s with completions := [reply] }
  else { s with thrown := s.thrown ++ [.other] }

/-- The handler closes the port first. A closed port delivers nothing. -/
def deliver (s : Waiting) (bytes : Bytes) : Waiting :=
  if !s.listening then s
  else
    let s := { s with listening := false }
    match call.handler package bytes with
    | .ok reply => s.complete reply
    | .error e => { s with thrown := s.thrown ++ [e] }

/-- What becomes of a call whose port is posted the given messages. -/
def posted (messages : List Bytes) : Waiting :=
  messages.foldl (deliver package call) ⟨true, [], []⟩

end Calls

end Calls
