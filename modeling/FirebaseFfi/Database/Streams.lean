import FirebaseFfi.Database.ReportsRead
import FirebaseFfi.Machine.Channel

namespace Database
open Assoc Cbor Dart Machine Tinycbor
open Firebase (Less)

/-- `_refuse` -/
def refuse (rc : Int64) (what : Bytes) : DbError :=
  if rc = -1 then .state (what ++ ascii " before the Firebase app was initialized")
  else if rc = -2 then .argument (ascii "a path is required")
  else if rc = -3 then
    .argument (ascii ("this query cannot be applied: an unknown key, equalTo with a bound, or " ++
      "both limits at once"))
  else .state (what ++ ascii " failed (" ++ ascii (toString rc.toInt) ++ ascii ")")

/-- Where a stream is: not started, fed from its port by the listener under a
handle, with a port that nothing feeds, refused with its error not yet added, the
error that onValue gives instead of a stream, ended, or cancelled. -/
inductive Phase
  | idle
  | live (port handle : Int64)
  | halted (port : Int64)
  | refused (error : DbError)
  | failed (error : DbError)
  | closed
  | cancelled

/-- The port that is open. -/
def Phase.port : Phase → Option Int64
  | .live port _ | .halted port => some port
  | _ => none

/-- A stream with its receive port and its controller, which hands on to the
subscriber what is added to it. `source` is the listener that was made for it,
and `refusal` the error that was added by the stream itself. -/
structure DbStream where
  call : StreamCall
  phase : Phase
  listened : Bool
  inbox : Channel Bytes
  out : Channel StreamItem
  source : Option Nat
  refusal : Option DbError

def DbStream.new (call : StreamCall) : DbStream :=
  ⟨call, .idle, false, .empty, .empty, none, none⟩

def DbStream.addError (s : DbStream) (error : DbError) : DbStream :=
  { s with phase := .closed, out := s.out.send (.error error), refusal := some error }

/-- The listener tables with the seq_ of each listener, beside all that the SDK
told each, and the streams in the order they were asked for. -/
structure Watching where
  listening : Listening
  seq : Nat → Int64
  reports : Nat → List (Int64 × Report)
  streams : List DbStream

def Watching.start : Watching := ⟨.start, fun _ => 0, fun _ => [], []⟩

def Watching.ports (w : Watching) : List Int64 := w.streams.filterMap fun s => s.phase.port

/-- A message to a port. One to a port that is not open is dropped. -/
def Watching.post (w : Watching) (port : Int64) (bytes : Bytes) : Watching :=
  { w with
    streams := w.streams.map fun s =>
      if s.phase.port = some port then { s with inbox := s.inbox.send bytes } else s }

section Step

variable (package : CborPackage) (less : Less)

def DbQuery.encode (q : DbQuery) : Except Thrown Bytes :=
  if q.spec.isEmpty then .ok [] else encodeVariant package q.toObject

/-- The native call of a stream, with its arguments. -/
def StreamCall.listenCall (database : Bool) (port : Int64) : StreamCall → Except Thrown ListenCall
  | .onValue path => .ok (.listen database (cString path) port)
  | .onQueryValue path query => do
    return .queryListen database (some (cString path)) (← query.encode package) port
  | .onChildEvent path query => do
    return .childListen database (some (cString path)) (← query.encode package) port

/-- What becomes of a stream whose listen has failed. -/
def StreamCall.refused (call : StreamCall) (rc : Int64) : Phase :=
  match call with
  | .onValue _ => .failed (.state (ascii "listen failed: database not initialized"))
  | _ => .refused (refuse rc call.what)

/-- Whether a handle is given back. `onValue` does not ask. -/
def StreamCall.givesBack (call : StreamCall) (handle : Int64) : Bool :=
  match call with
  | .onValue _ => true
  | _ => listenHeld handle

/-- The port is opened, and the native call made. When the query cannot be encoded
nothing is, and the port stays open. -/
def DbStream.begin (s : DbStream) (listening : Listening) (database : Bool) (port : Int64) :
    Option (Listening × DbStream) :=
  match s.call.listenCall package database port with
  | .error _ => some (listening, { s with phase := .halted port })
  | .ok c =>
    (c.run less listening).map fun (after, handle) =>
      if c.failed handle then (after, { s with phase := s.call.refused handle })
      else
        (after, { s with phase := .live port handle, source := some listening.created.length })

/-- Steps of the application (`ask`, `listen`, `cancel`), of the SDK's threads
(`report`), and of the isolate: its event loop (`message`), the microtask of a
refused stream, and the delivery of what the controller holds. -/
inductive WatchAction
  | ask (call : StreamCall) (database : Bool) (port : Int64)
  | listen (i : Nat) (database : Bool) (port : Int64)
  | report (kind : ListenKind) (l : Nat) (postedNs : Int64) (r : Report)
  | message (i : Nat)
  | microtask (i : Nat)
  | deliver (i : Nat)
  | cancel (i : Nat)

/-- A step of one stream that touches nothing outside of it. -/
def Watching.at (w : Watching) (i : Nat) (f : DbStream → Option DbStream) : Option Watching :=
  (w.streams[i]?.bind f).map fun s => { w with streams := w.streams.set i s }

/-- A call of onValue starts at once, the other two when the stream is listened
to. -/
def Watching.ask (w : Watching) (call : StreamCall) (database : Bool) (port : Int64) :
    Option Watching :=
  match call with
  | .onValue _ =>
    if port ∈ w.ports then none
    else
      ((DbStream.new call).begin package less w.listening database port).map fun (after, s) =>
        { w with listening := after, streams := w.streams ++ [s] }
  | _ => some { w with streams := w.streams ++ [.new call] }

/-- A single-subscription stream is listened to once. -/
def Watching.listen (w : Watching) (i : Nat) (database : Bool) (port : Int64) :
    Option Watching :=
  w.streams[i]?.bind fun s =>
    if s.listened then none
    else
      match s.phase with
      | .idle =>
        if port ∈ w.ports then none
        else
          ({ s with listened := true }.begin package less w.listening database port).map
            fun (after, s) => { w with listening := after, streams := w.streams.set i s }
      | .failed error =>
        some { w with streams := w.streams.set i ({ s with listened := true }.addError error) }
      | _ => some { w with streams := w.streams.set i { s with listened := true } }

/-- The SDK calls the listeners that are registered with it. A seq_ does not go
past its largest value. -/
def Watching.report (w : Watching) (kind : ListenKind) (l : Nat) (postedNs : Int64) (r : Report) :
    Option Watching :=
  match w.listening.created[l]? with
  | none => none
  | some listener =>
    if (kind, l) ∈ w.listening.registered ∧ w.seq l ≠ Int64.maxValue ∧
        r.kind.all (· = kind) then
      let posted := r.post less postedNs (w.seq l)
      let told := { w with
        seq := Function.update w.seq l posted.1
        reports := Function.update w.reports l (w.reports l ++ [(postedNs, r)]) }
      some (match posted.2 with
        | some bytes => told.post listener.port bytes
        | none => told)
    else none

/-- The handler of a port that is open, with its next message. -/
def DbStream.message (s : DbStream) : Option DbStream :=
  if s.phase.port = none then none
  else
    s.inbox.receive.map fun (bytes, inbox) =>
      match s.call.handled package bytes with
      | some item => { s with inbox := inbox, out := s.out.send item }
      | none => { s with inbox := inbox }

/-- The error of a refused stream is added, and the stream closed. -/
def DbStream.microtask (s : DbStream) : Option DbStream :=
  match s.phase with
  | .refused error => some (s.addError error)
  | _ => none

/-- A subscriber that has not cancelled is given the next item. -/
def DbStream.deliver (s : DbStream) : Option DbStream :=
  match s.phase, s.listened with
  | .cancelled, _ | _, false => none
  | _, true => s.out.receive.map fun (_, out) => { s with out := out }

/-- onCancel gives the handle back, if there is one, and closes the port. -/
def Watching.cancel (w : Watching) (i : Nat) : Option Watching :=
  w.streams[i]?.bind fun s =>
    if !s.listened then none
    else
      some {
        w with
        listening := match s.phase with
          | .live _ handle =>
            if s.call.givesBack handle then fdbDbUnlisten w.listening handle else w.listening
          | _ => w.listening
        streams := w.streams.set i { s with phase := .cancelled } }

def Watching.step (w : Watching) : WatchAction → Option Watching
  | .ask call database port => w.ask package less call database port
  | .listen i database port => w.listen package less i database port
  | .report kind l postedNs r => w.report less kind l postedNs r
  | .message i => w.at i fun s => s.message package
  | .microtask i => w.at i DbStream.microtask
  | .deliver i => w.at i DbStream.deliver
  | .cancel i => w.cancel i

end Step

end Database
