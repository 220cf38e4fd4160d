import FirebaseFfi.Assoc.Emplace
import FirebaseFfi.Machine.Channel
import FirebaseFfi.Machine.Run

namespace Machine
open Assoc

/-- Streams that are fed by listeners: what is made for a call when its stream is
listened to, unless that does not come back, a listener or a refusal; what a listener
sends of a report, and becomes; what is made of a message, and of a refusal. -/
structure Feed (Call Env Listener Report Message Item Refusal : Type) where
  listen : Call → Env → Option (Except Refusal Listener)
  tell : Listener → Report → Option (Listener × Message)
  handle : Call → Message → Option Item
  refused : Call → Refusal → Item

/-- Where a stream is: not listened to, fed by the listener under an id, refused, or
cancelled. -/
inductive FeedPhase (Port : Type)
  | idle
  | live (port : Port) (id : Int64)
  | ended
  | cancelled

/-- The port that is open. -/
def FeedPhase.port {Port : Type} : FeedPhase Port → Option Port
  | .live port _ => some port
  | _ => none

/-- A stream with its receive port and its controller. `source` is the place of the
listener that was made for it. -/
structure Subscription (Call Message Item Refusal Port : Type) where
  call : Call
  phase : FeedPhase Port
  inbox : Channel Message
  out : Channel Item
  source : Option Nat
  refusal : Option Refusal

/-- A listener as it was made and as it is, with all that it was told. -/
structure Source (Listener Report Port : Type) where
  made : Listener
  now : Listener
  port : Port
  told : List Report

/-- A table of listeners under ids that are taken from a counter, beside all that
were made, those that are registered, and the streams. -/
structure Hub (Call Listener Report Message Item Refusal Port : Type) where
  next : Int64
  table : List (Int64 × Nat)
  sources : List (Source Listener Report Port)
  registered : List Nat
  streams : List (Subscription Call Message Item Refusal Port)

/-- Steps of the application (`ask`, `listen`, `cancel`), of those who report, and of
the event loop: the next message at a port, and the next item for a subscriber. -/
inductive FeedAction (Call Env Report Port : Type)
  | ask (call : Call)
  | listen (i : Nat) (env : Env) (port : Port)
  | report (l : Nat) (r : Report)
  | message (i : Nat)
  | deliver (i : Nat)
  | cancel (i : Nat)

section Step

variable {Call Env Listener Report Message Item Refusal Port : Type}

def Subscription.new (call : Call) : Subscription Call Message Item Refusal Port :=
  ⟨call, .idle, .empty, .empty, none, none⟩

namespace Hub

def start : Hub Call Listener Report Message Item Refusal Port := ⟨1, [], [], [], []⟩

variable (F : Feed Call Env Listener Report Message Item Refusal)
  (h : Hub Call Listener Report Message Item Refusal Port)

def ports : List Port := h.streams.filterMap fun s => s.phase.port

/-- A listener is registered, and kept under the next id. The counter has no value
after the largest. -/
def add (x : Listener) (port : Port) :
    Option (Hub Call Listener Report Message Item Refusal Port × Int64) :=
  if h.next = Int64.maxValue then none
  else
    some ({ h with
      next := h.next + 1
      table := emplace h.table h.next h.sources.length
      sources := h.sources ++ [⟨x, x, port, []⟩]
      registered := h.registered ++ [h.sources.length] }, h.next)

/-- The listener under an id is taken off, and out of the table. -/
def unlisten (id : Int64) : Hub Call Listener Report Message Item Refusal Port :=
  match h.table.lookup id with
  | none => h
  | some l => { h with registered := h.registered.erase l, table := erase h.table id }

def ask (call : Call) : Hub Call Listener Report Message Item Refusal Port :=
  { h with streams := h.streams ++ [.new call] }

/-- A message to a port. One to a port that is not open is dropped. -/
def post [DecidableEq Port] (port : Port) (m : Message) :
    Hub Call Listener Report Message Item Refusal Port :=
  { h with
    streams := h.streams.map fun s =>
      if s.phase.port = some port then { s with inbox := s.inbox.send m } else s }

/-- A port is opened, and the listener made. The port of a stream that is refused is
closed again. -/
def listen [DecidableEq Port] (i : Nat) (env : Env) (port : Port) :
    Option (Hub Call Listener Report Message Item Refusal Port) :=
  h.streams[i]?.bind fun s =>
    match s.phase with
    | .idle =>
      if port ∈ h.ports then none
      else
        match F.listen s.call env with
        | none => none
        | some (.error r) =>
          some { h with
            streams := h.streams.set i
              { s with phase := .ended, out := s.out.send (F.refused s.call r), refusal := some r } }
        | some (.ok x) =>
          (h.add x port).map fun (after, id) =>
            { after with
              streams := h.streams.set i
                { s with phase := .live port id, source := some h.sources.length } }
    | _ => none

/-- A listener is told as long as it is registered. -/
def report [DecidableEq Port] (l : Nat) (r : Report) :
    Option (Hub Call Listener Report Message Item Refusal Port) :=
  h.sources[l]?.bind fun src =>
    if l ∈ h.registered then
      (F.tell src.now r).map fun (now, m) =>
        { h with
          sources := h.sources.set l { src with now := now, told := src.told ++ [r] } }.post
            src.port m
    else none

/-- A step of one stream that touches nothing outside of it. -/
def at' (i : Nat) (f : Subscription Call Message Item Refusal Port →
    Option (Subscription Call Message Item Refusal Port)) :
    Option (Hub Call Listener Report Message Item Refusal Port) :=
  (h.streams[i]?.bind f).map fun s => { h with streams := h.streams.set i s }

end Hub

/-- The handler of a port that is open, with its next message. -/
def Subscription.message (F : Feed Call Env Listener Report Message Item Refusal)
    (s : Subscription Call Message Item Refusal Port) :
    Option (Subscription Call Message Item Refusal Port) :=
  match s.phase with
  | .live .. =>
    s.inbox.receive.map fun (m, inbox) =>
      match F.handle s.call m with
      | some item => { s with inbox := inbox, out := s.out.send item }
      | none => { s with inbox := inbox }
  | _ => none

/-- A subscriber that has not cancelled is given the next item. -/
def Subscription.deliver (s : Subscription Call Message Item Refusal Port) :
    Option (Subscription Call Message Item Refusal Port) :=
  match s.phase with
  | .live .. | .ended => s.out.receive.map fun (_, out) => { s with out := out }
  | _ => none

namespace Hub

/-- An id that was given is given back, and the port closed. -/
def cancel (h : Hub Call Listener Report Message Item Refusal Port) (i : Nat) :
    Option (Hub Call Listener Report Message Item Refusal Port) :=
  h.streams[i]?.bind fun s =>
    match s.phase with
    | .live _ id =>
      let after := if 0 < id then h.unlisten id else h
      some { after with streams := h.streams.set i { s with phase := .cancelled } }
    | .ended => some { h with streams := h.streams.set i { s with phase := .cancelled } }
    | _ => none

def step [DecidableEq Port] (F : Feed Call Env Listener Report Message Item Refusal)
    (h : Hub Call Listener Report Message Item Refusal Port) :
    FeedAction Call Env Report Port → Option (Hub Call Listener Report Message Item Refusal Port)
  | .ask call => some (h.ask call)
  | .listen i env port => h.listen F i env port
  | .report l r => h.report F l r
  | .message i => h.at' i (·.message F)
  | .deliver i => h.at' i Subscription.deliver
  | .cancel i => h.cancel i

end Hub

end Step

end Machine
