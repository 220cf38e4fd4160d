import Mathlib.Tactic.Common

namespace Machine

/-- A queue of messages, with all that was ever sent on it and all that was
received. Nothing is lost in it, nor comes in another order. -/
structure Channel (α : Type) where
  sent : List α
  received : List α
  queue : List α
  flow : sent = received ++ queue

namespace Channel

variable {α β : Type}

def empty : Channel α := ⟨[], [], [], rfl⟩

def send (c : Channel α) (a : α) : Channel α where
  sent := c.sent ++ [a]
  received := c.received
  queue := c.queue ++ [a]
  flow := by rw [c.flow, List.append_assoc]

/-- The first message that is left, and the channel without it. -/
def receive (c : Channel α) : Option (α × Channel α) :=
  match h : c.queue with
  | [] => none
  | a :: rest =>
    some (a, {
      sent := c.sent
      received := c.received ++ [a]
      queue := rest
      flow := by rw [c.flow, h, List.append_assoc, List.singleton_append] })

@[simp] theorem empty_sent : (empty : Channel α).sent = [] := rfl

@[simp] theorem empty_received : (empty : Channel α).received = [] := rfl

@[simp] theorem empty_queue : (empty : Channel α).queue = [] := rfl

@[simp] theorem send_sent (c : Channel α) (a : α) : (c.send a).sent = c.sent ++ [a] := rfl

@[simp] theorem send_received (c : Channel α) (a : α) : (c.send a).received = c.received := rfl

@[simp] theorem send_queue (c : Channel α) (a : α) : (c.send a).queue = c.queue ++ [a] := rfl

theorem receive_cases {c d : Channel α} {a : α} (h : c.receive = some (a, d)) :
    d.sent = c.sent ∧ d.received = c.received ++ [a] ∧ c.queue = a :: d.queue := by
  unfold receive at h
  split at h
  · cases h
  · next hqueue =>
    cases h
    exact ⟨rfl, rfl, hqueue⟩

theorem received_prefix (c : Channel α) : c.received <+: c.sent :=
  ⟨c.queue, c.flow.symm⟩

/-- Two channels in a row: what is received from the first and passed on by a
handler is what is sent on the second. -/
def Relays (f : α → Option β) (c : Channel α) (d : Channel β) : Prop :=
  d.sent = c.received.filterMap f

/-- What was sent on the first is what the second has given, holds, and is still
to be handed on. -/
theorem Relays.flow {f : α → Option β} {c : Channel α} {d : Channel β} (h : Relays f c d) :
    c.sent.filterMap f = d.received ++ d.queue ++ c.queue.filterMap f := by
  rw [← d.flow, h, ← List.filterMap_append, ← c.flow]

end Channel

end Machine
