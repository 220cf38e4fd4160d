import FirebaseFfi.Database.StreamsTell

namespace Database
open Cbor Dart Machine
open Firebase (Less byBytes)

/-- What readValue and readSnapshot differ in: what is made of a snapshot, and
their null. The times are in milliseconds. -/
structure Reader (α : Type) where
  settle : Nat
  timeout : Nat
  null : α
  of : DbSnapshot → α

def readValue (settle timeout : Nat) : Reader Object := ⟨settle, timeout, .null, DbSnapshot.value⟩

def readSnapshot (settle timeout : Nat) : Reader (Option DbSnapshot) :=
  ⟨settle, timeout, none, some⟩

/-- What the future is completed with. -/
abbrev Outcome (α : Type) := Except DbError α

/-- A read that has been listening since `began`. `completed` is the completer's
isCompleted, and `quiet` the time at which the timer is due. `items` are those
that came before there was an outcome, each with its time, which `ended` is the
last of. -/
structure PendingRead (α : Type) where
  began : Nat
  now : Nat
  last : α
  seen : Bool
  quiet : Option Nat
  completed : Bool
  outcome : Option (Outcome α)
  finished : Bool
  items : List (Nat × StreamItem)
  ended : Nat

namespace PendingRead

variable {α : Type} (reader : Reader α) (r : PendingRead α)

def start (now : Nat) : PendingRead α :=
  ⟨now, now, reader.null, false, none, false, none, false, [], now⟩

/-- The future has the outcome that comes first. -/
def settle (o : Outcome α) : PendingRead α :=
  if r.outcome.isNone then { r with outcome := some o, ended := r.now } else r

def complete (o : Outcome α) : PendingRead α :=
  if r.completed then r else { r.settle o with completed := true }

def noted (i : StreamItem) : PendingRead α :=
  if r.outcome.isNone then { r with items := r.items ++ [(r.now, i)] } else r

/-- The subscriber: a snapshot starts the timer again. The streams of a read give
no child events. -/
def item (i : StreamItem) : PendingRead α :=
  match i with
  | .snapshot s =>
    { r.noted i with last := reader.of s, seen := true, quiet := some (r.now + reader.settle) }
  | .error e => (r.noted i).complete (.error e)
  | .child _ => r.noted i

/-- The timer goes off when it is due, or later. -/
def quietTimer : Option (PendingRead α) :=
  match r.quiet with
  | some due =>
    if due ≤ r.now then some ({ r with quiet := none }.complete (.ok r.last)) else none
  | none => none

/-- The timeout goes off when the future has no outcome. -/
def timeout : Option (PendingRead α) :=
  if r.outcome.isNone ∧ r.began + reader.timeout ≤ r.now then
    some (r.settle (.ok (if r.seen then r.last else reader.null)))
  else none

/-- The await returns or throws, and the finally block stops the timer. -/
def finish : Option (PendingRead α) :=
  if r.outcome.isSome ∧ !r.finished then some { r with quiet := none, finished := true } else none

end PendingRead

/-- A read among all the streams: the one that it listens to is at a place. -/
structure Reading (α : Type) where
  watching : Watching
  place : Nat
  read : PendingRead α

section Step

variable {α : Type} (package : CborPackage) (less : Less) (reader : Reader α)

/-- Steps of everything else, of the clock, of the read's subscription, of its two
timers, and of the code behind its await. -/
inductive ReadAction
  | other (a : WatchAction)
  | pass (ms : Nat)
  | item
  | quiet
  | timeout
  | finish

def ReadAction.Arriving : ReadAction → Prop
  | .other a => a.Arriving less
  | _ => True

/-- The stream of a read is not handed out. -/
def WatchAction.Spares (place : Nat) : WatchAction → Prop
  | .listen i _ _ | .deliver i | .cancel i => i ≠ place
  | _ => True

instance (place : Nat) (a : WatchAction) : Decidable (a.Spares place) := by
  cases a <;> unfold WatchAction.Spares <;> infer_instance

def Reading.step (r : Reading α) : ReadAction → Option (Reading α)
  | .other a =>
    if a.Spares r.place then
      (r.watching.step package less a).map fun w => { r with watching := w }
    else none
  | .pass ms => some { r with read := { r.read with now := r.read.now + ms } }
  | .item =>
    (r.watching.step package less (.deliver r.place)).bind fun w =>
      (w.streams[r.place]?.bind fun s => s.out.received.getLast?).map fun i =>
        { r with watching := w, read := r.read.item reader i }
  | .quiet => r.read.quietTimer.map fun read => { r with read := read }
  | .timeout => (r.read.timeout reader).map fun read => { r with read := read }
  | .finish =>
    r.read.finish.bind fun read =>
      (r.watching.step package less (.cancel r.place)).map fun w =>
        { r with watching := w, read := read }

/-- A read asks for its stream, and listens to it. -/
def Reading.begin (w : Watching) (now : Nat) (call : StreamCall) (database : Bool) (port : Int64) :
    Option (Reading α) := do
  let w' ← w.step package less (.ask call database port)
  let w'' ← w'.step package less (.listen w.streams.length database port)
  return ⟨w'', w.streams.length, .start reader now⟩

end Step

def StreamItem.isSnapshot : StreamItem → Bool
  | .snapshot _ => true
  | _ => false

def StreamItem.isError : StreamItem → Bool
  | .error _ => true
  | _ => false

/-- What is made of the snapshots among the items. -/
def Reader.values {α : Type} (reader : Reader α) (items : List (Nat × StreamItem)) : List α :=
  items.filterMap fun i =>
    match i.2 with
    | .snapshot s => some (reader.of s)
    | _ => none

/-- What a read answers with. Of the items that came before, the last snapshot,
when it came long enough before; the error that came, when it was the first; or
what there is at the timeout, which is null when no snapshot came. -/
inductive ReadsAs {α : Type} (reader : Reader α) (r : PendingRead α) : Outcome α → Prop
  | settled {pre t s post} : r.items = pre ++ (t, .snapshot s) :: post →
      (∀ i ∈ post, i.2.isSnapshot = false) → t + reader.settle ≤ r.ended →
      (∀ i ∈ r.items, i.2.isError = false) → ReadsAs reader r (.ok (reader.of s))
  | failed {pre t e} : r.items = pre ++ [(t, .error e)] → (∀ i ∈ pre, i.2.isError = false) →
      ReadsAs reader r (.error e)
  | timedOut : r.began + reader.timeout ≤ r.ended → (∀ i ∈ r.items, i.2.isError = false) →
      ReadsAs reader r (.ok ((reader.values r.items).getLast?.getD reader.null))

section Reads

variable {α : Type} {reader : Reader α} {r r' : PendingRead α}

/-- A read that has no outcome knows the last snapshot, and the timer is due when
that has settled. -/
structure Waits (reader : Reader α) (r : PendingRead α) : Prop where
  sound : ∀ i ∈ r.items, i.2.isError = false
  open_ : r.completed = false
  last : (reader.values r.items).getLast? = if r.seen then some r.last else none
  quiet : ∀ due, r.quiet = some due → ∃ pre t s post, r.items = pre ++ (t, .snapshot s) :: post ∧
    (∀ i ∈ post, i.2.isSnapshot = false) ∧ due = t + reader.settle ∧ r.last = reader.of s

structure ReadInv (reader : Reader α) (r : PendingRead α) : Prop where
  waits : r.outcome = none → Waits reader r
  answered : ∀ o, r.outcome = some o → ReadsAs reader r o

theorem ReadInv.start (now : Nat) : ReadInv reader (.start reader now) := by
  refine ⟨fun _ => ⟨by simp [PendingRead.start], rfl, rfl, ?_⟩, ?_⟩
  · intro due h
    cases h
  · intro o h
    cases h

/-- The answer is the same, with all that it rests on. -/
structure Decided (r r' : PendingRead α) (o : Outcome α) : Prop where
  outcome : r'.outcome = some o
  items : r'.items = r.items
  began : r'.began = r.began
  ended : r'.ended = r.ended

theorem ReadsAs.later {o : Outcome α} (h : ReadsAs reader r o) (hd : Decided r r' o) :
    ReadsAs reader r' o := by
  obtain ⟨-, hitems, hbegan, hended⟩ := hd
  cases h with
  | settled hi hpost hsettle hsound =>
    rw [← hitems] at hi hsound
    rw [← hended] at hsettle
    exact .settled hi hpost hsettle hsound
  | failed hi hpre =>
    rw [← hitems] at hi
    exact .failed hi hpre
  | timedOut htime hsound =>
    rw [← hbegan, ← hended] at htime
    rw [← hitems] at hsound ⊢
    exact .timedOut htime hsound

theorem ReadInv.later {o : Outcome α} (h : ReadInv reader r) (hout : r.outcome = some o)
    (hd : Decided r r' o) : ReadInv reader r' := by
  refine ⟨fun hnone => (by cases hd.outcome.symm.trans hnone), ?_⟩
  intro o' ho'
  cases hd.outcome.symm.trans ho'
  exact (h.answered o hout).later hd

/-- A future that has an outcome keeps it. -/
theorem complete_decided {o : Outcome α} (hout : r.outcome = some o) (x : Outcome α) :
    Decided r (r.complete x) o := by
  unfold PendingRead.complete
  split
  · exact ⟨hout, rfl, rfl, rfl⟩
  · have hsettle : r.settle x = r := by simp [PendingRead.settle, hout]
    rw [hsettle]
    exact ⟨hout, rfl, rfl, rfl⟩

theorem item_decided {o : Outcome α} (hout : r.outcome = some o) (i : StreamItem) :
    Decided r (r.item reader i) o := by
  have hnoted : r.noted i = r := by simp [PendingRead.noted, hout]
  cases i with
  | snapshot s =>
    rw [PendingRead.item, hnoted]
    exact ⟨hout, rfl, rfl, rfl⟩
  | child c =>
    rw [PendingRead.item, hnoted]
    exact ⟨hout, rfl, rfl, rfl⟩
  | error e =>
    rw [PendingRead.item, hnoted]
    exact complete_decided hout _

theorem quietTimer_decided {o : Outcome α} (hout : r.outcome = some o)
    (hq : r.quietTimer = some r') : Decided r r' o := by
  unfold PendingRead.quietTimer at hq
  split at hq
  · split at hq
    · obtain rfl := Option.some.inj hq
      have hd := complete_decided (r := { r with quiet := none }) hout (.ok r.last)
      exact ⟨hd.outcome, hd.items, hd.began, hd.ended⟩
    · cases hq
  · cases hq

theorem finish_decided {o : Outcome α} (hout : r.outcome = some o) (hf : r.finish = some r') :
    Decided r r' o := by
  unfold PendingRead.finish at hf
  split at hf
  · obtain rfl := Option.some.inj hf
    exact ⟨hout, rfl, rfl, rfl⟩
  · cases hf

/-- There is no timeout after an answer. -/
theorem timeout_undecided (ht : r.timeout reader = some r') : r.outcome = none := by
  unfold PendingRead.timeout at ht
  split at ht
  · next hguard => exact Option.isNone_iff_eq_none.mp hguard.1
  · cases ht

theorem ReadInv.item (h : ReadInv reader r) (i : StreamItem) : ReadInv reader (r.item reader i) := by
  cases hout : r.outcome with
  | some o => exact h.later hout (item_decided hout i)
  | none =>
    have hw := h.waits hout
    have hnoted : r.noted i = { r with items := r.items ++ [(r.now, i)] } := by
      simp [PendingRead.noted, hout]
    cases i with
    | snapshot s =>
      simp only [PendingRead.item, hnoted]
      refine ⟨fun _ => ⟨?_, hw.open_, ?_, ?_⟩, ?_⟩
      · exact List.forall_mem_append.mpr ⟨hw.sound, by simp [StreamItem.isError]⟩
      · simp [Reader.values]
      · intro due hdue
        cases hdue
        exact ⟨r.items, r.now, s, [], rfl, by simp, rfl, rfl⟩
      · intro o ho
        cases hout.symm.trans ho
    | child c =>
      simp only [PendingRead.item, hnoted]
      refine ⟨fun _ => ⟨?_, hw.open_, ?_, ?_⟩, ?_⟩
      · exact List.forall_mem_append.mpr ⟨hw.sound, by simp [StreamItem.isError]⟩
      · simpa [Reader.values] using hw.last
      · intro due hdue
        obtain ⟨pre, t, s, post, hitems, hpost, hrest⟩ := hw.quiet due hdue
        refine ⟨pre, t, s, post ++ [(r.now, .child c)], by simp [hitems], ?_, hrest⟩
        exact List.forall_mem_append.mpr ⟨hpost, by simp [StreamItem.isSnapshot]⟩
      · intro o ho
        cases hout.symm.trans ho
    | error e =>
      have heq : r.item reader (.error e) = { r with
          items := r.items ++ [(r.now, .error e)], completed := true, outcome := some (.error e),
          ended := r.now } := by
        simp [PendingRead.item, hnoted, PendingRead.complete, PendingRead.settle, hw.open_, hout]
      rw [heq]
      refine ⟨fun hnone => (by cases hnone), ?_⟩
      intro o ho
      cases ho
      exact .failed rfl hw.sound

theorem ReadInv.quietTimer (h : ReadInv reader r) (hq : r.quietTimer = some r') :
    ReadInv reader r' := by
  rcases Option.eq_none_or_eq_some r.outcome with hout | ⟨o, hout⟩
  · have hw := h.waits hout
    unfold PendingRead.quietTimer at hq
    split at hq
    · next due hdue =>
      split at hq
      · next hnow =>
        obtain rfl := Option.some.inj hq
        obtain ⟨pre, t, s, post, hitems, hpost, rfl, hlast⟩ := hw.quiet due hdue
        simp only [PendingRead.complete, PendingRead.settle, hout, hw.open_]
        refine ⟨fun hnone => (by cases hnone), ?_⟩
        intro o ho
        cases ho
        rw [hlast]
        exact .settled hitems hpost hnow hw.sound
      · cases hq
    · cases hq
  · exact h.later hout (quietTimer_decided hout hq)

theorem ReadInv.timeout (h : ReadInv reader r) (ht : r.timeout reader = some r') :
    ReadInv reader r' := by
  unfold PendingRead.timeout at ht
  split at ht
  · next hguard =>
    obtain rfl := Option.some.inj ht
    have hout := Option.isNone_iff_eq_none.mp hguard.1
    have hw := h.waits hout
    simp only [PendingRead.settle, hguard.1, if_true]
    refine ⟨fun hnone => (by cases hnone), ?_⟩
    intro o ho
    cases ho
    have hvalue : (if r.seen then r.last else reader.null) =
        (reader.values r.items).getLast?.getD reader.null := by
      rw [hw.last]
      split <;> rfl
    rw [hvalue]
    exact .timedOut hguard.2 hw.sound
  · cases ht

theorem ReadInv.finish (h : ReadInv reader r) (hf : r.finish = some r') : ReadInv reader r' := by
  have hsome : r.outcome.isSome = true := by
    unfold PendingRead.finish at hf
    split at hf
    · next hguard => exact hguard.1
    · cases hf
  obtain ⟨o, hout⟩ := Option.isSome_iff_exists.mp hsome
  exact h.later hout (finish_decided hout hf)

end Reads

section Spared

variable {package : CborPackage} {less : Less} {w w' : Watching} {place : Nat} {s s' : DbStream}

/-- What the subscriber of a stream sees of it is the same. -/
structure Alike (s s' : DbStream) : Prop where
  call : s'.call = s.call
  received : s'.out.received = s.out.received
  listened : s'.listened = s.listened
  cancelled : s'.phase = .cancelled ↔ s.phase = .cancelled

theorem Alike.refl (s : DbStream) : Alike s s := ⟨rfl, rfl, rfl, Iff.rfl⟩

theorem alike_set {i : Nat} {t : DbStream} (hs : w.streams[place]? = some s)
    (ht : i = place → Alike s t) :
    ∃ s', (w.streams.set i t)[place]? = some s' ∧ Alike s s' := by
  by_cases hi : i = place
  · subst hi
    exact ⟨t, List.getElem?_set_self (List.getElem?_eq_some_iff.mp hs).1, ht rfl⟩
  · exact ⟨s, (List.getElem?_set_ne hi).trans hs, .refl s⟩

theorem message_alike (h : s.message package = some s') : Alike s s' := by
  unfold DbStream.message at h
  split at h
  · cases h
  · obtain ⟨⟨bytes, inbox⟩, -, hs'⟩ := Option.map_eq_some_iff.mp h
    dsimp only at hs'
    split at hs' <;> subst hs' <;> exact ⟨rfl, rfl, rfl, Iff.rfl⟩

theorem microtask_alike (h : s.microtask = some s') : Alike s s' := by
  unfold DbStream.microtask at h
  split at h
  · next error hphase =>
    cases h
    exact ⟨rfl, rfl, rfl, by simp [DbStream.addError, hphase]⟩
  · cases h

/-- A step that does not subscribe to a stream is not seen by who does. -/
theorem step_spares (hs : w.streams[place]? = some s) {a : WatchAction} (ha : a.Spares place)
    (hstep : w.step package less a = some w') :
    ∃ s', w'.streams[place]? = some s' ∧ Alike s s' := by
  have hlt := (List.getElem?_eq_some_iff.mp hs).1
  have hat : ∀ {i f}, w.at i f = some w' → (∀ s', f s = some s' → i = place → Alike s s') →
      ∃ s', w'.streams[place]? = some s' ∧ Alike s s' := by
    intro i f hf hsame
    obtain ⟨t', ht', rfl⟩ := Option.map_eq_some_iff.mp hf
    obtain ⟨t, ht, hft⟩ := Option.bind_eq_some_iff.mp ht'
    refine alike_set hs ?_
    rintro rfl
    obtain rfl := Option.some.inj (ht.symm.trans hs)
    exact hsame t' hft rfl
  cases a with
  | ask call database port =>
    have happend : ∀ t : DbStream, (w.streams ++ [t])[place]? = some s := by
      intro t
      rw [List.getElem?_append_left hlt]
      exact hs
    change w.ask package less call database port = some w' at hstep
    unfold Watching.ask at hstep
    split at hstep
    · split at hstep
      · cases hstep
      · obtain ⟨⟨after, t⟩, -, rfl⟩ := Option.map_eq_some_iff.mp hstep
        exact ⟨s, happend t, .refl s⟩
    · cases hstep
      exact ⟨s, happend _, .refl s⟩
  | listen i database port =>
    obtain ⟨t, -, hstep⟩ := Option.bind_eq_some_iff.mp hstep
    split at hstep
    · cases hstep
    · split at hstep
      · split at hstep
        · cases hstep
        · obtain ⟨⟨after, t'⟩, -, rfl⟩ := Option.map_eq_some_iff.mp hstep
          exact alike_set hs fun hi => absurd hi ha
      · cases hstep
        exact alike_set hs fun hi => absurd hi ha
      · cases hstep
        exact alike_set hs fun hi => absurd hi ha
  | report kind l postedNs r =>
    change w.report less kind l postedNs r = some w' at hstep
    unfold Watching.report at hstep
    split at hstep
    · cases hstep
    · next listener hlistener =>
      split at hstep
      · obtain rfl := Option.some.inj hstep
        split
        · next bytes _ =>
          refine ⟨if s.phase.port = some listener.port then
            { s with inbox := s.inbox.send bytes } else s, ?_, ?_⟩
          · show (w.streams.map _)[place]? = _
            rw [List.getElem?_map, hs, Option.map_some]
          · split
            · exact ⟨rfl, rfl, rfl, Iff.rfl⟩
            · exact .refl s
        · exact ⟨s, hs, .refl s⟩
      · cases hstep
  | message i => exact hat hstep fun s' hf _ => message_alike hf
  | microtask i => exact hat hstep fun s' hf _ => microtask_alike hf
  | deliver i => exact hat hstep fun s' _ hi => absurd hi ha
  | cancel i =>
    obtain ⟨t, -, hstep⟩ := Option.bind_eq_some_iff.mp hstep
    split at hstep
    · cases hstep
    · obtain rfl := Option.some.inj hstep
      exact alike_set hs fun hi => absurd hi ha

/-- One item goes from the controller to the subscriber. -/
theorem deliver_last (hs : w.streams[place]? = some s)
    (hstep : w.step package less (.deliver place) = some w') :
    ∃ s' item, w'.streams[place]? = some s' ∧ s'.out.received = s.out.received ++ [item] ∧
      s'.call = s.call ∧ s'.listened = s.listened ∧ s'.phase = s.phase ∧ s.phase ≠ .cancelled := by
  obtain ⟨t', ht', rfl⟩ := Option.map_eq_some_iff.mp hstep
  obtain ⟨t, ht, hft⟩ := Option.bind_eq_some_iff.mp ht'
  obtain rfl := Option.some.inj (ht.symm.trans hs)
  have hgoes : t.phase ≠ .cancelled := by
    intro hphase
    simp [DbStream.deliver, hphase] at hft
  unfold DbStream.deliver at hft
  split at hft
  · cases hft
  · cases hft
  · obtain ⟨⟨item, out⟩, hreceive, rfl⟩ := Option.map_eq_some_iff.mp hft
    exact ⟨_, item, List.getElem?_set_self (List.getElem?_eq_some_iff.mp hs).1,
      (Channel.receive_cases hreceive).2.1, rfl, rfl, rfl, hgoes⟩

end Spared

section System

variable {α : Type} {package : CborPackage} {less : Less} {reader : Reader α} {w w' : Watching}
  {s s' : DbStream} {r r' : Reading α}

/-- The stream of a read, and what has come of it. -/
structure Subscribed (r : Reading α) (s : DbStream) : Prop where
  listened : s.listened = true
  items : r.read.items.map Prod.snd <+: s.out.received
  all : r.read.outcome = none → r.read.items.map Prod.snd = s.out.received
  ended : s.phase = .cancelled ↔ r.read.finished = true
  stopped : r.read.finished = true → r.read.quiet = none ∧ r.read.outcome ≠ none

structure ReadingInv (package : CborPackage) (less : Less) (reader : Reader α)
    (r : Reading α) : Prop where
  watch : WatchInv package less r.watching
  read : ReadInv reader r.read
  stream : ∃ s, r.watching.streams[r.place]? = some s ∧ Subscribed r s

theorem begin_out {n n' : Listening} {database : Bool} {port : Int64}
    (h : s.begin package less n database port = some (n', s')) :
    s'.out = s.out ∧ s'.listened = s.listened ∧ s'.phase ≠ .cancelled := by
  have hrefused : ∀ rc, s.call.refused rc ≠ .cancelled := by
    intro rc hphase
    cases hcall : s.call <;> rw [hcall] at hphase <;> cases hphase
  unfold DbStream.begin at h
  split at h
  · cases h
    exact ⟨rfl, rfl, by simp⟩
  · obtain ⟨⟨after, handle⟩, -, hs'⟩ := Option.map_eq_some_iff.mp h
    dsimp only at hs'
    split at hs' <;> cases hs'
    · exact ⟨rfl, rfl, hrefused handle⟩
    · exact ⟨rfl, rfl, by simp⟩

/-- The stream that was asked for last has told nothing. -/
theorem ask_last {call : StreamCall} {database : Bool} {port : Int64}
    (h : w.step package less (.ask call database port) = some w') :
    ∃ s, w'.streams[w.streams.length]? = some s ∧ s.out.received = [] ∧ s.phase ≠ .cancelled := by
  change w.ask package less call database port = some w' at h
  unfold Watching.ask at h
  split at h
  · split at h
    · cases h
    · obtain ⟨⟨after, s⟩, hbegin, rfl⟩ := Option.map_eq_some_iff.mp h
      obtain ⟨hout, -, hphase⟩ := begin_out hbegin
      refine ⟨s, by simp, ?_, hphase⟩
      rw [hout]
      rfl
  · cases h
    exact ⟨.new call, by simp, rfl, by simp [DbStream.new]⟩

theorem listen_own {i : Nat} {database : Bool} {port : Int64} (hs : w.streams[i]? = some s)
    (hempty : s.out.received = []) (hphase : s.phase ≠ .cancelled)
    (h : w.step package less (.listen i database port) = some w') :
    ∃ s', w'.streams[i]? = some s' ∧ s'.out.received = [] ∧ s'.listened = true ∧
      s'.phase ≠ .cancelled := by
  have hself : ∀ t : DbStream, (w.streams.set i t)[i]? = some t := fun t =>
    List.getElem?_set_self (List.getElem?_eq_some_iff.mp hs).1
  obtain ⟨t, ht, h⟩ := Option.bind_eq_some_iff.mp h
  obtain rfl := Option.some.inj (ht.symm.trans hs)
  split at h
  · cases h
  · split at h
    · split at h
      · cases h
      · obtain ⟨⟨after, s'⟩, hbegin, rfl⟩ := Option.map_eq_some_iff.mp h
        obtain ⟨hout, hlistened, hgoes⟩ := begin_out hbegin
        refine ⟨s', hself s', ?_, hlistened, hgoes⟩
        rw [hout]
        exact hempty
    · cases h
      exact ⟨_, hself _, hempty, rfl, by simp [DbStream.addError]⟩
    · cases h
      exact ⟨_, hself _, hempty, rfl, hphase⟩

theorem ReadingInv.begin {now : Nat} {call : StreamCall} {database : Bool} {port : Int64}
    (hw : WatchInv package less w)
    (h : Reading.begin package less reader w now call database port = some r) :
    ReadingInv package less reader r := by
  obtain ⟨w₁, hask, h⟩ := Option.bind_eq_some_iff.mp h
  obtain ⟨w₂, hlisten, h⟩ := Option.bind_eq_some_iff.mp h
  cases h
  obtain ⟨s₁, hs₁, hempty, hphase⟩ := ask_last hask
  obtain ⟨s₂, hs₂, hreceived, hlistened, hgoes⟩ := listen_own hs₁ hempty hphase hlisten
  refine ⟨(hw.step hask).step hlisten, .start now, s₂, hs₂, hlistened, ?_, ?_, ?_, ?_⟩
  · exact List.nil_prefix
  · intro _
    exact hreceived.symm
  · exact iff_of_false hgoes (by simp [PendingRead.start])
  · intro hfinished
    cases hfinished

theorem complete_frame (r : PendingRead α) (o : Outcome α) :
    (r.complete o).finished = r.finished ∧ (r.complete o).items = r.items ∧
      (r.complete o).quiet = r.quiet ∧ ((r.complete o).outcome = none → r.outcome = none) := by
  unfold PendingRead.complete PendingRead.settle
  split
  · exact ⟨rfl, rfl, rfl, id⟩
  · split
    · refine ⟨rfl, rfl, rfl, ?_⟩
      intro h
      cases h
    · exact ⟨rfl, rfl, rfl, id⟩

theorem item_frame (reader : Reader α) (r : PendingRead α) (i : StreamItem) :
    (r.item reader i).finished = r.finished ∧
      (r.item reader i).items = (r.noted i).items ∧
      ((r.item reader i).outcome = none → r.outcome = none) := by
  have hnoted : (r.noted i).finished = r.finished ∧ (r.noted i).outcome = r.outcome := by
    unfold PendingRead.noted
    split <;> exact ⟨rfl, rfl⟩
  cases i with
  | snapshot s => exact ⟨hnoted.1, rfl, hnoted.2 ▸ id⟩
  | child c => exact ⟨hnoted.1, rfl, hnoted.2 ▸ id⟩
  | error e =>
    obtain ⟨hfinished, hitems, -, houtcome⟩ := complete_frame (r.noted (.error e)) (.error e)
    exact ⟨hfinished.trans hnoted.1, hitems, fun h => hnoted.2 ▸ houtcome h⟩

theorem noted_none {r : PendingRead α} (h : r.outcome = none) (i : StreamItem) :
    (r.noted i).items = r.items ++ [(r.now, i)] := by
  simp [PendingRead.noted, h]

theorem noted_some {r : PendingRead α} (h : r.outcome ≠ none) (i : StreamItem) :
    (r.noted i).items = r.items := by
  simp [PendingRead.noted, h]

/-- A timer that goes off brings no item, and ends nothing. -/
structure Fired (r r' : PendingRead α) : Prop where
  finished : r'.finished = r.finished
  items : r'.items = r.items
  quiet : r.quiet = none → r'.quiet = none
  outcome : r'.outcome = none → r.outcome = none

theorem quietTimer_fired {r r' : PendingRead α} (h : r.quietTimer = some r') : Fired r r' := by
  unfold PendingRead.quietTimer at h
  split at h
  · split at h
    · obtain rfl := Option.some.inj h
      obtain ⟨hfinished, hitems, hquiet, houtcome⟩ :=
        complete_frame { r with quiet := none } (.ok r.last)
      exact ⟨hfinished, hitems, fun _ => hquiet, houtcome⟩
    · cases h
  · cases h

theorem timeout_fired {r r' : PendingRead α} (h : r.timeout reader = some r') : Fired r r' := by
  unfold PendingRead.timeout at h
  split at h
  · next hguard =>
    obtain rfl := Option.some.inj h
    simp only [PendingRead.settle, hguard.1, if_true]
    exact ⟨rfl, rfl, id, fun _ => Option.isNone_iff_eq_none.mp hguard.1⟩
  · cases h

/-- The stream of a read is left as it is while a timer of the read goes off. -/
theorem Subscribed.fired {read : PendingRead α} (h : Subscribed r s) (hf : Fired r.read read) :
    Subscribed { r with read := read } s := by
  obtain ⟨hlistened, hitems, hall, hover, hstopped⟩ := h
  refine ⟨hlistened, ?_, ?_, ?_, ?_⟩
  · show read.items.map Prod.snd <+: _
    rw [hf.items]
    exact hitems
  · intro hnone
    show read.items.map Prod.snd = _
    rw [hf.items]
    exact hall (hf.outcome hnone)
  · show _ ↔ read.finished = true
    rw [hf.finished]
    exact hover
  · intro hfinished
    change read.finished = true at hfinished
    rw [hf.finished] at hfinished
    obtain ⟨hquiet, houtcome⟩ := hstopped hfinished
    exact ⟨hf.quiet hquiet, fun hnone => houtcome (hf.outcome hnone)⟩

theorem Subscribed.alike {w : Watching} (h : Subscribed r s) (ha : Alike s s') :
    Subscribed { r with watching := w } s' := by
  obtain ⟨hlistened, hitems, hall, hover, hstopped⟩ := h
  refine ⟨ha.listened.trans hlistened, ?_, ?_, ha.cancelled.trans hover, hstopped⟩
  · rw [ha.received]
    exact hitems
  · rw [ha.received]
    exact hall

theorem Subscribed.item {w : Watching} {i : StreamItem} (h : Subscribed r s)
    (hgoes : s.phase ≠ .cancelled) (hreceived : s'.out.received = s.out.received ++ [i])
    (hlistened : s'.listened = s.listened) (hphase : s'.phase = s.phase) :
    Subscribed { r with watching := w, read := r.read.item reader i } s' := by
  obtain ⟨hfinished, hitems, houtcome⟩ := item_frame reader r.read i
  have hgoing : ¬ r.read.finished = true := fun hf => hgoes (h.ended.mpr hf)
  refine ⟨hlistened.trans h.listened, ?_, ?_, ?_, ?_⟩
  · rw [hreceived]
    show (r.read.item reader i).items.map Prod.snd <+: _
    rw [hitems]
    by_cases hnone : r.read.outcome = none
    · rw [noted_none hnone, List.map_append, h.all hnone]
      exact List.prefix_rfl
    · rw [noted_some hnone]
      exact List.IsPrefix.trans h.items (List.prefix_append _ _)
  · intro hnone
    show (r.read.item reader i).items.map Prod.snd = _
    rw [hitems, noted_none (houtcome hnone), List.map_append, h.all (houtcome hnone), hreceived]
    rfl
  · rw [hphase]
    show _ ↔ (r.read.item reader i).finished = true
    rw [hfinished]
    exact h.ended
  · intro hf
    change (r.read.item reader i).finished = true at hf
    rw [hfinished] at hf
    exact absurd hf hgoing

theorem Subscribed.finish {w : Watching} {read : PendingRead α} (h : Subscribed r s)
    (hf : r.read.finish = some read) (hs' : s' = { s with phase := .cancelled }) :
    Subscribed { r with watching := w, read := read } s' := by
  subst hs'
  unfold PendingRead.finish at hf
  split at hf
  · next hguard =>
    obtain rfl := Option.some.inj hf
    obtain ⟨o, hout⟩ := Option.isSome_iff_exists.mp hguard.1
    refine ⟨h.listened, h.items, h.all, iff_of_true rfl rfl, fun _ => ⟨rfl, ?_⟩⟩
    show r.read.outcome ≠ none
    rw [hout]
    exact Option.some_ne_none o
  · cases hf

theorem ReadingInv.step (h : ReadingInv package less reader r) {a : ReadAction}
    (hstep : r.step package less reader a = some r') : ReadingInv package less reader r' := by
  obtain ⟨hwatch, hread, s, hs, hsub⟩ := h
  cases a with
  | other a =>
    change (if a.Spares r.place then _ else none) = some r' at hstep
    split at hstep
    · next hspares =>
      obtain ⟨w, hw, rfl⟩ := Option.map_eq_some_iff.mp hstep
      obtain ⟨s', hs', halike⟩ := step_spares hs hspares hw
      exact ⟨hwatch.step hw, hread, s', hs', hsub.alike halike⟩
    · cases hstep
  | pass ms =>
    cases hstep
    exact ⟨hwatch, ⟨fun hnone => ⟨(hread.waits hnone).sound, (hread.waits hnone).open_,
      (hread.waits hnone).last, (hread.waits hnone).quiet⟩,
      fun o ho => (hread.answered o ho).later ⟨ho, rfl, rfl, rfl⟩⟩, s, hs,
      hsub.fired ⟨rfl, rfl, id, id⟩⟩
  | item =>
    obtain ⟨w, hw, hstep⟩ := Option.bind_eq_some_iff.mp hstep
    obtain ⟨i, hi, rfl⟩ := Option.map_eq_some_iff.mp hstep
    obtain ⟨s', item, hs', hreceived, -, hlistened, hphase, hgoes⟩ := deliver_last hs hw
    have hlast : item = i := by
      rw [hs', Option.bind_some, hreceived, List.getLast?_concat] at hi
      exact Option.some.inj hi
    subst hlast
    exact ⟨hwatch.step hw, hread.item _, s', hs', hsub.item hgoes hreceived hlistened hphase⟩
  | quiet =>
    obtain ⟨read, hq, rfl⟩ := Option.map_eq_some_iff.mp hstep
    exact ⟨hwatch, hread.quietTimer hq, s, hs, hsub.fired (quietTimer_fired hq)⟩
  | timeout =>
    obtain ⟨read, ht, rfl⟩ := Option.map_eq_some_iff.mp hstep
    exact ⟨hwatch, hread.timeout ht, s, hs, hsub.fired (timeout_fired ht)⟩
  | finish =>
    obtain ⟨read, hf, hstep⟩ := Option.bind_eq_some_iff.mp hstep
    obtain ⟨w, hw, rfl⟩ := Option.map_eq_some_iff.mp hstep
    refine ⟨hwatch.step hw, hread.finish hf, { s with phase := .cancelled }, ?_, hsub.finish hf rfl⟩
    obtain ⟨t, ht, hw⟩ := Option.bind_eq_some_iff.mp hw
    obtain rfl := Option.some.inj (ht.symm.trans hs)
    split at hw
    · cases hw
    · obtain rfl := Option.some.inj hw
      exact List.getElem?_set_self (List.getElem?_eq_some_iff.mp hs).1

/-- The future is completed once. -/
theorem step_decided {o : Outcome α} (hout : r.read.outcome = some o) {a : ReadAction}
    (hstep : r.step package less reader a = some r') : r'.read.outcome = some o := by
  cases a with
  | other a =>
    change (if a.Spares r.place then _ else none) = some r' at hstep
    split at hstep
    · obtain ⟨w, -, rfl⟩ := Option.map_eq_some_iff.mp hstep
      exact hout
    · cases hstep
  | pass ms =>
    cases hstep
    exact hout
  | item =>
    obtain ⟨w, -, hstep⟩ := Option.bind_eq_some_iff.mp hstep
    obtain ⟨i, -, rfl⟩ := Option.map_eq_some_iff.mp hstep
    exact (item_decided hout i).outcome
  | quiet =>
    obtain ⟨read, hq, rfl⟩ := Option.map_eq_some_iff.mp hstep
    exact (quietTimer_decided hout hq).outcome
  | timeout =>
    obtain ⟨read, ht, rfl⟩ := Option.map_eq_some_iff.mp hstep
    cases hout.symm.trans (timeout_undecided ht)
  | finish =>
    obtain ⟨read, hf, hstep⟩ := Option.bind_eq_some_iff.mp hstep
    obtain ⟨w, -, rfl⟩ := Option.map_eq_some_iff.mp hstep
    exact (finish_decided hout hf).outcome

theorem finish_ends (reader : Reader α) {o : Outcome α} {watching : Watching} {place : Nat} {read : PendingRead α}
    (hcancel : watching.step package less (.cancel place) = some w)
    (hout : read.outcome = some o) (hgoing : read.finished = false) :
    ∃ r', Reading.step package less reader ⟨watching, place, read⟩ .finish = some r' ∧
      r'.read.finished = true := by
  refine ⟨⟨w, place, { read with quiet := none, finished := true }⟩, ?_, rfl⟩
  simp [Reading.step, PendingRead.finish, hout, hgoing, hcancel]

/-- A read ends at the latest when its time has run out. -/
theorem ReadingInv.ends (h : ReadingInv package less reader r) :
    ∃ as r', exec (Reading.step package less reader) r as = some r' ∧
      r'.read.finished = true := by
  obtain ⟨-, -, s, hs, hsub⟩ := h
  have hcancel : (r.watching.step package less (.cancel r.place)).isSome = true := by
    simp [Watching.step, Watching.cancel, hs, hsub.listened]
  obtain ⟨w, hw⟩ := Option.isSome_iff_exists.mp hcancel
  cases hfinished : r.read.finished with
  | true => exact ⟨[], r, rfl, hfinished⟩
  | false =>
    rcases Option.eq_none_or_eq_some r.read.outcome with hout | ⟨o, hout⟩
    · let late : PendingRead α :=
        { r.read with now := r.read.now + (r.read.began + reader.timeout) }
      let o : Outcome α := .ok (if r.read.seen then r.read.last else reader.null)
      have htimeout : late.timeout reader = some (late.settle o) := by
        have hdue : r.read.began + reader.timeout ≤ late.now := Nat.le_add_left _ _
        simp only [PendingRead.timeout, late, hout, o]
        rw [if_pos ⟨rfl, hdue⟩]
      have hanswer : (late.settle o).outcome = some o ∧ (late.settle o).finished = false := by
        simp [PendingRead.settle, late, hout, hfinished]
      obtain ⟨r', hr', hover⟩ := finish_ends reader hw hanswer.1 hanswer.2
      refine ⟨[.pass (r.read.began + reader.timeout), .timeout, .finish], r', ?_, hover⟩
      show ((late.timeout reader).map fun read => (⟨r.watching, r.place, read⟩ : Reading α)).bind
        (fun t => exec (Reading.step package less reader) t [.finish]) = some r'
      rw [htimeout, Option.map_some, Option.bind_some, exec, hr']
      rfl
    · obtain ⟨r', hr', hover⟩ := finish_ends reader hw hout hfinished
      refine ⟨[.finish], r', ?_, hover⟩
      rw [exec, hr']
      rfl

end System

section Reads

variable {α : Type} {package : CborPackage} {less : Less} {reader : Reader α} {w : Watching}
  {r₀ r : Reading α}

/-- The streams go on among the steps of a read as they go on without it. -/
theorem reading_run (hw : Run (Watching.step package less) (fun _ a => a.Arriving less) .start w)
    {now : Nat} {call : StreamCall} {database : Bool} {port : Int64}
    (hbegin : Reading.begin package less reader w now call database port = some r₀)
    (h : Run (Reading.step package less reader) (fun _ a => a.Arriving less) r₀ r) :
    Run (Watching.step package less) (fun _ a => a.Arriving less) .start r.watching := by
  obtain ⟨w₁, hask, hbegin⟩ := Option.bind_eq_some_iff.mp hbegin
  obtain ⟨w₂, hlisten, hbegin⟩ := Option.bind_eq_some_iff.mp hbegin
  cases hbegin
  have hquiet : (WatchAction.ask call database port).Arriving less ∧
      (WatchAction.listen w.streams.length database port).Arriving less ∧
      ∀ i, (WatchAction.deliver i).Arriving less ∧ (WatchAction.cancel i).Arriving less :=
    ⟨trivial, trivial, fun _ => ⟨trivial, trivial⟩⟩
  obtain ⟨hasks, hlistens, hrest⟩ := hquiet
  refine h.invariant (I := fun r : Reading α =>
      Run (Watching.step package less) (fun _ a => a.Arriving less) .start r.watching)
    (.next (.next hw hasks hask) hlistens hlisten) ?_
  intro t a u ht ha hstep
  cases a with
  | other a =>
    change (if a.Spares t.place then _ else none) = some u at hstep
    split at hstep
    · obtain ⟨w', hw', rfl⟩ := Option.map_eq_some_iff.mp hstep
      exact .next ht ha hw'
    · cases hstep
  | pass ms =>
    cases hstep
    exact ht
  | item =>
    obtain ⟨w', hw', hstep⟩ := Option.bind_eq_some_iff.mp hstep
    obtain ⟨i, -, rfl⟩ := Option.map_eq_some_iff.mp hstep
    exact .next ht (hrest _).1 hw'
  | quiet =>
    obtain ⟨read, -, rfl⟩ := Option.map_eq_some_iff.mp hstep
    exact ht
  | timeout =>
    obtain ⟨read, -, rfl⟩ := Option.map_eq_some_iff.mp hstep
    exact ht
  | finish =>
    obtain ⟨read, -, hstep⟩ := Option.bind_eq_some_iff.mp hstep
    obtain ⟨w', hw', rfl⟩ := Option.map_eq_some_iff.mp hstep
    exact .next ht (hrest _).2 hw'

/-- What is certain of a read at any time. -/
structure Certain {α : Type} (package : CborPackage) (less : Less) (reader : Reader α)
    (r : Reading α) : Prop where
  answer : ∀ o, r.read.outcome = some o → ReadsAs reader r.read o ∧
    ∀ as r', exec (Reading.step package less reader) r as = some r' → r'.read.outcome = some o
  stream : ∃ s, r.watching.streams[r.place]? = some s ∧ Tells package less r.watching s ∧
    r.read.items.map Prod.snd <+: s.out.received ∧ (r.read.finished = true → s.phase = .cancelled)
  ended : r.read.finished = true → r.read.outcome ≠ none ∧ r.read.quiet = none
  ends : ∃ as r', exec (Reading.step package less reader) r as = some r' ∧
    r'.read.finished = true

/-- In every run of a read among other streams, it answers once, with what the SDK
told its listener, and when it is over its stream is cancelled. It can always end. -/
theorem reads_answer (hp : package.Reads) (hless : OrdersEvents less)
    (hw : Run (Watching.step package less) (fun _ a => a.Arriving less) .start w)
    {now : Nat} {call : StreamCall} {database : Bool} {port : Int64}
    (hbegin : Reading.begin package less reader w now call database port = some r₀)
    (h : Run (Reading.step package less reader) (fun _ a => a.Arriving less) r₀ r) :
    Certain package less reader r := by
  obtain ⟨-, hheard⟩ := run_heard hp hless (reading_run hw hbegin h)
  have hinv : ReadingInv package less reader r :=
    h.invariant (.begin (WatchInv.run hw) hbegin) fun _ _ _ ht _ hstep => ht.step hstep
  obtain ⟨s, hs, hsub⟩ := hinv.stream
  refine ⟨?_, ⟨s, hs, hinv.watch.tells hheard hs, hsub.items, hsub.ended.mpr⟩, ?_, hinv.ends⟩
  · intro o ho
    refine ⟨hinv.read.answered o ho, ?_⟩
    intro as r' hexec
    exact (Run.of_exec hexec (Guarded.unguarded as)).invariant (I := fun r => r.read.outcome = some o)
      ho fun _ _ _ ht _ hstep => step_decided ht hstep
  · intro hfinished
    obtain ⟨hquiet, hout⟩ := hsub.stopped hfinished
    exact ⟨hout, hquiet⟩

/-- A stream of children, beside which a node is read. -/
def listening : List WatchAction :=
  [.ask (.onChildEvent [0x61] .empty) true 0, .listen 0 true 7]

/-- The snapshot comes, and nothing after it for as long as it takes to settle. -/
def settles : List ReadAction :=
  [.other (.report .child 0 5 oneChild), .other (.report .value 1 6 oneValue), .other (.message 1),
    .item, .other (.message 0), .other (.deliver 0), .pass 400, .quiet, .finish]

/-- The snapshot comes too late to settle before the timeout. -/
def comesLate : List ReadAction :=
  [.other (.report .child 0 5 oneChild), .pass 14800, .other (.report .value 1 6 oneValue),
    .other (.message 1), .item, .pass 200, .timeout, .other (.message 0), .finish]

theorem beside_answers : ∃ w r₀ settled late,
    exec (Watching.step itemPackage byBytes) .start listening = some w ∧
    Reading.begin itemPackage byBytes (readValue 400 15000) w 0 (.onValue [0x61]) true 8 = some r₀ ∧
    exec (Reading.step itemPackage byBytes (readValue 400 15000)) r₀ settles = some settled ∧
    exec (Reading.step itemPackage byBytes (readValue 400 15000)) r₀ comesLate = some late ∧
    settled.read.outcome = some (.ok (.int 3)) ∧ settled.read.ended = 400 ∧
    late.read.outcome = some (.ok (.int 3)) ∧ late.read.ended = 15000 ∧
    Certain itemPackage byBytes (readValue 400 15000) settled ∧
    Certain itemPackage byBytes (readValue 400 15000) late := by
  rw [← knownPackage_eq toldItems_wf]
  have hreads : (knownPackage toldItems).Reads :=
    knownPackage_eq toldItems_wf ▸ itemPackage_reads
  have hboth : (exec (Watching.step (knownPackage toldItems) byBytes) .start listening).bind
      (fun w => Reading.begin (knownPackage toldItems) byBytes (readValue 400 15000) w 0
        (.onValue [0x61]) true 8) = some _ := rfl
  obtain ⟨w, hlistening, hbegin⟩ := Option.bind_eq_some_iff.mp hboth
  have hrun : Run (Watching.step (knownPackage toldItems) byBytes)
      (fun _ a => a.Arriving byBytes) .start w :=
    Run.of_exec hlistening ⟨trivial, fun _ _ => ⟨trivial, fun _ _ => trivial⟩⟩
  refine ⟨w, _, _, _, hlistening, hbegin, rfl, rfl, rfl, rfl, rfl, rfl, ?_, ?_⟩
  · refine reads_answer hreads byBytes_events hrun hbegin
      (Run.of_exec (show exec _ _ settles = some _ from rfl) (Guarded.of_actions ?_))
    simp only [settles, List.forall_mem_cons]
    exact ⟨oneChild_arrives, oneValue_arrives, trivial, trivial, trivial, trivial, trivial,
      trivial, trivial, by simp⟩
  · refine reads_answer hreads byBytes_events hrun hbegin
      (Run.of_exec (show exec _ _ comesLate = some _ from rfl) (Guarded.of_actions ?_))
    simp only [comesLate, List.forall_mem_cons]
    exact ⟨oneChild_arrives, trivial, oneValue_arrives, trivial, trivial, trivial, trivial,
      trivial, trivial, by simp⟩

end Reads

end Database
