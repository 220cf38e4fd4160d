import FirebaseFfi.Database.Writes
import FirebaseFfi.Machine.Answering

namespace Database
open Calls Cbor Dart Machine Tinycbor
open Firebase (Variant VariantMap Less Sendable Arrived Alike Encodes OrdersTexts WithinInt64
  parseVariant)

def DbWrite.path : DbWrite → Bytes
  | .setValue path _ | .updateChildren path _ | .setValueWithPriority path _ _
  | .setPriority path _ | .removeValue path | .onDisconnectSetValue path _
  | .onDisconnectUpdateChildren path _ | .onDisconnectSetValueWithPriority path _ _
  | .onDisconnectRemove path | .onDisconnectCancel path => path

/-- The values that a write sends. -/
def DbWrite.values : DbWrite → List Object
  | .setValue _ value | .onDisconnectSetValue _ value => [value]
  | .updateChildren _ value | .onDisconnectUpdateChildren _ value => [textMap value]
  | .setValueWithPriority _ value priority
  | .onDisconnectSetValueWithPriority _ value priority => [value, priority]
  | .setPriority _ priority => [priority]
  | .removeValue _ | .onDisconnectRemove _ | .onDisconnectCancel _ => []

/-- The write and what the SDK is to be asked for it, where each value comes to one
that the SDK is given. -/
inductive Asks (Comes : Object → Variant → Prop) : DbWrite → DbRequest → Prop
  | setValue {path value v} : Comes value v →
      Asks Comes (.setValue path value) ⟨cString path, false, .setValue v⟩
  | updateChildren {path value es} : Comes (textMap value) (.map es) →
      Asks Comes (.updateChildren path value) ⟨cString path, false, .updateChildren es⟩
  | setValueWithPriority {path value priority v p} : Comes value v → Comes priority p →
      Asks Comes (.setValueWithPriority path value priority)
        ⟨cString path, false, .setValueAndPriority v p⟩
  | setPriority {path priority p} : Comes priority p →
      Asks Comes (.setPriority path priority) ⟨cString path, false, .setPriority p⟩
  | removeValue {path} : Asks Comes (.removeValue path) ⟨cString path, false, .removeValue⟩
  | onDisconnectSetValue {path value v} : Comes value v →
      Asks Comes (.onDisconnectSetValue path value) ⟨cString path, true, .setValue v⟩
  | onDisconnectUpdateChildren {path value es} : Comes (textMap value) (.map es) →
      Asks Comes (.onDisconnectUpdateChildren path value) ⟨cString path, true, .updateChildren es⟩
  | onDisconnectSetValueWithPriority {path value priority v p} : Comes value v →
      Comes priority p → Asks Comes (.onDisconnectSetValueWithPriority path value priority)
        ⟨cString path, true, .setValueAndPriority v p⟩
  | onDisconnectRemove {path} :
      Asks Comes (.onDisconnectRemove path) ⟨cString path, true, .removeValue⟩
  | onDisconnectCancel {path} :
      Asks Comes (.onDisconnectCancel path) ⟨cString path, true, .cancel⟩

theorem Asks.mono {Comes Comes' : Object → Variant → Prop} {write : DbWrite} {r : DbRequest}
    (h : Asks Comes write r) (hmono : ∀ v ∈ write.values, ∀ w, Comes v w → Comes' v w) :
    Asks Comes' write r := by
  have one : ∀ {v w}, v ∈ write.values → Comes v w → Comes' v w := fun hv => hmono _ hv _
  cases h with
  | setValue hv => exact .setValue (one (by simp [DbWrite.values]) hv)
  | updateChildren hv => exact .updateChildren (one (by simp [DbWrite.values]) hv)
  | setValueWithPriority hv hp =>
    exact .setValueWithPriority (one (by simp [DbWrite.values]) hv)
      (one (by simp [DbWrite.values]) hp)
  | setPriority hp => exact .setPriority (one (by simp [DbWrite.values]) hp)
  | removeValue => exact .removeValue
  | onDisconnectSetValue hv => exact .onDisconnectSetValue (one (by simp [DbWrite.values]) hv)
  | onDisconnectUpdateChildren hv =>
    exact .onDisconnectUpdateChildren (one (by simp [DbWrite.values]) hv)
  | onDisconnectSetValueWithPriority hv hp =>
    exact .onDisconnectSetValueWithPriority (one (by simp [DbWrite.values]) hv)
      (one (by simp [DbWrite.values]) hp)
  | onDisconnectRemove => exact .onDisconnectRemove
  | onDisconnectCancel => exact .onDisconnectCancel

section Fates

variable (package : CborPackage) (less : Less)

/-- The native side parses the value's bytes, and makes this of them. -/
def Parses (v : Object) (w : Variant) : Prop :=
  ∃ bytes, encodeVariant package v = .ok bytes ∧ parseVariant less bytes = .ok w

/-- The native side cannot parse the value's bytes. -/
def Unreadable (v : Object) : Prop :=
  ∃ bytes, encodeVariant package v = .ok bytes ∧ ∀ w, parseVariant less bytes ≠ .ok w

/-- An update of the named children. -/
def DbWrite.IsUpdate : DbWrite → Prop
  | .updateChildren .. | .onDisconnectUpdateChildren .. => True
  | _ => False

def isMap : Variant → Bool
  | .map _ => true
  | _ => false

/-- What becomes of a write when it is called. It throws for a value without an
encoding; it is refused without a database, for bytes that cannot be parsed, and for
an update of what is no map; else the SDK is asked for it. -/
inductive Fate (c : WriteCall) : Except WriteOutcome DbRequest → Prop
  | thrown {v thrown} : v ∈ c.write.values → ¬ Encodable v →
      encodeVariant package v = .error thrown → Fate c (.error (.threw thrown))
  | uninitialized : (∀ v ∈ c.write.values, Encodable v) → c.database = false →
      Fate c (.error (.failed (startError (-1) c.write.what)))
  | unreadable {v} : (∀ v ∈ c.write.values, Encodable v) → c.database = true →
      v ∈ c.write.values → Unreadable package less v →
      Fate c (.error (.failed (startError (-3) c.write.what)))
  | noMap {v w} : c.write.IsUpdate → c.database = true → v ∈ c.write.values →
      Parses package less v w → isMap w = false →
      Fate c (.error (.failed (startError (-4) c.write.what)))
  | asked {r} : c.database = true → Asks (Parses package less) c.write r → Fate c (.ok r)

/-- What a write is answered with by its native call. -/
def WriteCall.answered (c : WriteCall) : Except Int64 DbRequest → Except WriteOutcome DbRequest
  | .error rc => .error (.failed (startError rc c.write.what))
  | .ok request => .ok request

end Fates

section Begun

variable {package : CborPackage} {less : Less} {c : WriteCall}

theorem encoded_or (v : Object) : (∃ bytes, encodeVariant package v = .ok bytes ∧ Encodable v) ∨
    ∃ thrown, encodeVariant package v = .error thrown ∧ ¬ Encodable v := by
  cases hv : encodeVariant package v with
  | ok bytes => exact .inl ⟨bytes, rfl, (encodeVariant_ok v).mp ⟨bytes, hv⟩⟩
  | error thrown =>
    refine .inr ⟨thrown, rfl, ?_⟩
    intro hencodable
    obtain ⟨bytes, hbytes⟩ := (@encodeVariant_ok package v).mpr hencodable
    cases hv.symm.trans hbytes

theorem start_answered {answer : Except Int64 DbRequest}
    (h : c.write.invoke package less c.database = .ok answer) :
    c.start package less = c.answered answer := by
  unfold WriteCall.start
  rw [h]
  cases answer <;> rfl

theorem start_threw {thrown : Thrown}
    (h : c.write.invoke package less c.database = .error thrown) :
    c.start package less = .error (.threw thrown) := by
  unfold WriteCall.start
  rw [h]

/-- A write of one value. -/
theorem fate_one {value : Object} {next : Bytes → Except Int64 DbRequest}
    (hvalues : c.write.values = [value])
    (hinvoke : c.write.invoke package less c.database =
      encodeVariant package value >>= fun cbor => .ok (next cbor))
    (hnext : ∀ cbor, encodeVariant package value = .ok cbor → Encodable value →
      Fate package less c (c.answered (next cbor))) :
    Fate package less c (c.start package less) := by
  rcases @encoded_or package value with ⟨cbor, hcbor, hencodable⟩ | ⟨thrown, hthrown, hnot⟩
  · rw [start_answered (by rw [hinvoke, hcbor, ok_bind])]
    exact hnext cbor hcbor hencodable
  · rw [start_threw (by rw [hinvoke, hthrown]; rfl)]
    exact .thrown (by simp [hvalues]) hnot hthrown

/-- A write of two. -/
theorem fate_two {value priority : Object} {next : Bytes → Bytes → Except Int64 DbRequest}
    (hvalues : c.write.values = [value, priority])
    (hinvoke : c.write.invoke package less c.database =
      encodeVariant package value >>= fun cbor =>
        encodeVariant package priority >>= fun prio => .ok (next cbor prio))
    (hnext : ∀ cbor prio, encodeVariant package value = .ok cbor →
      encodeVariant package priority = .ok prio → Encodable value → Encodable priority →
      Fate package less c (c.answered (next cbor prio))) :
    Fate package less c (c.start package less) := by
  rcases @encoded_or package value with ⟨cbor, hcbor, hencodable⟩ | ⟨thrown, hthrown, hnot⟩
  · rcases @encoded_or package priority with ⟨prio, hprio, hsecond⟩ | ⟨thrown, hthrown, hnot⟩
    · rw [start_answered (by rw [hinvoke, hcbor, ok_bind, hprio, ok_bind])]
      exact hnext cbor prio hcbor hprio hencodable hsecond
    · rw [start_threw (by rw [hinvoke, hcbor, ok_bind, hthrown]; rfl)]
      exact .thrown (by simp [hvalues]) hnot hthrown
  · rw [start_threw (by rw [hinvoke, hthrown]; rfl)]
    exact .thrown (by simp [hvalues]) hnot hthrown

/-- A native call is refused first of all without a database. -/
theorem fate_reference {path : Bytes} {onDisconnect : Bool}
    {operation : Except Int64 DbOperation} (hall : ∀ v ∈ c.write.values, Encodable v)
    (h : c.database = true → Fate package less c
      (c.answered (operation >>= fun o => .ok ⟨path, onDisconnect, o⟩))) :
    Fate package less c
      (c.answered (onReference c.database (some path) onDisconnect operation)) := by
  cases hdatabase : c.database with
  | false => exact .uninitialized hall hdatabase
  | true => exact h hdatabase

/-- Then for a value that cannot be parsed. -/
theorem fate_parsed {value : Object} {cbor : Bytes} {next : Variant → Except Int64 DbRequest}
    (hall : ∀ v ∈ c.write.values, Encodable v) (hdatabase : c.database = true)
    (hvalue : value ∈ c.write.values) (hcbor : encodeVariant package value = .ok cbor)
    (h : ∀ w, Parses package less value w → Fate package less c (c.answered (next w))) :
    Fate package less c (c.answered (parsed less cbor >>= next)) := by
  unfold parsed
  cases hparse : parseVariant less cbor with
  | ok w => exact h w ⟨cbor, hcbor, hparse⟩
  | error e =>
    refine .unreadable hall hdatabase hvalue ⟨cbor, hcbor, ?_⟩
    intro w hw
    cases hparse.symm.trans hw

end Begun

section Fates

variable {package : CborPackage} {less : Less} {c : WriteCall}

/-- The bytes of a value are parsed and become an operation. -/
theorem fate_set {path : Bytes} {onDisconnect : Bool} {value : Object}
    (hvalues : c.write.values = [value]) {operation : Bytes → Except Int64 DbOperation}
    {next : Variant → Except Int64 DbOperation}
    (hoperation : ∀ cbor, operation cbor = parsed less cbor >>= next)
    (hinvoke : c.write.invoke package less c.database = encodeVariant package value >>=
      fun cbor => .ok (onReference c.database (some path) onDisconnect (operation cbor)))
    (hnext : ∀ w, c.database = true → Parses package less value w → Fate package less c
      (c.answered (next w >>= fun o => .ok ⟨path, onDisconnect, o⟩))) :
    Fate package less c (c.start package less) := by
  refine fate_one hvalues hinvoke ?_
  intro cbor hcbor hencodable
  have hall : ∀ v ∈ c.write.values, Encodable v := by
    rw [hvalues]
    exact List.forall_mem_singleton.mpr hencodable
  refine fate_reference hall fun hdatabase => ?_
  rw [hoperation, bind_assoc]
  exact fate_parsed hall hdatabase (by simp [hvalues]) hcbor fun w hw => hnext w hdatabase hw

theorem fate_update {path : Bytes} {onDisconnect : Bool} {value : List (Bytes × Object)}
    (hvalues : c.write.values = [textMap value]) (hupdate : c.write.IsUpdate)
    (hinvoke : c.write.invoke package less c.database = encodeVariant package (textMap value) >>=
      fun cbor => .ok (onReference c.database (some path) onDisconnect (updateOperation less cbor)))
    (hasks : ∀ es, Parses package less (textMap value) (.map es) →
      Asks (Parses package less) c.write ⟨path, onDisconnect, .updateChildren es⟩) :
    Fate package less c (c.start package less) := by
  refine fate_set hvalues (fun _ => rfl) hinvoke ?_
  intro w hdatabase hw
  cases w with
  | map es => exact .asked hdatabase (hasks es hw)
  | _ => exact .noMap hupdate hdatabase (by simp [hvalues]) hw rfl

theorem fate_priority {path : Bytes} {onDisconnect : Bool} {value priority : Object}
    (hvalues : c.write.values = [value, priority])
    (hinvoke : c.write.invoke package less c.database = encodeVariant package value >>= fun cbor =>
      encodeVariant package priority >>= fun prio => .ok
        (onReference c.database (some path) onDisconnect (setWithPriorityOperation less cbor prio)))
    (hasks : ∀ v p, Parses package less value v → Parses package less priority p →
      Asks (Parses package less) c.write ⟨path, onDisconnect, .setValueAndPriority v p⟩) :
    Fate package less c (c.start package less) := by
  refine fate_two hvalues hinvoke ?_
  intro cbor prio hcbor hprio hencodable hsecond
  have hall : ∀ v ∈ c.write.values, Encodable v := by
    rw [hvalues, List.forall_mem_cons]
    exact ⟨hencodable, List.forall_mem_singleton.mpr hsecond⟩
  refine fate_reference hall fun hdatabase => ?_
  rw [setWithPriorityOperation, bind_assoc]
  refine fate_parsed hall hdatabase (by simp [hvalues]) hcbor fun v hv => ?_
  rw [bind_assoc]
  exact fate_parsed hall hdatabase (by simp [hvalues]) hprio fun p hp =>
    .asked hdatabase (hasks v p hv hp)

/-- Every write has its fate. -/
theorem start_fate (c : WriteCall) : Fate package less c (c.start package less) := by
  obtain ⟨write, database⟩ := c
  have bare : ∀ {path onDisconnect operation}, write.values = [] →
      write.invoke package less database =
        .ok (onReference database (some path) onDisconnect (.ok operation)) →
      Asks (Parses package less) write ⟨path, onDisconnect, operation⟩ →
      Fate package less ⟨write, database⟩ (WriteCall.start package less ⟨write, database⟩) := by
    intro path onDisconnect operation hvalues hinvoke hasks
    unfold WriteCall.start
    dsimp only
    rw [hinvoke]
    cases database with
    | false => exact .uninitialized (by simp [hvalues]) rfl
    | true => exact .asked rfl hasks
  cases write with
  | setValue path value =>
    exact fate_set rfl (fun _ => rfl) rfl fun w hdatabase hw => .asked hdatabase (.setValue hw)
  | updateChildren path value => exact fate_update rfl trivial rfl fun es h => .updateChildren h
  | setValueWithPriority path value priority =>
    exact fate_priority rfl rfl fun v p hv hp => .setValueWithPriority hv hp
  | setPriority path priority =>
    exact fate_set rfl (fun _ => rfl) rfl fun w hdatabase hw => .asked hdatabase (.setPriority hw)
  | removeValue path => exact bare rfl rfl .removeValue
  | onDisconnectSetValue path value =>
    exact fate_set rfl (fun _ => rfl) rfl fun w hdatabase hw =>
      .asked hdatabase (.onDisconnectSetValue hw)
  | onDisconnectUpdateChildren path value =>
    exact fate_update rfl trivial rfl fun es h => .onDisconnectUpdateChildren h
  | onDisconnectSetValueWithPriority path value priority =>
    exact fate_priority rfl rfl fun v p hv hp => .onDisconnectSetValueWithPriority hv hp
  | onDisconnectRemove path => exact bare rfl rfl .onDisconnectRemove
  | onDisconnectCancel path => exact bare rfl rfl .onDisconnectCancel

end Fates

/-- The writes of an application, and what the SDK was asked. -/
abbrev Writing := Exchange WriteCall DbRequest Finished OutcomeMessage WriteOutcome Int64

/-- What a write comes to when the SDK has completed it. -/
def writeOutcome (f : Finished) (what : Bytes) : WriteOutcome :=
  if f.error = 0 then .completed else .failed (.database f.error f.text what)

/-- What a write is told of its future. A text that is not UTF-8 does not come. -/
def writeService : Service WriteCall DbRequest Finished WriteOutcome where
  Suits _ _ := True
  Tells c f o := o = if validUtf8 f.text then some (writeOutcome f c.write.what) else none

/-- What holds of the writes of an application at any time: they are answered, each
has its fate, the values that can be sent have arrived whole, and a port is open
until there is an outcome. -/
structure WritesKept (package : CborPackage) (less : Less) (x : Writing) : Prop where
  answered : x.Answered (writes package less) writeService
  fates : ∀ w ∈ x.calls, Fate package less w.call (w.call.start package less)
  whole : ∀ w ∈ x.calls, w.call.database = true →
    (∀ v ∈ w.call.write.values, Sendable v ∧ WithinInt64 package v) →
    ∃ r, w.call.start package less = .ok r ∧ Asks (Arrived less) w.call.write r
  closed : ∀ w ∈ x.calls, w.listening = false ↔ w.outcome ≠ none

section Runs

variable {package : CborPackage} {less : Less} {x : Writing}
  {w : Waiter WriteCall Int64 WriteOutcome}

/-- A map arrives as a map. -/
theorem textMap_arrived {value : List (Bytes × Object)} {w : Variant}
    (h : Arrived less (textMap value) w) : isMap w = true := by
  have halike := h.alike
  cases w with
  | map es => rfl
  | _ => cases halike

/-- An update is of a map. -/
theorem update_map {write : DbWrite} (h : write.IsUpdate) {v : Object} (hv : v ∈ write.values) :
    ∃ value, v = textMap value := by
  cases write with
  | updateChildren path value | onDisconnectUpdateChildren path value =>
    exact ⟨value, List.mem_singleton.mp hv⟩
  | _ => exact h.elim

/-- A write with a database, of values that can be sent, is asked of the SDK. -/
theorem start_whole (heq : EqualTexts package) (henc : Encodes package) (hless : OrdersTexts less)
    {c : WriteCall} (hdatabase : c.database = true)
    (hvalues : ∀ v ∈ c.write.values, Sendable v ∧ WithinInt64 package v) :
    ∃ r, c.start package less = .ok r ∧ Asks (Arrived less) c.write r := by
  have harrive : ∀ v ∈ c.write.values, ∃ bytes w, encodeVariant package v = .ok bytes ∧
      parseVariant less bytes = .ok w ∧ Arrived less v w := fun v hv =>
    (hvalues v hv).1.parsed heq henc hless (hvalues v hv).2
  have hparses : ∀ v ∈ c.write.values, ∀ w, Parses package less v w → Arrived less v w := by
    rintro v hv w ⟨bytes, hbytes, hw⟩
    obtain ⟨bytes', w', hbytes', hw', harrived⟩ := harrive v hv
    cases hbytes.symm.trans hbytes'
    cases hw.symm.trans hw'
    exact harrived
  have hfate := @start_fate package less c
  cases hstart : c.start package less with
  | ok r =>
    rw [hstart] at hfate
    cases hfate with
    | asked _ hasks => exact ⟨r, rfl, hasks.mono hparses⟩
  | error o =>
    exfalso
    rw [hstart] at hfate
    cases hfate with
    | thrown hv hnot => exact hnot (hvalues _ hv).1.encodable
    | uninitialized _ hno => cases hdatabase.symm.trans hno
    | unreadable _ _ hv hunreadable =>
      obtain ⟨bytes, hbytes, hno⟩ := hunreadable
      obtain ⟨bytes', w, hbytes', hw, -⟩ := harrive _ hv
      cases hbytes.symm.trans hbytes'
      exact hno w hw
    | noMap hupdate _ hv hw hmap =>
      obtain ⟨value, rfl⟩ := update_map hupdate hv
      cases hmap.symm.trans (textMap_arrived (hparses _ hv _ hw))

theorem write_awaited (what : Bytes) (f : Finished) :
    f.post.map (awaitDbOutcome what) =
      if validUtf8 f.text then some (writeOutcome f what) else none := by
  cases hpost : f.post with
  | none => rw [f.post_none.mp hpost]; rfl
  | some m =>
    have htext : validUtf8 f.text = true := by
      by_contra hno
      rw [f.post_none.mpr (Bool.eq_false_iff.mpr hno)] at hpost
      cases hpost
    obtain ⟨hok, hcode, hmessage⟩ := f.post_eq hpost
    rw [if_pos htext, Option.map_some, awaitDbOutcome, writeOutcome, hok, hcode, hmessage]
    by_cases herror : f.error = 0 <;> simp [herror]

theorem writes_provide : (writes package less).Provides writeService := by
  intro c request f _ _
  show f.post.bind (fun m => some (awaitDbOutcome c.write.what m)) = _
  rw [← write_awaited, Option.map_eq_bind]
  rfl

/-- The port of a call is open until it has an outcome. -/
theorem stage_closed (h : Machine.Stage (writes package less) x w) :
    w.listening = false ↔ w.outcome ≠ none := by
  cases h with
  | refused _ _ hlistening hout => simp [hlistening, hout]
  | waiting _ _ _ hlistening hout => simp [hlistening, hout]
  | lost _ _ _ _ hlistening hout => simp [hlistening, hout]
  | underway _ _ _ _ hlistening hout => simp [hlistening, hout]
  | answered _ _ _ _ hlistening hout => simp [hlistening, hout, writes]

/-- In every run each write meets its fate at once, those that are not refused are
asked of the SDK once, in order and whole, and each is answered with its own outcome,
whatever the order in which the SDK completes them. -/
theorem writes_answered (heq : EqualTexts package) (henc : Encodes package)
    (hless : OrdersTexts less)
    (h : Run (Exchange.step (writes package less)) (fun _ _ => True) .start x) :
    WritesKept package less x := by
  have hsuited : Run (Exchange.step (writes package less)) (Exchange.Suited writeService) .start x :=
    h.weaken fun _ _ _ _ _ _ _ _ => trivial
  refine ⟨Exchange.provided writes_provide hsuited, fun w _ => start_fate w.call, ?_, ?_⟩
  · intro w _ hdatabase hvalues
    exact start_whole heq henc hless hdatabase hvalues
  · intro w hw
    exact stage_closed ((Exchange.Kept.run h).stages w hw)

/-- A write that throws, one that comes before there is a database, and two that the
SDK completes in the other order. -/
def fourWrites : List (ExchangeAction WriteCall Finished Int64) :=
  [.call ⟨.setValue [0x61] (.other 0), true⟩ 7, .call ⟨.removeValue [0x62], false⟩ 7,
    .call ⟨.setValue [0x61] (.int 3), true⟩ 7,
    .call ⟨.setPriority [0x62] (.string [0x63]), true⟩ 8,
    .complete 1 ⟨0, none⟩, .deliver, .complete 0 ⟨5, some (ascii "no")⟩, .deliver]

theorem fourWrites_answered : ∃ x,
    exec (Exchange.step (writes Firebase.shortestPackage Firebase.byBytes)) .start fourWrites =
      some x ∧
      x.jobs.map Job.request = [⟨[0x61], false, .setValue (.int64 3)⟩,
        ⟨[0x62], false, .setPriority (.string [0x63])⟩] ∧
      x.calls.map Waiter.outcome = [some (.threw .argumentError),
        some (.failed (startError (-1) (ascii "remove"))),
        some (.failed (.database 5 (ascii "no") (ascii "set"))), some .completed] ∧
      WritesKept Firebase.shortestPackage Firebase.byBytes x := by
  have hexec : exec (Exchange.step (writes Firebase.shortestPackage Firebase.byBytes)) .start
      fourWrites = some _ := rfl
  exact ⟨_, hexec, rfl, rfl, writes_answered Firebase.shortestPackage_equal
    Firebase.shortestPackage_encodes Firebase.byBytes_orders (Run.of_exec hexec (.unguarded _))⟩

end Runs

end Database
