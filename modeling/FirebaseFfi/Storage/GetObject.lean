import FirebaseFfi.Dart.Snapshot
import FirebaseFfi.Storage.InFlight

namespace GetObject
open Cbor Machine
open Dart (fdbPostBuffer snapshotHeader snapshotHeaderBytes snapshotHeader_length)
open InFlight (Future Post Statement callback fdbStorageGet)

/-- The payload is in place behind the room for the header. -/
def fdbPostBufferOwned (now : UInt64) (seq : Int64) (owned : Bytes) (len : Nat) : Bytes :=
  snapshotHeader now seq len ++ owned.take len

/-- What a port delivers. -/
inductive Message
  | typedData (bytes : Bytes)
  | outcome (ok : Bool) (code : Int64) (text : Bytes)

/-- A post, given the time and the buffer that the SDK wrote to. -/
def messageOf (now : UInt64) (buffer : Bytes) : Post → Message
  | .outcome ok code text => .outcome ok code text
  | .buffer seq payload => .typedData (fdbPostBuffer now seq payload)
  | .owned seq length => .typedData (fdbPostBufferOwned now seq buffer length)

def postOf : Statement → Option Post
  | .post p => some p
  | _ => none

inductive Failure
  | storageException (code : Int64) (message : Bytes)
  | stateError (rc : Int64)

/-- The handler of `_awaitBuffer`. -/
def awaitBuffer : Message → Except Failure Bytes
  | .typedData bytes => .ok (bytes.drop snapshotHeaderBytes)
  | .outcome _ code text => .error (.storageException code text)

/-- How far a getObject is. A download has the memory behind the header of its
buffer, as malloc returned it. -/
inductive Phase
  | sizing
  | downloading (memory : Bytes)
  | finished (result : Except Failure Bytes)

/-- An object with the versions it had so far, and one getObject of it. -/
structure State where
  object : Option Bytes
  versions : List Bytes
  call : Phase

def State.start (object : Option Bytes) : State := ⟨object, object.toList, .sizing⟩

def State.finish (s : State) (result : Except Failure Bytes) : State :=
  { s with call := .finished result }

/-- The others write or delete the object, or the SDK answers the getObject. Once
the metadata are there the download is asked for, with the operations in flight
and what malloc returns. `whole` tells a report of the version's full length from
one of the bytes copied. -/
inductive Action
  | overwrite (content : Bytes)
  | remove
  | undescribed (failure : Failure)
  | described (flight : InFlight.State) (memory : Option Bytes)
  | failed (now : UInt64) (code : Int64) (message : Option Bytes)
  | downloaded (now : UInt64) (whole : Bool)

/-- `size_bytes` of the metadata. -/
def sizeBytes (content : Bytes) : Int64 := Int64.ofNat content.length

/-- What the completion of a download posts. -/
def posted (capacity : Nat) (f : Future Nat) : Option Post :=
  (callback (.get capacity) f).findSome? postOf

/-- And what Dart makes of it. -/
def completed (now : UInt64) (buffer : Bytes) (f : Future Nat) : Option (Except Failure Bytes) :=
  (posted buffer.length f).map fun p => awaitBuffer (messageOf now buffer p)

/-- The SDK copies of a version what there is room for. -/
def filled (memory content : Bytes) : Bytes :=
  content.take memory.length ++ memory.drop content.length

def reported (memory content : Bytes) (whole : Bool) : Nat :=
  if whole then content.length else min memory.length content.length

def step (path : Bytes) (s : State) : Action → Option State
  | .overwrite content =>
    some { s with object := some content, versions := content :: s.versions }
  | .remove => some { s with object := none }
  | .undescribed failure =>
    match s.call with
    | .sizing => some (s.finish (.error failure))
    | _ => none
  | .described flight memory =>
    match s.call, s.object with
    | .sizing, some content =>
      let rc := (fdbStorageGet flight (some path) (sizeBytes content) memory.isSome).2
      if rc ≠ 0 then some (s.finish (.error (.stateError rc)))
      else (memory.filter fun m => m.length = (sizeBytes content).toInt.toNat).map fun m =>
        { s with call := .downloading m }
    | _, _ => none
  | .failed now code message =>
    match s.call with
    | .downloading memory =>
      if code ≠ 0 then (completed now memory ⟨code, message, none⟩).map s.finish else none
    | _ => none
  | .downloaded now whole =>
    match s.call, s.object with
    | .downloading memory, some content =>
      (completed now (filled memory content) ⟨0, none, some (reported memory content whole)⟩).map
        s.finish
    | _, _ => none

/-- A finished getObject failed, or returned a version of the object. -/
def Whole (s : State) : Prop := ∀ bytes, s.call = .finished (.ok bytes) → bytes ∈ s.versions

/-- The version that is downloaded is no longer than the size that was read. -/
def Covered (s : State) : Action → Prop
  | .downloaded _ _ => ∀ memory content, s.call = .downloading memory → s.object = some content →
    content.length ≤ memory.length
  | _ => True

theorem filled_length (memory content : Bytes) : (filled memory content).length = memory.length := by
  simp only [filled, List.length_append, List.length_take, List.length_drop]
  omega

theorem posted_downloaded (capacity n : Nat) :
    posted capacity ⟨0, none, some n⟩ = some (.owned 1 (min n capacity)) := rfl

theorem posted_failed (capacity : Nat) {code : Int64} (hcode : code ≠ 0) (message : Option Bytes) :
    posted capacity ⟨code, message, none⟩ = some (.outcome false code (message.getD [])) := by
  have hcallback : callback (.get capacity) (⟨code, message, none⟩ : Future Nat) =
      [.free, .post (.outcome false code (message.getD [])), .store] := if_pos hcode
  exact congrArg (List.findSome? postOf) hcallback

/-- What is posted of a download is what was copied, whatever the SDK reports. -/
theorem completed_downloaded (now : UInt64) (memory content : Bytes) (whole : Bool) :
    completed now (filled memory content) ⟨0, none, some (reported memory content whole)⟩ =
      some (.ok (content.take memory.length)) := by
  have hmin : min (reported memory content whole) memory.length =
      (content.take memory.length).length := by
    rw [List.length_take, reported]
    cases whole <;> simp [Nat.min_comm]
  rw [completed, posted_downloaded, filled_length, hmin, Option.map_some, messageOf,
    fdbPostBufferOwned, awaitBuffer, filled, List.take_left,
    ← snapshotHeader_length now 1 (content.take memory.length).length, List.drop_left]

theorem completed_failed (now : UInt64) (memory : Bytes) {code : Int64} (hcode : code ≠ 0)
    (message : Option Bytes) :
    completed now memory ⟨code, message, none⟩ =
      some (.error (.storageException code (message.getD []))) := by
  rw [completed, posted_failed _ hcode]
  rfl

section Step

variable {path : Bytes} {s t : State}

/-- The step that ends a download hands over as much of the version as there was
room for. -/
theorem step_downloaded {now : UInt64} {whole : Bool} {memory content : Bytes}
    (hcall : s.call = .downloading memory) (hobject : s.object = some content) :
    step path s (.downloaded now whole) = some (s.finish (.ok (content.take memory.length))) := by
  simp only [step, hcall, hobject]
  rw [completed_downloaded]
  rfl

/-- A step leaves the versions alone or puts a new one before them, and what it
finishes the call with is an error or what was copied. -/
theorem step_cases {a : Action} (h : step path s a = some t) :
    (∃ content, t = { s with object := some content, versions := content :: s.versions }) ∨
      t = { s with object := none } ∨ (∃ memory, t = { s with call := .downloading memory }) ∨
      (∃ failure, t = s.finish (.error failure)) ∨
      ∃ now whole memory content, a = .downloaded now whole ∧ s.call = .downloading memory ∧
        s.object = some content ∧ t = s.finish (.ok (content.take memory.length)) := by
  cases a with
  | overwrite content =>
    obtain rfl := Option.some.inj h
    exact .inl ⟨content, rfl⟩
  | remove =>
    obtain rfl := Option.some.inj h
    exact .inr (.inl rfl)
  | undescribed failure =>
    simp only [step] at h
    split at h
    · obtain rfl := Option.some.inj h
      exact .inr (.inr (.inr (.inl ⟨failure, rfl⟩)))
    · cases h
  | described flight memory =>
    simp only [step] at h
    split at h
    · split at h
      · obtain rfl := Option.some.inj h
        exact .inr (.inr (.inr (.inl ⟨_, rfl⟩)))
      · obtain ⟨m, -, rfl⟩ := Option.map_eq_some_iff.mp h
        exact .inr (.inr (.inl ⟨m, rfl⟩))
    · cases h
  | failed now code message =>
    simp only [step] at h
    split at h
    · split at h
      · next memory _ hcode =>
        rw [completed_failed now memory hcode message] at h
        obtain rfl := Option.some.inj h
        exact .inr (.inr (.inr (.inl ⟨_, rfl⟩)))
      · cases h
    · cases h
  | downloaded now whole =>
    cases hcall : s.call with
    | sizing => simp [step, hcall] at h
    | finished result => simp [step, hcall] at h
    | downloading memory =>
      cases hobject : s.object with
      | none => simp [step, hcall, hobject] at h
      | some content =>
        rw [step_downloaded hcall hobject] at h
        obtain rfl := Option.some.inj h
        exact .inr (.inr (.inr (.inr ⟨now, whole, memory, content, rfl, rfl, rfl, rfl⟩)))

end Step

section Runs

variable {path : Bytes} {object : Option Bytes} {s : State}

/-- The object is a version of itself, and what a getObject returned is one. -/
structure Inv (s : State) : Prop where
  current : ∀ content, s.object = some content → content ∈ s.versions
  whole : Whole s

theorem Inv.step {t : State} {a : Action} (hs : Inv s) (hg : Covered s a)
    (h : step path s a = some t) : Inv t := by
  rcases step_cases h with ⟨content, rfl⟩ | rfl | ⟨memory, rfl⟩ | ⟨failure, rfl⟩ |
    ⟨now, whole, memory, content, rfl, hcall, hobject, rfl⟩
  · refine ⟨?_, fun bytes hbytes => List.mem_cons_of_mem _ (hs.whole bytes hbytes)⟩
    intro c hc
    obtain rfl := Option.some.inj hc
    simp
  · refine ⟨?_, hs.whole⟩
    intro c hc
    cases hc
  · refine ⟨hs.current, ?_⟩
    intro bytes hbytes
    cases hbytes
  · refine ⟨hs.current, ?_⟩
    intro bytes hbytes
    cases hbytes
  · refine ⟨hs.current, ?_⟩
    intro bytes hbytes
    cases hbytes
    have htake : content.take memory.length = content :=
      List.take_of_length_le (hg memory content hcall hobject)
    rw [htake]
    exact hs.current content hobject

/-- In a run whose download is of a version no longer than the size that was
read, the call fails or returns one version whole. -/
theorem getObject_whole (h : Run (step path) Covered (.start object) s) : Whole s := by
  have hinv : Inv s := by
    apply h.invariant
    · refine ⟨?_, ?_⟩
      · intro content hobject
        obtain rfl : object = some content := hobject
        simp [State.start]
      · intro bytes hbytes
        cases hbytes
    · intro t a u ht hg hstep
      exact ht.step hg hstep
  exact hinv.whole

end Runs

def idle : InFlight.State := .start fun _ => true

/-- Three bytes are described, and two are there when the download comes. -/
def shrinking : List Action :=
  [.described idle (some [9, 9, 9]), .overwrite [4, 5], .downloaded 0 true, .overwrite [6]]

theorem shrinking_whole : ∃ s, exec (step []) (.start (some [1, 2, 3])) shrinking = some s ∧
    s.call = .finished (.ok [4, 5]) ∧ Whole s := by
  have hexec : exec (step []) (.start (some [1, 2, 3])) shrinking = some _ := rfl
  refine ⟨_, hexec, rfl, @getObject_whole [] (some [1, 2, 3]) _ ?_⟩
  apply Run.of_exec hexec
  refine .next trivial rfl (.next trivial rfl (.next ?_ rfl (.next trivial rfl trivial)))
  intro memory content hcall hobject
  cases hcall
  cases hobject
  decide

/-- Two bytes are described, and three are there when the download comes. -/
def growing : List Action :=
  [.described idle (some [9, 9]), .overwrite [4, 5, 6], .downloaded 0 true]

/-- The first two of them are returned, which are no version of the object. -/
theorem getObject_broken : ¬ ∀ path object s,
    Run (step path) (fun _ _ => True) (.start object) s → Whole s := by
  intro h
  have hexec : exec (step []) (.start (some [1, 2])) growing = some _ := rfl
  have hmem := h [] (some [1, 2]) _ (Run.of_exec hexec (.unguarded _)) [4, 5] rfl
  exact absurd hmem (by decide)

end GetObject
