import FirebaseFfi.Dart.Value
import FirebaseFfi.Firebase.Variant
import FirebaseFfi.Machine.Run
import Mathlib.Logic.Function.Basic

namespace InFlight
open Cbor Tinycbor Firebase Machine
open Dart (ascii)

/-- A future of the SDK, as its callback reads it. -/
structure Future (Value : Type) where
  error : Int64
  message : Option Bytes
  result : Option Value

def Future.text {Value : Type} (f : Future Value) : Bytes := f.message.getD []

inductive Request
  | put
  | get (capacity : Nat)
  | delete
  | metadata
  | downloadUrl
  | call
  deriving DecidableEq

/-- What an operation results in. The metadata stands for what SerializeMetadata
makes of it. -/
def Request.Result : Request → Type
  | .put | .metadata => Option Bytes
  | .get _ => Nat
  | .delete => Unit
  | .downloadUrl => Bytes
  | .call => Variant

/-- `owned` posts so many bytes of the buffer that the SDK has written to. -/
inductive Post
  | outcome (ok : Bool) (code : Int64) (text : Bytes)
  | buffer (seq : Int64) (payload : Bytes)
  | owned (seq : Int64) (length : Nat)

/-- A statement of a completion callback. -/
inductive Statement
  | free
  | post (p : Post)
  | store

def postMetadataResult (f : Future (Option Bytes)) : Post :=
  if f.error ≠ 0 then .outcome false f.error f.text
  else
    match f.result with
    | some (some payload) => .buffer 1 payload
    | _ => .outcome false (-2) (ascii "could not encode metadata")

/-- Measured with no buffer, and then written to one of that size. -/
def encodeText (text : Bytes) : Bytes :=
  let size := cborEncoderGetExtraBytesNeeded (cborEncodeTextString ⟨.counting 0, 2, false⟩ text).2
  cborEncoderGetBuffer (cborEncodeTextString (cborEncoderInit size) text).2

/-- The completion callbacks. A download that succeeds never stores the flag. -/
def callback : (r : Request) → Future r.Result → List Statement
  | .put, f => [.free, .post (postMetadataResult f), .store]
  | .get capacity, f =>
    if f.error ≠ 0 then [.free, .post (.outcome false f.error f.text), .store]
    else [.post (.owned 1 (min (f.result.getD (0 : Nat)) capacity))]
  | .delete, f => [.post (.outcome (f.error = 0) f.error f.text), .store]
  | .metadata, f => [.post (postMetadataResult f), .store]
  | .downloadUrl, f =>
    if f.error ≠ 0 then [.post (.outcome false f.error f.text), .store]
    else [.post (.outcome true 0 (f.result.getD ([] : Bytes))), .store]
  | .call, f =>
    if f.error ≠ 0 then [.post (.buffer (-1) (encodeText f.text)), .store]
    else
      match f.result with
      | none => [.post (.buffer 1 []), .store]
      | some data =>
        match serializeVariant data with
        | none => [.post (.buffer (-2) []), .store]
        | some payload => [.post (.buffer 1 payload), .store]

/-- Where the thread is that completes an operation. -/
inductive Thread
  | unstarted
  | pending
  | inside (rest : List Statement)
  | left
  | unwound

/-- It has left the callback. -/
def Thread.out : Thread → Bool
  | .left | .unwound => true
  | _ => false

/-- An operation, with its reference, which is alive until it is destroyed, and
the flag that the table and the callback share. -/
structure Op where
  request : Request
  alive : Bool
  done : Bool
  thread : Thread

inductive Service
  | storage | functions
  deriving DecidableEq

/-- g_inflight and g_calls, beside the operations in the order they were retained
and the posts. An operation is known by its place. -/
structure State where
  ready : Service → Bool
  table : Service → List Nat
  ops : List Op
  posts : List (Nat × Post)

def State.start (ready : Service → Bool) : State := ⟨ready, fun _ => [], [], []⟩

def State.isDone (s : State) (i : Nat) : Bool := (s.ops[i]?.map Op.done).getD false

def Op.destroy (op : Op) : Op := { op with alive := false }

/-- Erases the entries whose flag is stored, and with them the references. -/
def State.reclaim (s : State) (v : Service) : State :=
  { s with
    table := Function.update s.table v ((s.table v).filter fun i => !s.isDone i)
    ops := s.ops.mapIdx fun i op => if i ∈ s.table v ∧ op.done then op.destroy else op }

def State.push (s : State) (v : Service) (r : Request) (thread : Thread) : State :=
  { s with
    table := Function.update s.table v (s.table v ++ [s.ops.length])
    ops := s.ops ++ [⟨r, true, false, thread⟩] }

def State.retain (s : State) (v : Service) (r : Request) (thread : Thread) : State :=
  (s.reclaim v).push v r thread

section EntryPoints

/-- The upload goes from a copy. A failed allocation leaves the reference
retained, with nothing to complete it. -/
def fdbStoragePut (s : State) (path bytes : Option Bytes) (len : Nat) (allocated : Bool) :
    State × Int64 :=
  if !s.ready .storage then (s, -1)
  else if path.isNone || (bytes.isNone && len ≠ 0) then (s, -2)
  else if !allocated then (s.retain .storage .put .unstarted, -3)
  else (s.retain .storage .put .pending, 0)

def fdbStorageGet (s : State) (path : Option Bytes) (capacity : Int64) (allocated : Bool) :
    State × Int64 :=
  if !s.ready .storage then (s, -1)
  else if path.isNone || capacity < 0 then (s, -2)
  else if !allocated then (s, -3)
  else (s.retain .storage (.get capacity.toInt.toNat) .pending, 0)

/-- The operations that take a path only. -/
def fdbStorageOn (r : Request) (s : State) (path : Option Bytes) : State × Int64 :=
  if !s.ready .storage then (s, -1)
  else if path.isNone then (s, -2)
  else (s.retain .storage r .pending, 0)

def fdbStorageDelete : State → Option Bytes → State × Int64 := fdbStorageOn .delete

def fdbStorageMetadata : State → Option Bytes → State × Int64 := fdbStorageOn .metadata

def fdbStorageDownloadUrl : State → Option Bytes → State × Int64 := fdbStorageOn .downloadUrl

def fdbFunctionsCall (less : Less) (s : State) (name : Option Bytes) (args : Bytes) :
    State × Int64 :=
  if !s.ready .functions then (s, -1)
  else if name.isNone then (s, -2)
  else if !args.isEmpty && (parseVariant less args).toOption.isNone then (s, -3)
  else (s.retain .functions .call .pending, 0)

/-- A caller's operation. It holds the lock of its service to its end. -/
inductive Call
  | put (path bytes : Option Bytes) (len : Nat) (allocated : Bool)
  | get (path : Option Bytes) (capacity : Int64) (allocated : Bool)
  | delete (path : Option Bytes)
  | metadata (path : Option Bytes)
  | downloadUrl (path : Option Bytes)
  | call (name : Option Bytes) (args : Bytes)

def State.enter (less : Less) (s : State) : Call → State × Int64
  | .put path bytes len allocated => fdbStoragePut s path bytes len allocated
  | .get path capacity allocated => fdbStorageGet s path capacity allocated
  | .delete path => fdbStorageDelete s path
  | .metadata path => fdbStorageMetadata s path
  | .downloadUrl path => fdbStorageDownloadUrl s path
  | .call name args => fdbFunctionsCall less s name args

end EntryPoints

/-- A caller starts an operation, or the thread of an operation completes it: it
enters the callback, runs a statement, leaves the callback, unwinds. -/
inductive Action
  | call (c : Call)
  | complete (i : Nat) (r : Request) (f : Future r.Result)
  | run (i : Nat)
  | leave (i : Nat)
  | unwind (i : Nat)

def Op.run (op : Op) (rest : List Statement) : Statement → Op
  | .store => { op with done := true, thread := .inside rest }
  | _ => { op with thread := .inside rest }

def postsOf (i : Nat) : Statement → List (Nat × Post)
  | .post p => [(i, p)]
  | _ => []

def step (less : Less) (s : State) : Action → Option State
  | .call c => some (s.enter less c).1
  | .complete i r f =>
    match s.ops[i]? with
    | some ⟨request, alive, done, .pending⟩ =>
      if request = r then
        some { s with ops := s.ops.set i ⟨request, alive, done, .inside (callback r f)⟩ }
      else none
    | _ => none
  | .run i =>
    match s.ops[i]? with
    | some ⟨request, alive, done, .inside (statement :: rest)⟩ =>
      some { s with
        ops := s.ops.set i (Op.run ⟨request, alive, done, .inside (statement :: rest)⟩ rest
          statement)
        posts := s.posts ++ postsOf i statement }
    | _ => none
  | .leave i =>
    match s.ops[i]? with
    | some ⟨request, alive, done, .inside []⟩ =>
      some { s with ops := s.ops.set i ⟨request, alive, done, .left⟩ }
    | _ => none
  | .unwind i =>
    match s.ops[i]? with
    | some ⟨request, alive, done, .left⟩ =>
      some { s with ops := s.ops.set i ⟨request, alive, done, .unwound⟩ }
    | _ => none

/-- A reference is destroyed only once the thread that completes its operation
has left the callback, and by a caller. -/
structure Safe (less : Less) (s : State) : Prop where
  destroyed : ∀ op ∈ s.ops, op.alive = false → op.thread.out = true
  caller : ∀ {a : Action} {u : State}, step less s a = some u → (∀ c, a ≠ .call c) →
    u.ops.map Op.alive = s.ops.map Op.alive

def Call.service : Call → Service
  | .put _ _ _ _ | .get _ _ _ | .delete _ | .metadata _ | .downloadUrl _ => .storage
  | .call _ _ => .functions

def Call.request : Call → Request
  | .put _ _ _ _ => .put
  | .get _ capacity _ => .get capacity.toInt.toNat
  | .delete _ => .delete
  | .metadata _ => .metadata
  | .downloadUrl _ => .downloadUrl
  | .call _ _ => .call

def Call.thread : Call → Thread
  | .put _ _ _ allocated => if allocated then .pending else .unstarted
  | _ => .pending

/-- Its arguments get it as far as the table. -/
def Call.admitted (less : Less) : Call → Bool
  | .put path bytes len _ => path.isSome && (bytes.isSome || len = 0)
  | .get path capacity allocated => path.isSome && !(capacity < 0) && allocated
  | .delete path | .metadata path | .downloadUrl path => path.isSome
  | .call name args => name.isSome && (args.isEmpty || (parseVariant less args).toOption.isSome)

/-- No thread of this service has stored a flag and not left its callback. -/
def Settled (s : State) (v : Service) : Prop :=
  ∀ i ∈ s.table v, ∀ op, s.ops[i]? = some op → op.done = true → op.thread.out = true

/-- No caller goes through the table of a service that is not settled. -/
def Orderly (less : Less) (s : State) : Action → Prop
  | .call c => s.ready c.service = true → c.admitted less = true → Settled s c.service
  | _ => True

variable {less : Less} {s u : State}

theorem storagePut_eq (s : State) (path bytes : Option Bytes) (len : Nat) (allocated : Bool) :
    (fdbStoragePut s path bytes len allocated).1 =
      if s.ready .storage && (path.isSome && (bytes.isSome || len = 0)) then
        s.retain .storage .put (if allocated then .pending else .unstarted)
      else s := by
  rw [fdbStoragePut]
  cases s.ready .storage
  · rfl
  · cases path <;> cases bytes <;> cases allocated <;> by_cases hlen : len = 0 <;> simp [hlen]

theorem storageGet_eq (s : State) (path : Option Bytes) (capacity : Int64) (allocated : Bool) :
    (fdbStorageGet s path capacity allocated).1 =
      if s.ready .storage && (path.isSome && !(capacity < 0) && allocated) then
        s.retain .storage (.get capacity.toInt.toNat) .pending
      else s := by
  rw [fdbStorageGet]
  cases s.ready .storage
  · rfl
  · cases path <;> cases allocated <;> by_cases hneg : capacity < 0 <;> simp [hneg]

theorem storageOn_eq (r : Request) (s : State) (path : Option Bytes) :
    (fdbStorageOn r s path).1 =
      if s.ready .storage && path.isSome then s.retain .storage r .pending else s := by
  rw [fdbStorageOn]
  cases s.ready .storage
  · rfl
  · cases path <;> rfl

theorem functionsCall_eq (s : State) (name : Option Bytes) (args : Bytes) :
    (fdbFunctionsCall less s name args).1 =
      if s.ready .functions &&
          (name.isSome && (args.isEmpty || (parseVariant less args).toOption.isSome)) then
        s.retain .functions .call .pending
      else s := by
  rw [fdbFunctionsCall]
  cases s.ready .functions
  · rfl
  · cases name <;> cases args.isEmpty <;> cases (parseVariant less args).toOption <;> rfl

/-- What an entry point leaves is a retained reference, or nothing. -/
theorem enter_eq (s : State) (c : Call) :
    (s.enter less c).1 =
      if s.ready c.service && c.admitted less then s.retain c.service c.request c.thread else s := by
  cases c with
  | put path bytes len allocated => exact storagePut_eq s path bytes len allocated
  | get path capacity allocated => exact storageGet_eq s path capacity allocated
  | delete path => exact storageOn_eq .delete s path
  | metadata path => exact storageOn_eq .metadata s path
  | downloadUrl path => exact storageOn_eq .downloadUrl s path
  | call name args => exact functionsCall_eq s name args

def Spared (s : State) : Prop := ∀ op ∈ s.ops, op.alive = false → op.thread.out = true

theorem mem_reclaim {v : Service} {op : Op} :
    op ∈ (s.reclaim v).ops ↔ ∃ i d, s.ops[i]? = some d ∧
      op = if i ∈ s.table v ∧ d.done = true then d.destroy else d := by
  rw [State.reclaim, List.mem_iff_getElem?]
  simp only [List.getElem?_mapIdx, Option.map_eq_some_iff]
  constructor
  · intro ⟨i, d, hd, heq⟩
    exact ⟨i, d, hd, heq.symm⟩
  · intro ⟨i, d, hd, heq⟩
    exact ⟨i, d, hd, heq.symm⟩

theorem mem_retain {v : Service} {r : Request} {thread : Thread} {op : Op} :
    op ∈ (s.retain v r thread).ops ↔ op ∈ (s.reclaim v).ops ∨ op = ⟨r, true, false, thread⟩ := by
  rw [State.retain, State.push, List.mem_append, List.mem_singleton]

/-- Going through a table spares who is still inside exactly when its service is
settled. -/
theorem retain_spared (hs : Spared s) (v : Service) (r : Request) (thread : Thread) :
    Spared (s.retain v r thread) ↔ Settled s v := by
  constructor
  · intro h i hi op hop hdone
    have hmem : op.destroy ∈ (s.retain v r thread).ops := by
      apply mem_retain.mpr
      left
      apply mem_reclaim.mpr
      exact ⟨i, op, hop, by rw [if_pos ⟨hi, hdone⟩]⟩
    exact h op.destroy hmem rfl
  · intro h op hop hdead
    rcases mem_retain.mp hop with hop | rfl
    · obtain ⟨i, d, hd, rfl⟩ := mem_reclaim.mp hop
      split
      · next hin => exact h i hin.1 d hd hin.2
      · next hin =>
        rw [if_neg hin] at hdead
        exact hs d (List.mem_of_getElem? hd) hdead
    · cases hdead

/-- How the thread that completes an operation goes on. -/
inductive Advance (less : Less) (s : State) (i : Nat) (op : Op) : Action → Op → Prop
  | complete {r f} : op.request = r → op.thread = .pending →
      Advance less s i op (.complete i r f) { op with thread := .inside (callback r f) }
  | run {statement rest} : op.thread = .inside (statement :: rest) →
      Advance less s i op (.run i) (op.run rest statement)
  | leave : op.thread = .inside [] → Advance less s i op (.leave i) { op with thread := .left }
  | unwind : op.thread = .left → Advance less s i op (.unwind i) { op with thread := .unwound }

theorem step_advance {a : Action} (h : step less s a = some u) (ha : ∀ c, a ≠ .call c) :
    ∃ i op next posts, s.ops[i]? = some op ∧ Advance less s i op a next ∧
      u = { s with ops := s.ops.set i next, posts := posts } := by
  cases a with
  | call c => exact absurd rfl (ha c)
  | complete i r f =>
    simp only [step] at h
    split at h
    · next hop =>
      split at h
      · next hr =>
        cases h
        exact ⟨i, _, _, s.posts, hop, .complete hr rfl, rfl⟩
      · cases h
    · cases h
  | run i =>
    simp only [step] at h
    split at h
    · next hop =>
      cases h
      exact ⟨i, _, _, _, hop, .run rfl, rfl⟩
    · cases h
  | leave i =>
    simp only [step] at h
    split at h
    · next hop =>
      cases h
      exact ⟨i, _, _, s.posts, hop, .leave rfl, rfl⟩
    · cases h
  | unwind i =>
    simp only [step] at h
    split at h
    · next hop =>
      cases h
      exact ⟨i, _, _, s.posts, hop, .unwind rfl, rfl⟩
    · cases h

/-- A step of the thread that completes an operation: it goes on, and does not
destroy the reference. -/
structure GoesOn (s u : State) : Prop where
  set : ∃ i op next posts, s.ops[i]? = some op ∧
    u = { s with ops := s.ops.set i next, posts := posts } ∧ next.alive = op.alive ∧
    (op.thread.out = true → next.thread.out = true)

theorem step_goesOn {a : Action} (h : step less s a = some u) (ha : ∀ c, a ≠ .call c) :
    GoesOn s u := by
  obtain ⟨i, op, next, posts, hop, hadvance, rfl⟩ := step_advance h ha
  refine ⟨i, op, next, posts, hop, rfl, ?_⟩
  cases hadvance with
  | complete _ hthread => exact ⟨rfl, fun hout => by rw [hthread] at hout; cases hout⟩
  | @run statement rest hthread =>
    refine ⟨?_, fun hout => by rw [hthread] at hout; cases hout⟩
    cases statement <;> rfl
  | leave _ => exact ⟨rfl, fun _ => rfl⟩
  | unwind _ => exact ⟨rfl, fun _ => rfl⟩

theorem GoesOn.spared (h : GoesOn s u) (hs : Spared s) : Spared u := by
  obtain ⟨i, op, next, posts, hop, rfl, halive, hout⟩ := h.set
  intro d hd hdead
  rcases List.mem_or_eq_of_mem_set hd with hd | rfl
  · exact hs d hd hdead
  · rw [halive] at hdead
    exact hout (hs op (List.mem_of_getElem? hop) hdead)

theorem GoesOn.alive (h : GoesOn s u) : u.ops.map Op.alive = s.ops.map Op.alive := by
  obtain ⟨i, op, next, posts, hop, rfl, halive, -⟩ := h.set
  obtain ⟨hlt, hget⟩ := List.getElem?_eq_some_iff.mp hop
  rw [List.map_set, halive, ← hget]
  apply List.ext_getElem?
  intro j
  rw [List.getElem?_set]
  split
  · next hij =>
    subst hij
    simp [hlt]
  · rfl

/-- A step spares who is still inside exactly when it is orderly. -/
theorem step_spared {a : Action} (hs : Spared s) (h : step less s a = some u) :
    Spared u ↔ Orderly less s a := by
  by_cases ha : ∀ c, a ≠ .call c
  · refine iff_of_true ((step_goesOn h ha).spared hs) ?_
    cases a with
    | call c => exact absurd rfl (ha c)
    | _ => trivial
  · rw [not_forall_not] at ha
    obtain ⟨c, rfl⟩ := ha
    obtain rfl := Option.some.inj h
    rw [enter_eq]
    split
    · next hin =>
      obtain ⟨hready, hadmitted⟩ := Bool.and_eq_true_iff.mp hin
      rw [retain_spared hs]
      exact ⟨fun hq _ _ => hq, fun hq => hq hready hadmitted⟩
    · next hin =>
      refine iff_of_true hs ?_
      intro hready hadmitted
      exact absurd (Bool.and_eq_true_iff.mpr ⟨hready, hadmitted⟩) hin

/-- As long as no caller goes through the table while a thread has stored its
flag and not left its callback, no reference is destroyed under a callback. -/
theorem references_spared (less : Less) (ready : Service → Bool) (s : State)
    (h : Run (step less) (Orderly less) (.start ready) s) : Safe less s := by
  have hspared : Spared s := by
    apply h.invariant
    · intro op hop
      cases hop
    · intro t a u hs hord hstep
      exact (step_spared hs hstep).mpr hord
  exact ⟨hspared, fun hstep ha => (step_goesOn hstep ha).alive⟩

def deleted : Future Unit := ⟨0, none, none⟩

/-- A delete, and a second one once the first has left its callback. -/
def oneByOne : List Action :=
  [.call (.delete (some [0x61])), .complete 0 .delete deleted, .run 0, .run 0, .leave 0,
    .call (.delete (some [0x62])), .unwind 0]

theorem oneByOne_safe : ∃ s,
    exec (step fun _ _ => false) (.start fun _ => true) oneByOne = some s ∧
      s.ops = [⟨.delete, false, true, .unwound⟩, ⟨.delete, true, false, .pending⟩] ∧
      Safe (fun _ _ => false) s := by
  have hexec : exec (step fun _ _ => false) (.start fun _ => true) oneByOne = some _ := rfl
  refine ⟨_, hexec, rfl, references_spared _ (fun _ => true) _ (Run.of_exec hexec ?_)⟩
  refine .next ?_ rfl ?_
  · intro _ _ i hi
    cases hi
  refine .next trivial rfl ?_
  refine .next trivial rfl ?_
  refine .next trivial rfl ?_
  refine .next trivial rfl ?_
  refine .next ?_ rfl ?_
  · intro _ _ i hi op hop _
    obtain rfl := List.mem_singleton.mp hi
    cases hop
    rfl
  exact .next trivial rfl trivial

/-- A second delete while the first has stored its flag and not returned. -/
def tooEarly : List Action :=
  [.call (.delete (some [0x61])), .complete 0 .delete deleted, .run 0, .run 0,
    .call (.delete (some [0x62]))]

/-- The first reference is destroyed under its callback. -/
theorem tooEarly_destroyed : ∃ s,
    Run (step fun _ _ => false) (fun _ _ => True) (.start fun _ => true) s ∧
      s.ops[0]? = some ⟨.delete, false, true, .inside []⟩ ∧ ¬ Safe (fun _ _ => false) s := by
  have hexec : exec (step fun _ _ => false) (.start fun _ => true) tooEarly = some _ := rfl
  refine ⟨_, Run.of_exec hexec (.unguarded _), rfl, ?_⟩
  intro h
  have hout := h.destroyed ⟨.delete, false, true, .inside []⟩ (List.mem_of_getElem? (i := 0) rfl) rfl
  cases hout

end InFlight
