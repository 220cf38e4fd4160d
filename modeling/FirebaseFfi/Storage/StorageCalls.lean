import FirebaseFfi.Calls.Outcomes
import FirebaseFfi.Machine.Answering
import FirebaseFfi.Storage.GetObject
import FirebaseFfi.Storage.StorageMetadata

namespace Storage
open Calls Cbor Dart Machine Tinycbor
open InFlight (Future Post callback postMetadataResult)

/-- What the SDK is asked for, at a reference of this path. -/
inductive StorageRequest
  | put (path bytes : Bytes) (contentType : Option Bytes)
  | get (path : Bytes) (capacity : Nat)
  | delete (path : Bytes)
  | metadata (path : Bytes)
  | downloadUrl (path : Bytes)

section Native

variable (ready : Bool)

/-- The content type goes with the upload unless it is empty. -/
def fdbStoragePut (path bytes : Option Bytes) (len : Nat) (contentType : Option Bytes)
    (allocated : Bool) : Except Int64 StorageRequest :=
  if !ready then .error (-1)
  else
    match path with
    | none => .error (-2)
    | some path =>
      if bytes.isNone && len ≠ 0 then .error (-2)
      else if !allocated then .error (-3)
      else .ok (.put path ((bytes.getD []).take len) (contentType.filter fun t => !t.isEmpty))

def fdbStorageGet (path : Option Bytes) (capacity : Int64) (allocated : Bool) :
    Except Int64 StorageRequest :=
  if !ready then .error (-1)
  else
    match path with
    | none => .error (-2)
    | some path =>
      if capacity < 0 then .error (-2)
      else if !allocated then .error (-3)
      else .ok (.get path capacity.toInt.toNat)

/-- The operations that take a path only. -/
def fdbStorageOn (request : Bytes → StorageRequest) (path : Option Bytes) :
    Except Int64 StorageRequest :=
  if !ready then .error (-1)
  else
    match path with
    | none => .error (-2)
    | some path => .ok (request path)

def fdbStorageDelete : Option Bytes → Except Int64 StorageRequest := fdbStorageOn ready .delete

def fdbStorageMetadata : Option Bytes → Except Int64 StorageRequest := fdbStorageOn ready .metadata

def fdbStorageDownloadUrl : Option Bytes → Except Int64 StorageRequest :=
  fdbStorageOn ready .downloadUrl

end Native

/-- What a future is completed with, at the time that goes into its buffer. A
download has the memory behind the header, as the SDK has left it. -/
inductive StorageCompletion
  | finished (f : Finished)
  | metadata (postedNs : Int64) (f : Future Metadata)
  | bytes (postedNs : Int64) (memory : Bytes) (f : Future Nat)
  | url (f : Future Bytes)

inductive StorageMessage
  | outcome (m : OutcomeMessage)
  | typedData (bytes : Bytes)

/-- The message of a post, given the time and the memory that the SDK wrote to. -/
def postedMessage (postedNs : Int64) (memory : Bytes) : Post → Option StorageMessage
  | .outcome ok code text => (fdbPostOutcome ok code text).map .outcome
  | .buffer seq payload => some (.typedData (fdbPostBuffer postedNs.toUInt64 seq payload))
  | .owned seq length =>
    some (.typedData (GetObject.fdbPostBufferOwned postedNs.toUInt64 seq memory length))

/-- A future of metadata as its callback reads it. -/
def serialized (f : Future Metadata) : Future (Option Bytes) :=
  ⟨f.error, f.message, f.result.map serializeMetadata⟩

/-- What the callback of a request posts. -/
def StorageRequest.post : StorageRequest → StorageCompletion → Option StorageMessage
  | .put .., .metadata postedNs f =>
    ((callback .put (serialized f)).findSome? GetObject.postOf).bind (postedMessage postedNs [])
  | .metadata _, .metadata postedNs f =>
    ((callback .metadata (serialized f)).findSome? GetObject.postOf).bind (postedMessage postedNs [])
  | .get _ capacity, .bytes postedNs memory f =>
    ((callback (.get capacity) f).findSome? GetObject.postOf).bind (postedMessage postedNs memory)
  | .delete _, .finished f =>
    ((callback .delete ⟨f.error, f.message, none⟩).findSome? GetObject.postOf).bind
      (postedMessage 0 [])
  | .downloadUrl _, .url f =>
    ((callback .downloadUrl f).findSome? GetObject.postOf).bind (postedMessage 0 [])
  | _, _ => none

/-- The functions of the library that await one answer. `download` is the second
half of getObject, with the size that it has read. -/
inductive StorageOperation
  | putObject (path bytes : Bytes) (contentType : Option Bytes)
  | download (path : Bytes) (size : Int64)
  | objectMetadata (path : Bytes)
  | deleteObject (path : Bytes)
  | downloadUrl (path : Bytes)

def StorageOperation.what : StorageOperation → Bytes
  | .putObject path .. => ascii "put " ++ path
  | .download path _ => ascii "get " ++ path
  | .objectMetadata path => ascii "metadata " ++ path
  | .deleteObject path => ascii "delete " ++ path
  | .downloadUrl path => ascii "downloadUrl " ++ path

/-- What a future is completed with, or what it fails with: a StorageException, or
what reading the metadata has thrown. -/
inductive StorageReply
  | metadata (m : StorageMetadata)
  | bytes (b : Bytes)
  | completed
  | url (text : Bytes)
  | exception (code : Int64) (message operation : Bytes)
  | thrown (t : Thrown)

/-- An operation, with whether there is a Storage, and memory, when it is called. -/
structure StorageCall where
  operation : StorageOperation
  ready : Bool
  allocated : Bool

def StorageCall.invoke (c : StorageCall) : Except Int64 StorageRequest :=
  match c.operation with
  | .putObject path bytes contentType =>
    fdbStoragePut c.ready (some (cString path)) (some bytes) bytes.length
      (some (cString (contentType.getD []))) c.allocated
  | .download path size => fdbStorageGet c.ready (some (cString path)) size c.allocated
  | .objectMetadata path => fdbStorageMetadata c.ready (some (cString path))
  | .deleteObject path => fdbStorageDelete c.ready (some (cString path))
  | .downloadUrl path => fdbStorageDownloadUrl c.ready (some (cString path))

def StorageCall.start (c : StorageCall) : Except (CallOutcome StorageReply) StorageRequest :=
  match c.invoke with
  | .ok request => .ok request
  | .error rc =>
    .error (.refused (.state (withCode (c.operation.what ++ ascii " failed to start") rc)))

section Handlers

variable (package : CborPackage)

/-- What putObject and objectMetadata make of their payload. -/
def metadataReply (payload : Bytes) : StorageReply :=
  match decodeMetadata package payload with
  | .ok m => .metadata m
  | .error t => .thrown t

/-- The handler of `_awaitBuffer`, with what the caller makes of a payload. -/
def awaitBuffer (what : Bytes) (next : Bytes → StorageReply) : StorageMessage → Option StorageReply
  | .typedData bytes => some (next (bytes.drop snapshotHeaderBytes))
  | .outcome m => some (.exception m.code m.message what)

/-- The handler of `_awaitOutcome`. It throws at a buffer. -/
def awaitOutcome (what : Bytes) (next : Bytes → StorageReply) :
    StorageMessage → Option StorageReply
  | .typedData _ => none
  | .outcome m => some (if m.ok then next m.message else .exception m.code m.message what)

def StorageOperation.handle (op : StorageOperation) : StorageMessage → Option StorageReply :=
  match op with
  | .putObject .. | .objectMetadata _ => awaitBuffer op.what (metadataReply package)
  | .download .. => awaitBuffer op.what .bytes
  | .deleteObject _ => awaitOutcome op.what fun _ => .completed
  | .downloadUrl _ => awaitOutcome op.what .url

def storageCalls : Protocol StorageCall StorageRequest StorageCompletion StorageMessage
    (CallOutcome StorageReply) where
  start c := c.start
  post r f := r.post f
  handle c m := (c.operation.handle package m).map .answered

end Handlers

/-- A future has a result of the kind that was asked for. The SDK has metadata that
are valid, and writes no more of a download than there is room for. -/
inductive StorageRequest.Suits : StorageRequest → StorageCompletion → Prop
  | put {path bytes contentType postedNs f} : (∀ m, f.result = some m → m.Valid) →
      Suits (.put path bytes contentType) (.metadata postedNs f)
  | metadata {path postedNs f} : (∀ m, f.result = some m → m.Valid) →
      Suits (.metadata path) (.metadata postedNs f)
  | get {path capacity postedNs memory f} : memory.length = capacity →
      Suits (.get path capacity) (.bytes postedNs memory f)
  | delete {path f} : Suits (.delete path) (.finished f)
  | downloadUrl {path f} : Suits (.downloadUrl path) (.url f)

/-- An exception with the text of an error, unless that is not UTF-8. -/
def exceptionWith (what : Bytes) (code : Int64) (text : Bytes) : Option StorageReply :=
  if validUtf8 (cString text) then some (.exception code (cString text) what) else none

/-- What an operation is to be told of its future: the metadata that the SDK has,
unless they are too long, the bytes that it has written, or its error. -/
inductive StorageOperation.Tells (op : StorageOperation) : StorageCompletion →
    Option StorageReply → Prop
  | failedMetadata {postedNs f} : f.error ≠ 0 →
      Tells op (.metadata postedNs f) (exceptionWith op.what f.error f.text)
  | noMetadata {postedNs f} : f.error = 0 → f.result.bind serializeMetadata = none →
      Tells op (.metadata postedNs f)
        (some (.exception (-2) (ascii "could not encode metadata") op.what))
  | metadata {postedNs f m r} : f.error = 0 → f.result = some m → Recovers m r →
      Tells op (.metadata postedNs f) (some (.metadata r))
  | failedBytes {postedNs memory f} : f.error ≠ 0 →
      Tells op (.bytes postedNs memory f) (exceptionWith op.what f.error f.text)
  | bytes {postedNs memory f} : f.error = 0 →
      Tells op (.bytes postedNs memory f) (some (.bytes (memory.take (f.result.getD 0))))
  | failed {f} : f.error ≠ 0 →
      Tells op (.finished f) (exceptionWith op.what f.error (f.message.getD []))
  | completed {f} : f.error = 0 → Tells op (.finished f) (if validUtf8 f.text then some .completed else none)
  | failedUrl {f} : f.error ≠ 0 → Tells op (.url f) (exceptionWith op.what f.error f.text)
  | url {f} : f.error = 0 → Tells op (.url f)
      (if validUtf8 (cString (f.result.getD [])) then some (.url (cString (f.result.getD [])))
        else none)

def storageService : Service StorageCall StorageRequest StorageCompletion
    (CallOutcome StorageReply) where
  Suits request f := request.Suits f
  Tells c f o := ∃ r, c.operation.Tells f r ∧ o = r.map .answered

section Requests

variable {ready : Bool} {request : StorageRequest}

theorem fdbStoragePut_ok {path bytes : Option Bytes} {len : Nat} {contentType : Option Bytes}
    {allocated : Bool} (h : fdbStoragePut ready path bytes len contentType allocated = .ok request) :
    ∃ path bytes contentType, request = .put path bytes contentType := by
  unfold fdbStoragePut at h
  split at h
  · cases h
  · split at h
    · cases h
    · split at h
      · cases h
      · split at h
        · cases h
        · cases h
          exact ⟨_, _, _, rfl⟩

theorem fdbStorageGet_ok {path : Option Bytes} {capacity : Int64} {allocated : Bool}
    (h : fdbStorageGet ready path capacity allocated = .ok request) :
    ∃ path capacity, request = .get path capacity := by
  unfold fdbStorageGet at h
  split at h
  · cases h
  · split at h
    · cases h
    · split at h
      · cases h
      · split at h
        · cases h
        · cases h
          exact ⟨_, _, rfl⟩

theorem fdbStorageOn_ok {of : Bytes → StorageRequest} {path : Option Bytes}
    (h : fdbStorageOn ready of path = .ok request) : ∃ path, request = of path := by
  unfold fdbStorageOn at h
  split at h
  · cases h
  · split at h
    · cases h
    · cases h
      exact ⟨_, rfl⟩

/-- A call comes back as its entry point does. -/
theorem invoke_returns (less : Firebase.Less) (s : InFlight.State) (c : InFlight.Call)
    (contentType : Option Bytes) : (s.enter less c).2 = match c with
      | .put path bytes len allocated =>
        returnCode (fdbStoragePut (s.ready .storage) path bytes len contentType allocated)
      | .get path capacity allocated =>
        returnCode (fdbStorageGet (s.ready .storage) path capacity allocated)
      | .delete path => returnCode (fdbStorageDelete (s.ready .storage) path)
      | .metadata path => returnCode (fdbStorageMetadata (s.ready .storage) path)
      | .downloadUrl path => returnCode (fdbStorageDownloadUrl (s.ready .storage) path)
      | .call name args => (InFlight.fdbFunctionsCall less s name args).2 := by
  have hon : ∀ r of path, (InFlight.fdbStorageOn r s path).2 =
      returnCode (fdbStorageOn (s.ready .storage) of path) := by
    intro r of path
    unfold InFlight.fdbStorageOn fdbStorageOn
    cases s.ready .storage <;> cases path <;> rfl
  cases c with
  | put path bytes len allocated =>
    show (InFlight.fdbStoragePut s path bytes len allocated).2 = _
    unfold InFlight.fdbStoragePut fdbStoragePut
    cases s.ready .storage with
    | false => rfl
    | true =>
      cases path with
      | none => rfl
      | some path =>
        cases bytes with
        | none => by_cases hlen : len = 0 <;> cases allocated <;> simp [hlen, returnCode]
        | some bytes => cases allocated <;> rfl
  | get path capacity allocated =>
    show (InFlight.fdbStorageGet s path capacity allocated).2 = _
    unfold InFlight.fdbStorageGet fdbStorageGet
    cases s.ready .storage with
    | false => rfl
    | true =>
      cases path with
      | none => rfl
      | some path =>
        by_cases hneg : capacity < 0
        · simp [hneg, returnCode]
        · cases allocated <;> simp [hneg, returnCode]
  | delete path => exact hon ..
  | metadata path => exact hon ..
  | downloadUrl path => exact hon ..
  | call name args => rfl

end Requests

section Provided

variable {package : CborPackage} {what : Bytes} {next : Bytes → StorageReply}

theorem outcome_told {handle : StorageMessage → Option StorageReply} (postedNs : Int64)
    (memory : Bytes) (code : Int64) (text : Bytes)
    (h : ∀ text, handle (.outcome ⟨false, code, text⟩) = some (.exception code text what)) :
    (postedMessage postedNs memory (.outcome false code text)).bind handle =
      exceptionWith what code text := by
  rw [postedMessage, fdbPostOutcome, exceptionWith]
  split
  · exact h _
  · rfl

theorem fdbPostBuffer_drop (now : UInt64) (seq : Int64) (payload : Bytes) :
    (fdbPostBuffer now seq payload).drop snapshotHeaderBytes = payload := by
  rw [fdbPostBuffer, ← snapshotHeader_length now seq payload.length, List.drop_left]

theorem postMetadata_failed {f : Future Metadata} (herror : f.error ≠ 0) :
    postMetadataResult (serialized f) = .outcome false f.error f.text :=
  if_pos herror

theorem postMetadata_none {f : Future Metadata} (herror : f.error = 0)
    (hnone : f.result.bind serializeMetadata = none) :
    postMetadataResult (serialized f) =
      .outcome false (-2) (ascii "could not encode metadata") := by
  obtain ⟨error, message, result⟩ := f
  refine (if_neg (not_not.mpr herror)).trans ?_
  cases result with
  | none => rfl
  | some m =>
    have hm : serializeMetadata m = none := hnone
    simp only [serialized, Option.map_some, hm]

theorem postMetadata_some {f : Future Metadata} (herror : f.error = 0) {m : Metadata}
    (hm : f.result = some m) {payload : Bytes} (hpayload : serializeMetadata m = some payload) :
    postMetadataResult (serialized f) = .buffer 1 payload := by
  refine (if_neg (not_not.mpr herror)).trans ?_
  simp only [serialized, hm, Option.map_some, hpayload]

theorem could_not_text : validUtf8 (cString (ascii "could not encode metadata")) = true ∧
    cString (ascii "could not encode metadata") = ascii "could not encode metadata" := by
  decide

/-- The metadata of a future, or its error. -/
theorem metadata_told (hp : package.Reads) (op : StorageOperation) (postedNs : Int64)
    {f : Future Metadata} (hvalid : ∀ m, f.result = some m → m.Valid) :
    op.Tells (.metadata postedNs f)
      ((postedMessage postedNs [] (postMetadataResult (serialized f))).bind
        (awaitBuffer op.what (metadataReply package))) := by
  by_cases herror : f.error = 0
  · cases hpayload : f.result.bind serializeMetadata with
    | none =>
      rw [postMetadata_none herror hpayload, outcome_told _ _ _ _ fun _ => rfl, exceptionWith,
        if_pos could_not_text.1, could_not_text.2]
      exact .noMetadata herror hpayload
    | some payload =>
      obtain ⟨m, hm, hserialized⟩ := Option.bind_eq_some_iff.mp hpayload
      have hvalid := hvalid m hm
      obtain ⟨r, hr, hrecovers⟩ := hvalid.decoded hp
      rw [postMetadata_some herror hm hserialized, postedMessage, Option.bind_some, awaitBuffer,
        fdbPostBuffer_drop, hvalid.serialized hserialized, metadataReply, hr]
      exact .metadata herror hm hrecovers
  · rw [postMetadata_failed herror, outcome_told _ _ _ _ fun _ => rfl]
    exact .failedMetadata herror

theorem fdbPostBufferOwned_drop (now : UInt64) (seq : Int64) (owned : Bytes) (len : Nat) :
    (GetObject.fdbPostBufferOwned now seq owned len).drop snapshotHeaderBytes = owned.take len := by
  rw [GetObject.fdbPostBufferOwned, ← snapshotHeader_length now seq len, List.drop_left]

/-- The bytes that have come, or the error. -/
theorem bytes_told (op : StorageOperation) (postedNs : Int64) (memory : Bytes) (f : Future Nat) :
    op.Tells (.bytes postedNs memory f)
      (((callback (.get memory.length) f).findSome? GetObject.postOf).bind
        (postedMessage postedNs memory) |>.bind (awaitBuffer op.what .bytes)) := by
  by_cases herror : f.error = 0
  · have hposts : callback (.get memory.length) f =
        [.post (.owned 1 (min (f.result.getD 0) memory.length))] := if_neg (not_not.mpr herror)
    rw [hposts]
    show op.Tells _ (some (.bytes ((GetObject.fdbPostBufferOwned _ _ _ _).drop _)))
    rw [fdbPostBufferOwned_drop, ← List.take_eq_take_min]
    exact .bytes herror
  · have hposts : callback (.get memory.length) f =
        [.free, .post (.outcome false f.error f.text), .store] := if_pos herror
    rw [hposts]
    show op.Tells _ ((postedMessage postedNs memory (.outcome false f.error f.text)).bind
      (awaitBuffer op.what .bytes))
    rw [outcome_told _ _ _ _ fun _ => rfl]
    exact .failedBytes herror

theorem delete_told (op : StorageOperation) (f : Finished) :
    op.Tells (.finished f) ((postedMessage 0 [] (.outcome (f.error = 0) f.error
      (f.message.getD []))).bind (awaitOutcome op.what fun _ => .completed)) := by
  by_cases herror : f.error = 0
  · have htold : (postedMessage 0 [] (.outcome (f.error = 0) f.error (f.message.getD []))).bind
        (awaitOutcome op.what fun _ => .completed) =
        if validUtf8 f.text then some .completed else none := by
      rw [postedMessage, fdbPostOutcome, decide_eq_true herror, Finished.text]
      split <;> rfl
    rw [htold]
    exact .completed herror
  · rw [decide_eq_false herror, outcome_told _ _ _ _ fun _ => rfl]
    exact .failed herror

theorem url_told (op : StorageOperation) (f : Future Bytes) :
    op.Tells (.url f) (((callback .downloadUrl f).findSome? GetObject.postOf).bind
      (postedMessage 0 []) |>.bind (awaitOutcome op.what .url)) := by
  by_cases herror : f.error = 0
  · have hposts : callback .downloadUrl f =
        [.post (.outcome true 0 (f.result.getD [])), .store] := if_neg (not_not.mpr herror)
    have htold : (postedMessage 0 [] (.outcome true 0 (f.result.getD []))).bind
        (awaitOutcome op.what .url) = if validUtf8 (cString (f.result.getD [])) then
          some (.url (cString (f.result.getD []))) else none := by
      rw [postedMessage, fdbPostOutcome]
      split <;> rfl
    rw [hposts]
    show op.Tells _ ((postedMessage 0 [] (.outcome true 0 (f.result.getD []))).bind
      (awaitOutcome op.what .url))
    rw [htold]
    exact .url herror
  · have hposts : callback .downloadUrl f =
        [.post (.outcome false f.error f.text), .store] := if_pos herror
    rw [hposts]
    show op.Tells _ ((postedMessage 0 [] (.outcome false f.error f.text)).bind
      (awaitOutcome op.what .url))
    rw [outcome_told _ _ _ _ fun _ => rfl]
    exact .failedUrl herror

theorem start_invoke {c : StorageCall} {request : StorageRequest} (h : c.start = .ok request) :
    c.invoke = .ok request := by
  unfold StorageCall.start at h
  split at h
  · next hinvoke =>
    cases h
    exact hinvoke
  · cases h

theorem storageCalls_provide (hp : package.Reads) :
    (storageCalls package).Provides storageService := by
  intro c request f hstart hsuits
  suffices h : c.operation.Tells f ((request.post f).bind (c.operation.handle package)) by
    refine ⟨_, h, ?_⟩
    show (request.post f).bind (fun m => (c.operation.handle package m).map _) = _
    rw [Option.map_bind]
    rfl
  obtain ⟨op, ready, allocated⟩ := c
  have hinvoke := start_invoke hstart
  cases op with
  | putObject path bytes contentType =>
    dsimp only [StorageCall.invoke] at hinvoke
    obtain ⟨path, bytes, contentType, rfl⟩ := fdbStoragePut_ok hinvoke
    cases hsuits with
    | put hvalid => exact metadata_told hp _ _ hvalid
  | download path size =>
    dsimp only [StorageCall.invoke] at hinvoke
    obtain ⟨path, capacity, rfl⟩ := fdbStorageGet_ok hinvoke
    cases hsuits with
    | get hmemory =>
      subst hmemory
      exact bytes_told _ _ _ _
  | objectMetadata path =>
    dsimp only [StorageCall.invoke] at hinvoke
    obtain ⟨path, rfl⟩ := fdbStorageOn_ok hinvoke
    cases hsuits with
    | metadata hvalid => exact metadata_told hp _ _ hvalid
  | deleteObject path =>
    dsimp only [StorageCall.invoke] at hinvoke
    obtain ⟨path, rfl⟩ := fdbStorageOn_ok hinvoke
    cases hsuits
    exact delete_told _ _
  | downloadUrl path =>
    dsimp only [StorageCall.invoke] at hinvoke
    obtain ⟨path, rfl⟩ := fdbStorageOn_ok hinvoke
    cases hsuits
    exact url_told _ _

end Provided

end Storage
