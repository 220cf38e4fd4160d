import FirebaseFfi.Firestore.RequestsAnswered
import FirebaseFfi.Machine.FeedTold

namespace Firestore
open Calls Cbor Dart Machine Tinycbor

/-- What a listener is added to. -/
inductive Watched
  | document (path : Bytes)
  | query (query : Query)

section Native

variable (sdk : SdkCalls) (ready : Bool)

/-- fdb_fs_listen, up to its number. -/
def listenDocument (docPath : Option Bytes) : Except Exit Watched :=
  if !ready then .error (.returned false (-1))
  else
    match docPath with
    | none => .error (.returned false (-2))
    | some path =>
      if sdk.document path && sdk.documentListener path then .ok (.document path)
      else .error .left

/-- fdb_fs_query_listen, up to its number. -/
def listenQuery (collectionPath : Option Bytes) (spec : Bytes) : Except Exit Watched :=
  if !ready then .error (.returned false (-1))
  else
    match collectionPath with
    | none => .error (.returned false (-2))
    | some path =>
      if !sdk.base false (ascii "_") then .error .left
      else
        match buildQuery sdk.toSdk path spec with
        | .ok query => if sdk.addSnapshotListener query then .ok (.query query) else .error .left
        | .error .threw => .error (.returned true (-4))
        | .error _ => .error (.returned false (-3))

/-- How a listen comes back that takes a number. -/
def exitAs (id : Int64) : Except Exit Watched → Exit
  | .ok _ => .returned false id
  | .error exit => exit

theorem listenDocument_exit (id : Int64) (docPath : Option Bytes) :
    exitAs id (listenDocument sdk ready docPath) = fdbFsListen sdk ready id docPath := by
  unfold listenDocument fdbFsListen
  cases ready with
  | false => rfl
  | true =>
    cases docPath with
    | none => rfl
    | some path =>
      cases hdocument : sdk.document path <;> cases hlistener : sdk.documentListener path <;>
        simp [unhandled, exitAs, hdocument, hlistener]

theorem listenQuery_exit (id : Int64) (collectionPath : Option Bytes) (spec : Bytes) :
    exitAs id (listenQuery sdk ready collectionPath spec) =
      fdbFsQueryListen sdk ready id collectionPath spec := by
  unfold listenQuery fdbFsQueryListen
  cases ready with
  | false => rfl
  | true =>
    cases collectionPath with
    | none => rfl
    | some path =>
      cases hbase : sdk.base false (ascii "_") with
      | false => simp [withQuery, unhandled, exitAs, hbase]
      | true =>
        cases hquery : buildQuery sdk.toSdk path spec with
        | ok query =>
          cases hlistener : sdk.addSnapshotListener query <;>
            simp [withQuery, unhandled, exitAs, hbase, hquery, hlistener]
        | error e => cases e <;> simp [withQuery, unhandled, exitAs, hbase, hquery]

end Native

/-- What the SDK tells a listener, at the time that goes into the buffer. -/
inductive WatchReport
  | document (postedNs : Int64) (error : Int) (message : Bytes) (snap : Snapshot)
  | result (postedNs : Int64) (error : Int) (message : Bytes) (docs : List DocumentSnapshot)

/-- A listener with its counter. -/
structure FsListener where
  watched : Watched
  seq : Int64

/-- The callback of fdb_fs_query_listen, with its counter as it was. -/
def Callback.fdbFsQueryListen (seq : Int64) (error : Int) (message : Bytes)
    (docs : List DocumentSnapshot) : Int64 × Posted :=
  if error = 0 then
    match serializeQueryResult docs with
    | none => (seq, ⟨-2, []⟩)
    | some payload => (seq + 1, ⟨seq + 1, payload⟩)
  else (seq, ⟨-1, errorPayload (listenErrorText error message)⟩)

def WatchReport.postedNs : WatchReport → Int64
  | .document postedNs .. | .result postedNs .. => postedNs

/-- What the callback of a listener posts, and the counter after it. -/
def FsListener.callback (x : FsListener) : WatchReport → Option (Int64 × Posted)
  | .document _ error message snap =>
    match x.watched with
    | .document _ => some (Callback.fdbFsListen x.seq error message snap)
    | .query _ => none
  | .result _ error message docs =>
    match x.watched with
    | .query _ => some (Callback.fdbFsQueryListen x.seq error message docs)
    | .document _ => none

/-- The overflow of a counter is undefined. -/
def FsListener.tell (x : FsListener) (r : WatchReport) : Option (FsListener × Bytes) :=
  if x.seq = Int64.maxValue then none
  else
    (x.callback r).map fun (seq, p) =>
      ({ x with seq := seq }, postDocument r.postedNs p.seq p.payload)

/-- The functions of the library that give a stream. The spec of a query is encoded
before there is one. -/
inductive FsStreamCall (package : CborPackage)
  | onDocument (path : Bytes)
  | onQuery (collectionPath : Bytes) (rows : Rows) (cursors : Cursors) (spec : Bytes)
    (encoded : encodeSpec package (rows.spec cursors) = .ok spec)

inductive WatchItem
  | document (value : Object)
  | result (docs : List QueryDocument)
  | error (e : Refusal)

section Dart

variable {package : CborPackage}

/-- `'…${reason ?? "no reason"}'` -/
def canceled (package : CborPackage) (text bytes : Bytes) : Except Thrown WatchItem := do
  let reason ← decodeSnapshotValue package bytes
  match reason with
  | .null => return .error (.state (text ++ ascii "no reason"))
  | reason => return .error (.state (text ++ (← interpolated package reason)))

/-- The text that an error of the listener goes after. -/
def FsStreamCall.canceledText : FsStreamCall package → Bytes
  | .onDocument _ => ascii "firestore listener canceled: "
  | .onQuery .. => ascii "firestore query listener canceled: "

/-- What a stream makes of a snapshot. -/
def FsStreamCall.decoded (call : FsStreamCall package) (bytes : Bytes) :
    Except Thrown WatchItem :=
  match call with
  | .onDocument _ => do return .document (← Calls.decodeDocument package bytes)
  | .onQuery .. => do return .result (← Calls.decodeQueryResult package bytes)

/-- The handler of a stream's port, as what it adds or throws. -/
def FsStreamCall.handler (call : FsStreamCall package) (bytes : Bytes) :
    Except Thrown WatchItem := do
  let seq ← seqOf bytes
  if seq < 0 then canceled package call.canceledText bytes else call.decoded bytes

/-- The error for an id that is negative. -/
def FsStreamCall.refused (call : FsStreamCall package) (rc : Int64) : WatchItem :=
  match call with
  | .onDocument path => .error (.state (withCode (ascii "listen " ++ path ++ ascii " failed") rc))
  | .onQuery collectionPath .. =>
    if rc = -3 ∨ rc = -4 then
      .error (.argument (ascii "this query cannot be watched as expressed"))
    else .error (.state (withCode (ascii "watch " ++ collectionPath ++ ascii " failed") rc))

/-- The native call of a stream, given whether there is a Firestore. -/
def FsStreamCall.invoke (sdk : SdkCalls) (call : FsStreamCall package) (ready : Bool) :
    Except Exit Watched :=
  match call with
  | .onDocument path => listenDocument sdk ready (some (cString path))
  | .onQuery collectionPath _ _ spec _ => listenQuery sdk ready (some (cString collectionPath)) spec

/-- An exception that leaves the native side does not come back. -/
def FsStreamCall.listen (sdk : SdkCalls) (call : FsStreamCall package) (ready : Bool) :
    Option (Except Int64 FsListener) :=
  match call.invoke sdk ready with
  | .ok watched => some (.ok ⟨watched, 0⟩)
  | .error (.returned _ rc) => some (.error rc)
  | .error .left => none

end Dart

section Feeds

variable (package : CborPackage) (sdk : SdkCalls)

/-- The streams of documents and of queries, which share one table of listeners. -/
def watches :
    Feed (FsStreamCall package) Bool FsListener WatchReport Bytes WatchItem Int64 where
  listen call ready := call.listen sdk ready
  tell := FsListener.tell
  handle call bytes := (call.handler bytes).toOption
  refused := FsStreamCall.refused

end Feeds

/-- The error of a listener in UTF-8, and not too long. -/
structure ErrorText (text : Bytes) : Prop where
  utf8 : Utf8 text
  length : text.length ≤ maxSize
  bytes : (textItem text).bytes.length < 2 ^ 32

/-- Documents as the database has them, or an error that has a text. -/
inductive WatchReport.Suits : WatchReport → Prop
  | document {postedNs error message snap} :
      (∀ m, snap.data = some m → (FieldValue.map m).Stored) →
      (error ≠ 0 → ErrorText (listenErrorText error message)) →
      Suits (.document postedNs error message snap)
  | result {postedNs error message docs} : (∀ d ∈ docs, d.Stored) →
      (error ≠ 0 → ErrorText (listenErrorText error message)) →
      Suits (.result postedNs error message docs)

/-- A document, or null for one that is not there. One that is too long is shown as
if it was not there. -/
def shownDocument : Option MapFieldValue → Object
  | none => .null
  | some m => if (documentBytes m).length ≤ largestBuffer then toDart (.map m) else .null

/-- A result that is complete. Of one that was cut short nothing is shown. -/
def shownResult (text : Bytes) (docs : List DocumentSnapshot) : Option WatchItem :=
  match serializeQueryResult docs with
  | none => some (.error (.state (text ++ ascii "no reason")))
  | some _ =>
    if ResultFits docs 12 4096 then some (.result (docs.map DocumentSnapshot.shown)) else none

/-- What a stream is to show of a report. -/
def WatchReport.shown {package : CborPackage} (call : FsStreamCall package) :
    WatchReport → Option WatchItem
  | .document _ error message snap =>
    if error = 0 then some (.document (shownDocument snap.data))
    else some (.error (.state (call.canceledText ++ listenErrorText error message)))
  | .result _ error message docs =>
    if error = 0 then shownResult call.canceledText docs
    else some (.error (.state (call.canceledText ++ listenErrorText error message)))

/-- A listener of the stream's kind, whose counter is not negative. -/
inductive FsStreamCall.Sound {package : CborPackage} : FsStreamCall package → FsListener → Prop
  | document {path p seq} : 0 ≤ seq → Sound (.onDocument path) ⟨.document p, seq⟩
  | query {path rows cursors spec encoded q seq} : 0 ≤ seq →
      Sound (.onQuery path rows cursors spec encoded) ⟨.query q, seq⟩

section Conveys

variable {package : CborPackage} {sdk : SdkCalls}

theorem listenDocument_ok {ready : Bool} {docPath : Option Bytes} {w : Watched}
    (h : listenDocument sdk ready docPath = .ok w) : ∃ path, w = .document path := by
  unfold listenDocument at h
  split at h
  · cases h
  · split at h
    · cases h
    · split at h
      · cases h
        exact ⟨_, rfl⟩
      · cases h

theorem listenQuery_ok {ready : Bool} {collectionPath : Option Bytes} {spec : Bytes} {w : Watched}
    (h : listenQuery sdk ready collectionPath spec = .ok w) : ∃ query, w = .query query := by
  unfold listenQuery at h
  split at h
  · cases h
  · split at h
    · cases h
    · split at h
      · cases h
      · split at h
        · split at h
          · cases h
            exact ⟨_, rfl⟩
          · cases h
        · cases h
        · cases h

theorem makes_sound {call : FsStreamCall package} {x : FsListener}
    (h : (watches package sdk).Makes call x) : call.Sound x := by
  obtain ⟨ready, h⟩ := h
  change call.listen sdk ready = some (.ok x) at h
  unfold FsStreamCall.listen at h
  split at h
  · next watched hinvoke =>
    cases h
    cases call with
    | onDocument path =>
      dsimp only [FsStreamCall.invoke] at hinvoke
      obtain ⟨p, rfl⟩ := listenDocument_ok hinvoke
      exact .document (by decide)
    | onQuery path rows cursors spec encoded =>
      dsimp only [FsStreamCall.invoke] at hinvoke
      obtain ⟨q, rfl⟩ := listenQuery_ok hinvoke
      exact .query (by decide)
  · cases h
  · cases h

theorem counted {seq : Int64} (h : 0 ≤ seq) (hmax : seq ≠ Int64.maxValue) :
    0 ≤ seq + 1 ∧ ¬ seq + 1 < 0 := by
  have hle := Int64.le_trans h (Int64.le_of_lt (lt_succ hmax))
  exact ⟨hle, Int64.not_lt.mpr hle⟩

/-- An error comes over with its reason. -/
theorem handler_error (hreads : package.Reads) (call : FsStreamCall package) (postedNs : Int64)
    {text : Bytes} (h : ErrorText text) :
    call.handler (postDocument postedNs (-1) (errorPayload text)) =
      .ok (.error (.state (call.canceledText ++ text))) := by
  rw [errorPayload_eq, FsStreamCall.handler, seqOf_postDocument, ok_bind, if_pos (by decide),
    canceled, decodeSnapshotValue_item hreads _ _ (textItem_wf h.length) (.text h.utf8) .string
      h.bytes]
  rfl

theorem handler_nothing (call : FsStreamCall package) (postedNs : Int64) :
    call.handler (postDocument postedNs (-2) []) =
      .ok (.error (.state (call.canceledText ++ ascii "no reason"))) := by
  have hvalue : decodeSnapshotValue package (postDocument postedNs (-2) []) = .ok .null := by
    have hback := (posts_read_back postedNs (-2) (by decide : ([] : Bytes).length < _)
      (by decide : ([] : Bytes).length < _)).2.2
    rw [hback.decodesValue, if_pos rfl]
  rw [FsStreamCall.handler, seqOf_postDocument, ok_bind, if_pos (by decide), canceled, hvalue]
  rfl

/-- A snapshot comes over as the document that it has. -/
theorem handler_document (hdecodes : DecodesDocuments package) (path : Bytes) (postedNs : Int64)
    {seq : Int64} (hseq : ¬ seq < 0) {snap : Snapshot}
    (hstored : ∀ m, snap.data = some m → (FieldValue.map m).Stored) :
    (FsStreamCall.onDocument path : FsStreamCall package).handler
      (postDocument postedNs seq (serialized snap)) =
      .ok (.document (shownDocument snap.data)) := by
  rw [FsStreamCall.handler, seqOf_postDocument, ok_bind, if_neg hseq, FsStreamCall.decoded]
  cases hdata : snap.data with
  | none =>
    have hempty : serialized snap = [] := by rw [serialized, hdata]; rfl
    rw [hempty, decodeDocument_missing]
    rfl
  | some m =>
    have hsized := snap.sized m hdata
    rw [shownDocument]
    split
    · next hfits =>
      have hbytes : serialized snap = documentBytes m := by
        rw [serialized, hdata, Option.bind_some, serializeDocument_eq hsized, if_pos hfits]
        rfl
      rw [hbytes, decodeDocument_post hdecodes _ _ hsized (hstored m hdata)]
      rfl
    · next hlong =>
      have hempty : serialized snap = [] := by
        rw [serialized, hdata, Option.bind_some, serializeDocument_eq hsized, if_neg hlong]
        rfl
      rw [hempty, decodeDocument_missing]
      rfl

/-- A result comes over when it is complete. -/
theorem handler_result (hdecodes : DecodesDocuments package) {call : FsStreamCall package}
    (hcall : ∀ bytes, call.decoded bytes = (do return .result (← Calls.decodeQueryResult package bytes)))
    (postedNs : Int64) {seq : Int64} (hseq : ¬ seq < 0) {docs : List DocumentSnapshot}
    (hstored : ∀ d ∈ docs, d.Stored) {payload : Bytes}
    (hpayload : serializeQueryResult docs = some payload) :
    (call.handler (postDocument postedNs seq payload)).toOption =
      shownResult call.canceledText docs := by
  obtain ⟨hfits, hno⟩ := decodeQueryResult_iff hdecodes postedNs seq hstored hpayload
  rw [FsStreamCall.handler, seqOf_postDocument, ok_bind, if_neg hseq, hcall, shownResult, hpayload]
  by_cases hfit : ResultFits docs 12 4096
  · rw [hfits hfit]
    dsimp only
    rw [if_pos hfit]
    rfl
  · obtain ⟨e, he⟩ := hno hfit
    rw [he]
    dsimp only
    rw [if_neg hfit]
    rfl

theorem document_told (hreads : package.Reads) (hdecodes : DecodesDocuments package) {path : Bytes}
    {seq next : Int64} (hseq : 0 ≤ seq) (hmax : seq ≠ Int64.maxValue) (postedNs : Int64)
    {error : Int} {message : Bytes} {snap : Snapshot} {p : Posted}
    (hstored : ∀ m, snap.data = some m → (FieldValue.map m).Stored)
    (htext : error ≠ 0 → ErrorText (listenErrorText error message))
    (hp : Callback.fdbFsListen seq error message snap = (next, p)) :
    0 ≤ next ∧ ((FsStreamCall.onDocument path : FsStreamCall package).handler
      (postDocument postedNs p.seq p.payload)).toOption =
      (WatchReport.document postedNs error message snap).shown
        (FsStreamCall.onDocument path : FsStreamCall package) := by
  rw [WatchReport.shown]
  unfold Callback.fdbFsListen at hp
  split at hp
  · next herror =>
    obtain ⟨rfl, rfl⟩ := Prod.mk.inj hp
    refine ⟨(counted hseq hmax).1, ?_⟩
    rw [if_pos herror, handler_document hdecodes path postedNs (counted hseq hmax).2 hstored]
    rfl
  · next herror =>
    obtain ⟨rfl, rfl⟩ := Prod.mk.inj hp
    refine ⟨hseq, ?_⟩
    rw [if_neg herror, handler_error hreads _ postedNs (htext herror)]
    rfl

theorem result_told (hreads : package.Reads) (hdecodes : DecodesDocuments package)
    (call : FsStreamCall package)
    (hcall : ∀ bytes, call.decoded bytes = (do return .result (← Calls.decodeQueryResult package bytes)))
    {seq next : Int64} (hseq : 0 ≤ seq) (hmax : seq ≠ Int64.maxValue) (postedNs : Int64)
    {error : Int} {message : Bytes} {docs : List DocumentSnapshot} {p : Posted}
    (hstored : ∀ d ∈ docs, d.Stored)
    (htext : error ≠ 0 → ErrorText (listenErrorText error message))
    (hp : Callback.fdbFsQueryListen seq error message docs = (next, p)) :
    0 ≤ next ∧ (call.handler (postDocument postedNs p.seq p.payload)).toOption =
      (WatchReport.result postedNs error message docs).shown call := by
  rw [WatchReport.shown]
  unfold Callback.fdbFsQueryListen at hp
  split at hp
  · next herror =>
    rw [if_pos herror]
    cases hpayload : serializeQueryResult docs with
    | none =>
      rw [hpayload] at hp
      obtain ⟨rfl, rfl⟩ := Prod.mk.inj hp
      refine ⟨hseq, ?_⟩
      rw [handler_nothing, shownResult, hpayload]
      rfl
    | some payload =>
      rw [hpayload] at hp
      obtain ⟨rfl, rfl⟩ := Prod.mk.inj hp
      exact ⟨(counted hseq hmax).1,
        handler_result hdecodes hcall postedNs (counted hseq hmax).2 hstored hpayload⟩
  · next herror =>
    obtain ⟨rfl, rfl⟩ := Prod.mk.inj hp
    refine ⟨hseq, ?_⟩
    rw [if_neg herror, handler_error hreads _ postedNs (htext herror)]
    rfl

theorem watches_handle (call : FsStreamCall package) (bytes : Bytes) :
    (watches package sdk).handle call bytes = (call.handler bytes).toOption := rfl

theorem watches_convey (hreads : package.Reads) (hdecodes : DecodesDocuments package) :
    (watches package sdk).Conveys WatchReport.Suits FsStreamCall.Sound WatchReport.shown := by
  refine ⟨makes_sound, ?_⟩
  intro call x r y bytes hx hr htell
  change x.tell r = some (y, bytes) at htell
  unfold FsListener.tell at htell
  split at htell
  · cases htell
  · next hmax =>
    obtain ⟨⟨next, p⟩, hp, heq⟩ := Option.map_eq_some_iff.mp htell
    obtain ⟨rfl, rfl⟩ := Prod.mk.inj heq
    cases hx with
    | document hseq =>
      cases hr with
      | @document postedNs error message snap hstored htext =>
        obtain ⟨hnext, htold⟩ := document_told hreads hdecodes hseq hmax postedNs hstored htext
          (Option.some.inj hp)
        refine ⟨.document hnext, ?_⟩
        rw [watches_handle]
        exact htold
      | result => cases hp
    | @query path rows cursors spec encoded q seq hseq =>
      cases hr with
      | document => cases hp
      | @result postedNs error message docs hstored htext =>
        obtain ⟨hnext, htold⟩ := result_told hreads hdecodes
          (.onQuery path rows cursors spec encoded) (fun _ => rfl) hseq hmax postedNs hstored htext
          (Option.some.inj hp)
        refine ⟨.query hnext, ?_⟩
        rw [watches_handle]
        exact htold

end Conveys

section Runs

variable {package : CborPackage} {sdk : SdkCalls}

abbrev Watching (package : CborPackage) :=
  Hub (FsStreamCall package) FsListener WatchReport Bytes WatchItem Int64 Int64

/-- In every run, whatever the order of the application, the SDK's threads and the
isolate, each stream shows what the SDK told its own listener. -/
theorem watches_tell (hreads : package.Reads) (hdecodes : DecodesDocuments package)
    {h : Watching package}
    (hrun : Run (Hub.step (watches package sdk)) (fun _ a => a.Suits WatchReport.Suits) .start h)
    {i : Nat} {s : Subscription (FsStreamCall package) Bytes WatchItem Int64 Int64}
    (hi : h.streams[i]? = some s) : h.Tells (watches package sdk) WatchReport.shown s :=
  Hub.streams_told (watches_convey hreads hdecodes) hrun hi

/-- The document, the result that has it, and the text of an error. -/
def watchedItems : List Item := documentItems ++ [textItem (listenErrorText 7 (ascii "no"))]

theorem watchedItems_wf : ∀ x ∈ watchedItems, x.WF := by
  refine List.forall_mem_append.mpr ⟨documentItems_wf, ?_⟩
  intro x hx
  obtain rfl := List.mem_singleton.mp hx
  exact textItem_wf (by decide)

theorem errorText_no : ErrorText (listenErrorText 7 (ascii "no")) :=
  ⟨⟨"error 7: no", rfl⟩, by decide, by decide⟩

def watchedCollection : FsStreamCall (knownPackage watchedItems) :=
  .onQuery (ascii "c") wholeCollection ⟨none, none, none, none⟩ [] rfl

/-- A document and a query are watched, each told by its own listener, and all of it
handled. -/
def watchedBoth :
    List (FeedAction (FsStreamCall (knownPackage watchedItems)) Bool WatchReport Int64) :=
  [.ask (.onDocument (ascii "c/a")), .ask watchedCollection, .listen 1 true 8, .listen 0 true 7,
    .report 1 (.document 5 0 [] oneSnapshot), .report 0 (.result 6 0 [] [oneDocument]),
    .report 0 (.result 9 7 (ascii "no") []), .message 0, .message 1, .deliver 0, .message 1,
    .deliver 1, .deliver 1]

theorem oneSnapshot_suits (postedNs : Int64) :
    (WatchReport.document postedNs 0 [] oneSnapshot).Suits := by
  refine .document ?_ fun h => absurd rfl h
  intro m hm
  cases hm
  exact oneField_stored

theorem oneDocument_suits (postedNs : Int64) :
    (WatchReport.result postedNs 0 [] [oneDocument]).Suits := by
  refine .result ?_ fun h => absurd rfl h
  intro d hd
  obtain rfl := List.mem_singleton.mp hd
  exact oneDocument_stored

theorem watchedBoth_tells : ∃ h s t,
    exec (Hub.step (watches (knownPackage watchedItems) bySegments)) .start watchedBoth = some h ∧
      h.streams[0]? = some s ∧ h.streams[1]? = some t ∧
      s.out.received = [.document (.map [(.string (ascii "n"), .int 5)])] ∧
      t.out.received = [.result [⟨ascii "a", ascii "c/a", [(ascii "n", .int 5)]⟩],
        .error (.state (ascii "firestore query listener canceled: error 7: no"))] ∧
      h.Tells (watches (knownPackage watchedItems) bySegments) WatchReport.shown s ∧
      h.Tells (watches (knownPackage watchedItems) bySegments) WatchReport.shown t := by
  have hknown : knownPackage watchedItems = itemPackage := knownPackage_eq watchedItems_wf
  have hexec : exec (Hub.step (watches (knownPackage watchedItems) bySegments)) .start
      watchedBoth = some _ := rfl
  have hguard : Guarded (Hub.step (watches (knownPackage watchedItems) bySegments))
      (fun _ a => a.Suits WatchReport.Suits) .start watchedBoth := by
    refine Guarded.of_actions ?_
    simp only [watchedBoth, List.forall_mem_cons]
    exact ⟨trivial, trivial, trivial, trivial, oneSnapshot_suits 5, oneDocument_suits 6,
      .result (fun _ h => by cases h) fun _ => errorText_no, trivial, trivial, trivial, trivial,
      trivial, trivial, by simp⟩
  have hreads : (knownPackage watchedItems).Reads := hknown ▸ itemPackage_reads
  have hdecodes : DecodesDocuments (knownPackage watchedItems) := hknown ▸ itemPackage_decodes
  refine ⟨_, _, _, hexec, rfl, rfl, rfl, rfl, ?_, ?_⟩
  · exact watches_tell (i := 0) hreads hdecodes (Run.of_exec hexec hguard) rfl
  · exact watches_tell (i := 1) hreads hdecodes (Run.of_exec hexec hguard) rfl

/-- In every run the SDK has the listeners of the streams that are live, and no other;
and a stream that is cancelled is told nothing more. -/
theorem watches_release {h : Watching package}
    (hrun : Run (Hub.step (watches package sdk)) (fun _ _ => True) .start h) :
    h.Released ∧ ∀ (i : Nat) s h', h.streams[i]? = some s → s.phase = .cancelled →
      Run (Hub.step (watches package sdk)) (fun _ _ => True) h h' → h'.streams[i]? = some s :=
  Hub.streams_released hrun

/-- The document is cancelled, and its port opened for another. -/
def watchedAgain :
    List (FeedAction (FsStreamCall (knownPackage watchedItems)) Bool WatchReport Int64) :=
  watchedBoth ++ [.cancel 0, .ask (.onDocument (ascii "c/b")), .listen 2 true 7]

theorem watchedAgain_released : ∃ h,
    exec (Hub.step (watches (knownPackage watchedItems) bySegments)) .start watchedAgain = some h ∧
      h.registered = [0, 2] ∧ h.ports = [8, 7] ∧ h.table = [(1, 0), (3, 2)] ∧ h.Released := by
  have hexec : exec (Hub.step (watches (knownPackage watchedItems) bySegments)) .start
      watchedAgain = some _ := rfl
  exact ⟨_, hexec, rfl, rfl, rfl, (watches_release (Run.of_exec hexec (.unguarded _))).1⟩

end Runs

end Firestore
