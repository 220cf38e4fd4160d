import FirebaseFfi.Firestore.Exceptions
import FirebaseFfi.Firestore.Requests
import FirebaseFfi.Machine.Answering

namespace Firestore
open Calls Cbor Dart Machine Tinycbor

section Entries

variable {sdk : SdkCalls} {ready : Bool}

theorem exitWith_taken (takes : Bool) (request : FsRequest) :
    exitWith (taken takes request) = unhandled takes (.returned false 0) := by
  cases takes <;> rfl

theorem exitWith_ofDocument (docPath : Option Bytes) (request : Bytes → FsRequest) :
    exitWith (ofDocument sdk ready docPath request) = onDocument sdk ready docPath := by
  unfold ofDocument onDocument
  split
  · rfl
  · cases docPath with
    | none => rfl
    | some path => exact exitWith_taken _ _

theorem exitWith_ofQuery (path spec : Bytes) (next : Query → Except Exit FsRequest) :
    exitWith (ofQuery sdk path spec next) =
      withQuery sdk path spec fun query => exitWith (next query) := by
  unfold ofQuery withQuery unhandled
  cases sdk.base false (ascii "_") with
  | false => rfl
  | true =>
    cases buildQuery sdk.toSdk path spec with
    | ok query => rfl
    | error e => cases e <;> rfl

theorem exitWith_ofCollection (collectionPath : Option Bytes) (spec : Bytes)
    (takes : Query → Bool) (request : Query → FsRequest) :
    exitWith (ofCollection sdk ready collectionPath spec fun query =>
      taken (takes query) (request query)) =
    if !ready then .returned false (-1)
    else match collectionPath with
      | none => .returned false (-2)
      | some path =>
        withQuery sdk path spec fun query => unhandled (takes query) (.returned false 0) := by
  unfold ofCollection
  split
  · rfl
  · cases collectionPath with
    | none => rfl
    | some path => simp only [exitWith_ofQuery, exitWith_taken]

theorem exitWith_ofField (collectionPath : Option Bytes) (spec : Bytes) (field : Option Bytes)
    (takes : Query → Bytes → Bool) (request : Query → Bytes → FsRequest) :
    exitWith (ofField sdk ready collectionPath spec field takes request) =
    if !ready then .returned false (-1)
    else match collectionPath, field with
      | some path, some (c :: field) =>
        withQuery sdk path spec fun query =>
          handled (takes query (c :: field)) (.returned false 0)
      | _, _ => .returned false (-2) := by
  unfold ofField
  split
  · rfl
  · cases collectionPath with
    | none => rfl
    | some path =>
      cases field with
      | none => rfl
      | some field =>
        cases field with
        | nil => rfl
        | cons c field =>
          dsimp only
          rw [exitWith_ofQuery]
          congr 1
          funext query
          unfold handled
          split <;> rfl

theorem exitWith_ofData (docPath cbor : Option Bytes) (merge : Bool) :
    exitWith (ofData sdk ready docPath cbor merge) = fdbFsSet sdk ready docPath cbor := by
  unfold ofData fdbFsSet
  split
  · rfl
  · cases docPath with
    | none => rfl
    | some path =>
      cases cbor with
      | none => rfl
      | some cbor =>
        dsimp only
        cases parseDocumentCbor sdk.document cbor with
        | ok data => exact exitWith_taken _ _
        | error e => cases e <;> rfl

theorem exitWith_ofBatch (writes : Bytes) :
    exitWith (ofBatch sdk ready writes) =
      exitOf (fdbFsBatchCommit ready sdk.document writes).code := by
  unfold ofBatch fdbFsBatchCommit
  split
  · rfl
  · cases applyWrites sdk.document writes with
    | mk batch result =>
      cases result with
      | ok u => rfl
      | error e => cases e <;> rfl

/-- A call comes back as its entry point does. -/
theorem request_exit (s : Library) (c : NativeCall) :
    call sdk s c.entry = (s, [exitWith (c.request sdk s.ready)]) := by
  have entered : ∀ {exit : Exit}, exitWith (c.request sdk s.ready) = exit →
      (s, [exit]) = (s, [exitWith (c.request sdk s.ready)]) := by
    rintro exit rfl
    rfl
  cases c with
  | set docPath cbor merge => exact entered (exitWith_ofData docPath cbor merge)
  | delete docPath => exact entered (exitWith_ofDocument docPath _)
  | get docPath => exact entered (exitWith_ofDocument docPath _)
  | query collectionPath spec => exact entered (exitWith_ofCollection collectionPath spec _ _)
  | count collectionPath spec => exact entered (exitWith_ofCollection collectionPath spec _ _)
  | sum collectionPath spec field => exact entered (exitWith_ofField collectionPath spec field _ _)
  | average collectionPath spec field =>
    exact entered (exitWith_ofField collectionPath spec field _ _)
  | batchCommit writes => exact entered (exitWith_ofBatch writes)

end Entries

/-- The kinds of answer that there are. -/
inductive AnswerKind
  | outcome
  | document
  | documents
  | count
  | value
  deriving DecidableEq

def FsRequest.kind : FsRequest → AnswerKind
  | .set .. | .delete _ | .commit _ => .outcome
  | .get _ => .document
  | .query _ => .documents
  | .count _ => .count
  | .sum .. | .average .. => .value

def NativeCall.kind : NativeCall → AnswerKind
  | .set .. | .delete _ | .batchCommit _ => .outcome
  | .get _ => .document
  | .query .. => .documents
  | .count .. => .count
  | .sum .. | .average .. => .value

def FsOperation.kind : FsOperation → AnswerKind
  | .setDocument .. | .deleteDocument _ | .commit _ => .outcome
  | .getDocument _ => .document
  | .queryCollection .. => .documents
  | .countCollection .. => .count
  | .sumCollection .. | .averageCollection .. => .value

/-- A future of this kind may be completed so. What it has of the database is
stored there. -/
inductive AnswerKind.Suits : AnswerKind → FsCompletion → Prop
  | outcome {f} : Suits .outcome (.finished f)
  | document {postedNs error result} :
      (∀ s m, result = some s → s.data = some m → (FieldValue.map m).Stored) →
      Suits .document (.document postedNs error result)
  | documents {postedNs error result} :
      (∀ docs, result = some docs → ∀ d ∈ docs, d.Stored) →
      Suits .documents (.documents postedNs error result)
  | count {postedNs error result} : Suits .count (.count postedNs error result)
  | value {postedNs error result} : Suits .value (.value postedNs error result)

section Kinds

variable {sdk : SdkCalls} {ready : Bool} {request : FsRequest}

theorem taken_ok {takes : Bool} {r : FsRequest} (h : taken takes r = .ok request) : request = r := by
  unfold taken at h
  split at h
  · cases h
    rfl
  · cases h

theorem ofDocument_ok {docPath : Option Bytes} {r : Bytes → FsRequest}
    (h : ofDocument sdk ready docPath r = .ok request) : ∃ path, request = r path := by
  unfold ofDocument at h
  split at h
  · cases h
  · split at h
    · cases h
    · next path => exact ⟨path, taken_ok h⟩

theorem ofQuery_ok {path spec : Bytes} {next : Query → Except Exit FsRequest}
    (h : ofQuery sdk path spec next = .ok request) : ∃ query, next query = .ok request := by
  unfold ofQuery at h
  split at h
  · cases h
  · split at h
    · next query _ => exact ⟨query, h⟩
    · cases h
    · cases h

theorem ofCollection_ok {collectionPath : Option Bytes} {spec : Bytes} {takes : Query → Bool}
    {r : Query → FsRequest}
    (h : ofCollection sdk ready collectionPath spec (fun query => taken (takes query) (r query)) =
      .ok request) : ∃ query, request = r query := by
  unfold ofCollection at h
  split at h
  · cases h
  · split at h
    · cases h
    · obtain ⟨query, hquery⟩ := ofQuery_ok h
      exact ⟨query, taken_ok hquery⟩

theorem ofField_ok {collectionPath : Option Bytes} {spec : Bytes} {field : Option Bytes}
    {takes : Query → Bytes → Bool} {r : Query → Bytes → FsRequest}
    (h : ofField sdk ready collectionPath spec field takes r = .ok request) :
    ∃ query field, request = r query field := by
  unfold ofField at h
  split at h
  · cases h
  · split at h
    · obtain ⟨query, hquery⟩ := ofQuery_ok h
      split at hquery
      · cases hquery
        exact ⟨query, _, rfl⟩
      · cases hquery
    · cases h

theorem ofData_ok {docPath cbor : Option Bytes} {merge : Bool}
    (h : ofData sdk ready docPath cbor merge = .ok request) :
    ∃ path data, request = .set path data merge := by
  unfold ofData at h
  split at h
  · cases h
  · split at h
    · next path cbor =>
      split at h
      · next data _ => exact ⟨path, data, taken_ok h⟩
      · cases h
      · cases h
    · cases h

theorem ofBatch_ok {writes : Bytes} (h : ofBatch sdk ready writes = .ok request) :
    ∃ batch, request = .commit batch := by
  unfold ofBatch at h
  split at h
  · cases h
  · split at h
    · next batch _ =>
      cases h
      exact ⟨batch, rfl⟩
    · cases h
    · cases h

/-- A call asks for what it is named after. -/
theorem request_kind {c : NativeCall} (h : c.request sdk ready = .ok request) :
    request.kind = c.kind := by
  cases c with
  | set docPath cbor merge =>
    obtain ⟨path, data, rfl⟩ := ofData_ok h
    rfl
  | delete docPath =>
    obtain ⟨path, rfl⟩ := ofDocument_ok h
    rfl
  | get docPath =>
    obtain ⟨path, rfl⟩ := ofDocument_ok h
    rfl
  | query collectionPath spec =>
    obtain ⟨query, rfl⟩ := ofCollection_ok h
    rfl
  | count collectionPath spec =>
    obtain ⟨query, rfl⟩ := ofCollection_ok h
    rfl
  | sum collectionPath spec field =>
    obtain ⟨query, field, rfl⟩ := ofField_ok h
    rfl
  | average collectionPath spec field =>
    obtain ⟨query, field, rfl⟩ := ofField_ok h
    rfl
  | batchCommit writes =>
    obtain ⟨batch, rfl⟩ := ofBatch_ok h
    rfl

theorem invoke_kind {package : CborPackage} {op : FsOperation} {c : NativeCall}
    (h : op.invoke package = .ok (some c)) : c.kind = op.kind := by
  cases op with
  | setDocument path data merge =>
    obtain ⟨value, -, h⟩ := bind_ok h
    cases h
    rfl
  | deleteDocument path =>
    cases h
    rfl
  | getDocument path =>
    cases h
    rfl
  | queryCollection collectionPath rows cursors =>
    obtain ⟨spec, -, h⟩ := bind_ok h
    cases h
    rfl
  | countCollection collectionPath rows =>
    obtain ⟨spec, -, h⟩ := bind_ok h
    cases h
    rfl
  | sumCollection collectionPath field rows =>
    obtain ⟨spec, -, h⟩ := bind_ok h
    cases h
    rfl
  | averageCollection collectionPath field rows =>
    obtain ⟨spec, -, h⟩ := bind_ok h
    cases h
    rfl
  | commit writes =>
    obtain ⟨buffer, -, h⟩ := bind_ok h
    cases buffer with
    | none => cases h
    | some bytes =>
      cases h
      rfl

end Kinds

section Answers

/-- What a future has, if it has not failed. -/
def obtained {α : Type} (error : Int64) (result : Option α) : Option α :=
  if error = 0 then result else none

/-- What an operation that reads fails with. -/
def FsOperation.failure : FsOperation → Reply
  | .getDocument path => .error (-1) (ascii "read failed") (ascii "get " ++ path)
  | .queryCollection collectionPath .. =>
    .error (-1) (ascii "query failed") (ascii "query " ++ collectionPath)
  | .countCollection collectionPath _ =>
    .error (-1) (ascii "count failed") (ascii "count " ++ collectionPath)
  | .sumCollection collectionPath field _ =>
    .error (-1) (ascii "sum failed") (ascii "sum " ++ collectionPath ++ ascii "." ++ field)
  | .averageCollection collectionPath field _ =>
    .error (-1) (ascii "average failed") (ascii "average " ++ collectionPath ++ ascii "." ++ field)
  | op => .error (-1) [] op.what

/-- A document that is there, or null. One that is too long cannot be encoded. -/
def documentReply (operation : Bytes) : Option MapFieldValue → Reply
  | none => .value .null
  | some m =>
    if (documentBytes m).length ≤ largestBuffer then .value (toDart (.map m))
    else .error (-2) (ascii "the document exists but could not be encoded") operation

instance decidableResultFits (docs : List DocumentSnapshot) :
    ∀ attempts size, Decidable (ResultFits docs attempts size)
  | 0, _ => isTrue trivial
  | attempts + 1, size =>
    have := decidableResultFits docs attempts (2 * layoutSize size docs)
    inferInstanceAs (Decidable (if layoutSize size docs ≤ size then resultSize docs ≤ size
      else ResultFits docs attempts (2 * layoutSize size docs)))

/-- A result that is complete. Of one that was cut short nothing is told. -/
def resultReply (operation : Bytes) (docs : List DocumentSnapshot) : Option Reply :=
  match serializeQueryResult docs with
  | none => some (.error (-2) (ascii "the result could not be encoded") operation)
  | some _ =>
    if ResultFits docs 12 4096 then some (.documents (docs.map DocumentSnapshot.shown)) else none

/-- What an operation is to be answered with when the SDK has completed it. A text
that is not UTF-8 does not come through. -/
def FsOperation.answer (op : FsOperation) : FsCompletion → Option FsOutcome
  | .finished f =>
    if validUtf8 f.text then
      some (if f.error = 0 then .completed else .reply (.error f.error f.text op.what))
    else none
  | .document _ error result =>
    some (.reply (if error = 0 then documentReply op.what (result.bind Snapshot.data)
      else op.failure))
  | .documents _ error result =>
    ((obtained error result).elim (some op.failure) (resultReply op.what)).map .reply
  | .count _ error result =>
    some (.reply ((obtained error result).elim op.failure fun n => .value (.int n)))
  | .value _ error result =>
    some (.reply ((obtained error result).elim op.failure fun d => .value (.double d)))

variable {package : CborPackage}

theorem answered_seq : ¬ (1 : Int64) < 0 := by decide

theorem getDocument_answer (h : DecodesDocuments package) (path : Bytes) (postedNs error : Int64)
    {result : Option Snapshot}
    (hstored : ∀ s m, result = some s → s.data = some m → (FieldValue.map m).Stored) :
    Calls.getDocument package path (postDocument postedNs (Callback.fdbFsGet error result).seq
      (Callback.fdbFsGet error result).payload) =
      .ok (if error = 0 then documentReply (ascii "get " ++ path) (result.bind Snapshot.data)
        else (FsOperation.getDocument path).failure) := by
  by_cases herror : error = 0
  · rw [if_pos herror]
    cases hdata : result.bind Snapshot.data with
    | none =>
      have hpost : Callback.fdbFsGet error result = ⟨1, []⟩ := by
        rw [Callback.fdbFsGet, if_neg (not_not.mpr herror), hdata]
      rw [hpost, Calls.getDocument, seqOf_postDocument, ok_bind, if_neg answered_seq,
        decodeDocument_missing]
      rfl
    | some m =>
      obtain ⟨snap, rfl, hm⟩ := Option.bind_eq_some_iff.mp hdata
      have hsized := snap.sized m hm
      rw [documentReply]
      split
      · next hfits =>
        have hpost : Callback.fdbFsGet error (some snap) = ⟨1, documentBytes m⟩ := by
          simp only [Callback.fdbFsGet, if_neg (not_not.mpr herror), hdata,
            serializeDocument_eq hsized, if_pos hfits]
        rw [hpost, Calls.getDocument, seqOf_postDocument, ok_bind, if_neg answered_seq,
          decodeDocument_post h _ _ hsized (hstored snap m rfl hm)]
        rfl
      · next hlong =>
        have hpost : Callback.fdbFsGet error (some snap) = ⟨-2, []⟩ := by
          simp only [Callback.fdbFsGet, if_neg (not_not.mpr herror), hdata,
            serializeDocument_eq hsized, if_neg hlong]
        rw [hpost, Calls.getDocument, seqOf_postDocument, ok_bind, if_pos (by decide), if_pos rfl]
  · have hpost : Callback.fdbFsGet error result = ⟨-1, []⟩ := by
      rw [Callback.fdbFsGet, if_pos herror]
    rw [hpost, if_neg herror, Calls.getDocument, seqOf_postDocument, ok_bind, if_pos (by decide),
      if_neg (by decide)]
    rfl

theorem serialized_layout {docs : List DocumentSnapshot} {attempts size : Nat} {payload : Bytes}
    (h : serializeQueryResultLoop docs attempts size = some payload) :
    ∃ size, payload = layout size docs := by
  induction attempts generalizing size with
  | zero => cases h
  | succ attempts ih =>
    rw [serializeQueryResultLoop_succ] at h
    split at h
    · exact ⟨size, (Option.some.inj h).symm⟩
    · exact ih h

/-- A result is decoded when it is complete, and only then. -/
theorem decodeQueryResult_iff (h : DecodesDocuments package) (postedNs seq : Int64)
    {docs : List DocumentSnapshot} (hdocs : ∀ d ∈ docs, d.Stored) {payload : Bytes}
    (hpayload : serializeQueryResult docs = some payload) :
    (ResultFits docs 12 4096 → Calls.decodeQueryResult package (postDocument postedNs seq payload) =
      .ok (docs.map DocumentSnapshot.shown)) ∧
    (¬ ResultFits docs 12 4096 →
      ∃ e, Calls.decodeQueryResult package (postDocument postedNs seq payload) = .error e) := by
  have hcomplete := serializeQueryResultLoop_complete docs 12 4096
  constructor
  · intro hfits
    rw [hcomplete.mpr hfits payload hpayload]
    exact decodeQueryResult_post h postedNs seq hdocs
  · intro hno
    have hne : payload ≠ (resultItem docs).bytes := by
      intro hsame
      refine hno (hcomplete.mp fun out hout => ?_)
      rw [← hsame]
      exact Option.some.inj (hout.symm.trans hpayload)
    obtain ⟨size, rfl⟩ := serialized_layout hpayload
    have hlength : (layout size docs).length ≠ 0 := by simp [layout]
    have hdecode : ∃ e, package.decode (layout size docs) = .error e := by
      cases hdecode : package.decode (layout size docs) with
      | error e => exact ⟨e, rfl⟩
      | ok c =>
        obtain ⟨x, hx, hbytes⟩ := h.whole _ _ hdecode
        exact absurd (layout_whole hx hbytes) hne
    obtain ⟨e, he⟩ := hdecode
    refine ⟨e, ?_⟩
    rw [Calls.decodeQueryResult, postDocument_length, if_neg (by omega), postDocument_drop, he]
    rfl

theorem queryCollection_answer (h : DecodesDocuments package) (collectionPath : Bytes) (rows : Rows)
    (cursors : Cursors) (postedNs error : Int64) {result : Option (List DocumentSnapshot)}
    (hstored : ∀ docs, result = some docs → ∀ d ∈ docs, d.Stored) :
    (Calls.queryCollection package collectionPath (postDocument postedNs
      (Callback.fdbFsQuery error result).seq (Callback.fdbFsQuery error result).payload)).toOption =
      (obtained error result).elim
        (some (FsOperation.queryCollection collectionPath rows cursors).failure)
        (resultReply (ascii "query " ++ collectionPath)) := by
  by_cases herror : error = 0
  · rw [obtained, if_pos herror]
    cases result with
    | none =>
      have hpost : Callback.fdbFsQuery error none = ⟨-1, []⟩ := by
        rw [Callback.fdbFsQuery, if_neg (not_not.mpr herror)]
      rw [hpost, Calls.queryCollection, seqOf_postDocument, ok_bind, if_pos (by decide),
        if_neg (by decide)]
      rfl
    | some docs =>
      rw [Option.elim_some, resultReply]
      cases hpayload : serializeQueryResult docs with
      | none =>
        have hpost : Callback.fdbFsQuery error (some docs) = ⟨-2, []⟩ := by
          simp only [Callback.fdbFsQuery, if_neg (not_not.mpr herror), hpayload]
        rw [hpost, Calls.queryCollection, seqOf_postDocument, ok_bind, if_pos (by decide),
          if_pos rfl]
        rfl
      | some payload =>
        have hpost : Callback.fdbFsQuery error (some docs) = ⟨1, payload⟩ := by
          simp only [Callback.fdbFsQuery, if_neg (not_not.mpr herror), hpayload]
        obtain ⟨hfits, hno⟩ :=
          decodeQueryResult_iff h postedNs 1 (hstored docs rfl) hpayload
        rw [hpost, Calls.queryCollection, seqOf_postDocument, ok_bind, if_neg answered_seq]
        by_cases hfit : ResultFits docs 12 4096
        · rw [hfits hfit, if_pos hfit]
          rfl
        · obtain ⟨e, he⟩ := hno hfit
          rw [he, if_neg hfit]
          rfl
  · have hpost : Callback.fdbFsQuery error result = ⟨-1, []⟩ := by
      unfold Callback.fdbFsQuery
      rw [if_pos herror]
    rw [hpost, obtained, if_neg herror, Calls.queryCollection, seqOf_postDocument, ok_bind,
      if_pos (by decide), if_neg (by decide)]
    rfl

/-- A number is decoded as it was measured. -/
theorem decodeSnapshotValue_item (h : package.Reads) (postedNs seq : Int64) {x : Item} {o : Object}
    (hx : x.WF) (hreadable : Readable x) (hshows : Shows (cborDecode x) o)
    (hlength : x.bytes.length < 2 ^ 32) :
    decodeSnapshotValue package (postDocument postedNs seq x.bytes) = .ok o := by
  have hne : x.bytes ≠ [] := List.length_pos_iff.mp hx.length_pos
  have hback : ReadBack (postSnapshot postedNs seq x.bytes []) postedNs seq x.bytes [] :=
    postSnapshot_readBack postedNs seq (.inr rfl) hlength (by decide)
  rw [← postSnapshot_empty, hback.decodesValue, if_neg hne, decodedValue,
    h.reads x o hx hreadable hshows]

theorem aggregate_posted {α : Type} (encode : α → CborEncoder → Option CborError × CborEncoder)
    (error : Int64) (result : Option α) :
    Callback.aggregate encode error result =
      (obtained error result).elim ⟨-1, []⟩ fun a => ⟨1, measured (encode a)⟩ := by
  unfold Callback.aggregate obtained
  by_cases herror : error = 0
  · rw [if_neg (not_not.mpr herror), if_pos herror]
    cases result <;> rfl
  · rw [if_pos herror, if_neg herror]
    rfl

theorem head_short (m : Nat) (w : Width) (n : Nat) : (head m w n).length < 2 ^ 32 := by
  rw [head_length]
  cases w <;> decide

theorem countCollection_answer (h : package.Reads) (collectionPath : Bytes) (rows : Rows)
    (postedNs error : Int64) (result : Option Int64) :
    Calls.countCollection package collectionPath (postDocument postedNs
      (Callback.fdbFsCount error result).seq (Callback.fdbFsCount error result).payload) =
      .ok ((obtained error result).elim (FsOperation.countCollection collectionPath rows).failure
        fun n => .value (.int n)) := by
  rw [Callback.fdbFsCount, aggregate_posted]
  cases obtained error result with
  | none =>
    rw [Option.elim_none, Calls.countCollection, seqOf_postDocument, ok_bind, if_pos (by decide)]
    rfl
  | some n =>
    have hitem : Readable (intItem n) ∧ (intItem n).bytes.length < 2 ^ 32 := by
      unfold intItem
      split
      · exact ⟨.int, head_short _ _ _⟩
      · exact ⟨.int, head_short _ _ _⟩
    have hshows : Shows (cborDecode (intItem n)) (.int n) := by
      rw [intItem_value]
      exact .int
    rw [Option.elim_some, Calls.countCollection, seqOf_postDocument, ok_bind,
      if_neg answered_seq, (measures_int n).measured,
      decodeSnapshotValue_item h _ _ (intItem_wf n) hitem.1 hshows hitem.2]
    rfl

theorem aggregateCollection_answer (h : package.Reads) (what collectionPath field : Bytes)
    (postedNs error : Int64) (result : Option UInt64) :
    aggregateCollection package what collectionPath field (postDocument postedNs
      (Callback.aggregateOne error result).seq (Callback.aggregateOne error result).payload) =
      .ok ((obtained error result).elim (.error (-1) (what ++ ascii " failed")
        (what ++ ascii " " ++ collectionPath ++ ascii "." ++ field)) fun d => .value (.double d)) := by
  rw [Callback.aggregateOne, aggregate_posted]
  cases obtained error result with
  | none =>
    rw [Option.elim_none, aggregateCollection, seqOf_postDocument, ok_bind, if_pos (by decide)]
    rfl
  | some d =>
    have hshows : Shows (cborDecode (doubleItem d)) (.double d) := by
      rw [doubleItem_value]
      exact .float
    rw [Option.elim_some, aggregateCollection, seqOf_postDocument, ok_bind,
      if_neg answered_seq, (measures_double d).measured,
      decodeSnapshotValue_item h _ _ (doubleItem_wf d) .double hshows (head_short _ _ _)]
    rfl

theorem awaited (op : FsOperation) (f : Finished) :
    f.post.map (awaitOutcome op.what) = op.answer (.finished f) := by
  rw [FsOperation.answer]
  cases hpost : f.post with
  | none =>
    rw [Finished.post_none.mp hpost]
    rfl
  | some m =>
    have htext : validUtf8 f.text = true := by
      by_contra hno
      rw [f.post_none.mpr (Bool.eq_false_iff.mpr hno)] at hpost
      cases hpost
    obtain ⟨hok, hcode, hmessage⟩ := f.post_eq hpost
    rw [Option.map_some, if_pos htext, awaitOutcome, hok, hcode, hmessage]
    by_cases herror : f.error = 0 <;> simp [herror]

/-- The handler of a call that is answered with a buffer. -/
theorem handle_buffer (op : FsOperation) (bytes : Bytes) :
    op.handle package (.buffer bytes) = (op.reply package bytes).toOption.map .reply := by
  cases op with
  | setDocument | deleteDocument | commit => rfl
  | getDocument path =>
    simp only [FsOperation.handle]
    cases (FsOperation.getDocument path).reply package bytes <;> rfl
  | queryCollection collectionPath rows cursors =>
    simp only [FsOperation.handle]
    cases (FsOperation.queryCollection collectionPath rows cursors).reply package bytes <;> rfl
  | countCollection collectionPath rows =>
    simp only [FsOperation.handle]
    cases (FsOperation.countCollection collectionPath rows).reply package bytes <;> rfl
  | sumCollection collectionPath field rows =>
    simp only [FsOperation.handle]
    cases (FsOperation.sumCollection collectionPath field rows).reply package bytes <;> rfl
  | averageCollection collectionPath field rows =>
    simp only [FsOperation.handle]
    cases (FsOperation.averageCollection collectionPath field rows).reply package bytes <;> rfl

/-- Whoever handles what is posted for a request of its kind gives its answer. -/
theorem handled_answer (hreads : package.Reads) (hdecodes : DecodesDocuments package)
    {op : FsOperation} {request : FsRequest} {f : FsCompletion} (hkind : request.kind = op.kind)
    (hsuits : request.kind.Suits f) :
    (request.post f).bind (op.handle package) = op.answer f := by
  have hwrite : ∀ {g}, op.kind = .outcome → f = .finished g →
      (request.post f).bind (op.handle package) = g.post.map (awaitOutcome op.what) := by
    rintro g houtcome rfl
    rw [houtcome] at hkind
    cases request <;> cases hkind
    all_goals
      cases op <;> cases houtcome
      all_goals cases hpost : g.post <;> simp [FsRequest.post, FsOperation.handle, hpost]
  have hread : ∀ {postedNs : Int64} {posted : Posted} {reply : Option Reply},
      request.post f = some (posted.message postedNs) →
      (op.reply package (postDocument postedNs posted.seq posted.payload)).toOption = reply →
      (request.post f).bind (op.handle package) = reply.map .reply := by
    rintro postedNs posted reply hpost rfl
    rw [hpost]
    exact handle_buffer op _
  rw [hkind] at hsuits
  cases op with
  | setDocument path data merge =>
    cases hsuits
    rw [hwrite rfl rfl, awaited]
  | deleteDocument path =>
    cases hsuits
    rw [hwrite rfl rfl, awaited]
  | commit writes =>
    cases hsuits
    rw [hwrite rfl rfl, awaited]
  | getDocument path =>
    cases hsuits with
    | document hstored =>
      cases request <;> cases hkind
      exact hread rfl (congrArg Except.toOption (getDocument_answer hdecodes path _ _ hstored))
  | queryCollection collectionPath rows cursors =>
    cases hsuits with
    | documents hstored =>
      cases request <;> cases hkind
      exact hread rfl (queryCollection_answer hdecodes collectionPath rows cursors _ _ hstored)
  | countCollection collectionPath rows =>
    cases hsuits
    cases request <;> cases hkind
    exact hread rfl
      (congrArg Except.toOption (countCollection_answer hreads collectionPath rows _ _ _))
  | sumCollection collectionPath field rows =>
    cases hsuits
    cases request <;> cases hkind
    all_goals
      exact hread rfl (congrArg Except.toOption
        (aggregateCollection_answer hreads _ collectionPath field _ _ _))
  | averageCollection collectionPath field rows =>
    cases hsuits
    cases request <;> cases hkind
    all_goals
      exact hread rfl (congrArg Except.toOption
        (aggregateCollection_answer hreads _ collectionPath field _ _ _))

end Answers

/-- The calls of an application, and what the SDK was asked. -/
abbrev Requesting := Exchange FsRequestCall FsRequest FsCompletion FsMessage FsOutcome Int64

section Runs

variable (package : CborPackage) (sdk : SdkCalls)

/-- No exception of the SDK leaves the native side, where it would end the process. -/
def FsRequestCall.Stays (c : FsRequestCall) : Prop :=
  ∀ native, c.operation.invoke package = .ok (some native) →
    native.request sdk c.ready ≠ .error .left

/-- What the operations are there for. -/
def requestService : Service FsRequestCall FsRequest FsCompletion FsOutcome where
  Suits request f := request.kind.Suits f
  Tells c f o := o = c.operation.answer f

/-- Calls that stay, and results of the kind that was asked for. -/
structure Orderly (x : Requesting) (a : ExchangeAction FsRequestCall FsCompletion Int64) : Prop where
  stays : ∀ c port, a = .call c port → c.Stays package sdk
  suits : Exchange.Suited requestService x a

end Runs

section Runs

variable {package : CborPackage} {sdk : SdkCalls} {x : Requesting}

theorem start_kind {c : FsRequestCall} {request : FsRequest}
    (h : c.start package sdk = .ok request) : request.kind = c.operation.kind := by
  unfold FsRequestCall.start at h
  split at h
  · cases h
  · cases h
  · next native hnative =>
    split at h
    · next r hr =>
      cases h
      exact (request_kind hr).trans (invoke_kind hnative)
    · cases h
    · cases h

theorem requests_provide (hreads : package.Reads) (hdecodes : DecodesDocuments package) :
    (requests package sdk).Provides requestService :=
  fun _ _ _ hstart hsuits => handled_answer hreads hdecodes (start_kind hstart) hsuits

/-- In every run each call is asked of the SDK once and is answered with what the SDK
has for it, shown as the database has it, whatever the order of the completions. -/
theorem requests_answered (hreads : package.Reads) (hdecodes : DecodesDocuments package)
    (h : Run (Exchange.step (requests package sdk)) (Orderly package sdk) .start x) :
    x.Answered (requests package sdk) requestService :=
  Exchange.provided (requests_provide hreads hdecodes) (h.weaken fun _ _ hg => hg.suits)

theorem Orderly.call {c : FsRequestCall} (port : Int64) (h : c.Stays package sdk) :
    Orderly package sdk x (.call c port) := by
  refine ⟨?_, ?_⟩
  · intro c' port' hcall
    cases hcall
    exact h
  · intro j f job hcomplete
    cases hcomplete

theorem Orderly.complete {j : Nat} {f : FsCompletion}
    (h : ∀ job, x.jobs[j]? = some job → job.request.kind.Suits f) :
    Orderly package sdk x (.complete j f) := by
  refine ⟨?_, ?_⟩
  · intro c port hcall
    cases hcall
  · intro j' f' job hcomplete hj
    cases hcomplete
    exact h job hj

theorem Orderly.deliver : Orderly package sdk x .deliver := by
  refine ⟨?_, ?_⟩
  · intro c port hcall
    cases hcall
  · intro j f job hcomplete
    cases hcomplete

theorem FsRequestCall.Stays.of_request {c : FsRequestCall} {native : NativeCall}
    {request : FsRequest} (hinvoke : c.operation.invoke package = .ok (some native))
    (hrequest : native.request sdk c.ready = .ok request) : c.Stays package sdk := by
  intro native' hnative
  cases hinvoke.symm.trans hnative
  rw [hrequest]
  simp

/-- A document of one field. -/
def oneField : MapFieldValue := [(ascii "n", .integer 5)]

theorem oneField_sized : (FieldValue.map oneField).Sized := by
  refine .map (by decide) ?_ ?_
  · simp only [oneField, List.forall_mem_cons]
    exact ⟨by decide, by simp⟩
  · simp only [oneField, List.forall_mem_cons]
    exact ⟨.integer, by simp⟩

theorem oneField_stored : (FieldValue.map oneField).Stored := by
  refine .map (by simp [oneField]) ?_ ?_
  · simp only [oneField, List.forall_mem_cons]
    exact ⟨⟨"n", rfl⟩, by simp⟩
  · simp only [oneField, List.forall_mem_cons]
    exact ⟨.integer, by simp⟩

def oneSnapshot : Snapshot where
  data := some oneField
  sized := by
    intro m hm
    cases hm
    exact oneField_sized

def oneDocument : DocumentSnapshot where
  id := ascii "a"
  path := ascii "c/a"
  data := oneField
  id_nul := by decide
  path_nul := by decide
  id_size := by decide
  path_size := by decide
  data_sized := oneField_sized

theorem oneDocument_stored : oneDocument.Stored := ⟨⟨"a", rfl⟩, ⟨"c/a", rfl⟩, oneField_stored⟩

/-- The document alone, and in a result. -/
def documentItems : List Item := [itemOf (.map oneField), resultItem [oneDocument]]

theorem documentItems_wf : ∀ x ∈ documentItems, x.WF := by
  simp only [documentItems, List.forall_mem_cons]
  exact ⟨oneField_sized.item_wf, resultItem_wf _, by simp⟩

def wholeCollection : Rows := ⟨[], [], none, none, false⟩

/-- A document, a collection, a sum that fails, and a delete that fails, which the SDK
completes in another order. -/
def fourCalls : List (ExchangeAction FsRequestCall FsCompletion Int64) :=
  [.call ⟨.getDocument (ascii "c/a"), true⟩ 7, .call ⟨.deleteDocument (ascii "c/b"), true⟩ 8,
    .call ⟨.queryCollection (ascii "c") wholeCollection ⟨none, none, none, none⟩, true⟩ 9,
    .call ⟨.sumCollection (ascii "c") (ascii "n") wholeCollection, true⟩ 10,
    .complete 1 (.finished ⟨7, some (ascii "no")⟩), .deliver,
    .complete 3 (.value 5 2 none), .complete 2 (.documents 6 0 (some [oneDocument])), .deliver,
    .deliver, .complete 0 (.document 9 0 (some oneSnapshot)), .deliver]

theorem fourCalls_answered : ∃ x,
    exec (Exchange.step (requests (knownPackage documentItems) bySegments)) .start fourCalls =
        some x ∧
      x.calls.map Waiter.outcome = [
        some (.reply (.value (.map [(.string (ascii "n"), .int 5)]))),
        some (.reply (.error 7 (ascii "no") (ascii "delete c/b"))),
        some (.reply (.documents [⟨ascii "a", ascii "c/a", [(ascii "n", .int 5)]⟩])),
        some (.reply (.error (-1) (ascii "sum failed") (ascii "sum c.n")))] ∧
      x.Answered (requests (knownPackage documentItems) bySegments) requestService := by
  have hknown : knownPackage documentItems = itemPackage := knownPackage_eq documentItems_wf
  have hexec : exec (Exchange.step (requests (knownPackage documentItems) bySegments)) .start
      fourCalls = some _ := rfl
  refine ⟨_, hexec, rfl, ?_⟩
  refine requests_answered (hknown ▸ itemPackage_reads) (hknown ▸ itemPackage_decodes)
    (Run.of_exec hexec ?_)
  refine Guarded.next (.call 7 (.of_request rfl rfl)) rfl ?_
  refine Guarded.next (.call 8 (.of_request rfl rfl)) rfl ?_
  refine Guarded.next (.call 9 (.of_request rfl rfl)) rfl ?_
  refine Guarded.next (.call 10 (.of_request rfl rfl)) rfl ?_
  refine Guarded.next (.complete ?_) rfl (Guarded.next .deliver rfl ?_)
  · intro job hj
    cases hj
    exact .outcome
  refine Guarded.next (.complete ?_) rfl ?_
  · intro job hj
    cases hj
    exact .value
  refine Guarded.next (.complete ?_) rfl (Guarded.next .deliver rfl (Guarded.next .deliver rfl ?_))
  · intro job hj
    cases hj
    refine .documents ?_
    intro docs hdocs d hd
    cases hdocs
    obtain rfl := List.mem_singleton.mp hd
    exact oneDocument_stored
  refine Guarded.next (.complete ?_) rfl (Guarded.next .deliver rfl trivial)
  intro job hj
  cases hj
  refine .document ?_
  intro snap m hsnap hm
  cases hsnap
  cases hm
  exact oneField_stored

end Runs

end Firestore
