import FirebaseFfi.Firestore.EntryPoints

namespace Firestore
open Cbor Machine
open Dart (ascii)

/-- After a call of the SDK that threw there is a negative code, and what threw
stays inside. -/
def Exit.Safe : Exit → Prop
  | .returned threw code => threw = true → code < 0
  | .left => False

section Taken

variable (sdk : SdkCalls)

/-- A decoder comes to ask for the document of a path: it throws where that is the
one path the SDK does not take. -/
def AsksFor {α : Type} (run : Document → Except Failure α) (path : Bytes) : Prop :=
  run (fun p => p ≠ path) = .error .threw

/-- The SDK takes every path of a document that the body comes to. -/
def TakesBody (cbor : Bytes) : Prop :=
  ∀ path, AsksFor (fun document => parseDocumentCbor document cbor) path → sdk.document path = true

def TakesWrites (writes : Bytes) : Prop :=
  ∀ path, AsksFor (fun document => (applyWrites document writes).2) path → sdk.document path = true

/-- The SDK takes the placeholder, and the query that the spec comes to can be
passed on. -/
def TakesQuery (path spec : Bytes) (passes : Query → Bool) : Prop :=
  sdk.base false (ascii "_") = true ∧
    ∀ query, buildQuery sdk.toSdk path spec = .ok query → passes query = true

/-- The SDK takes whatever an entry point gives it without a handler. -/
def FsCall.Taken : FsCall → Prop
  | .set (some path) (some cbor) => TakesBody sdk cbor ∧
      ((∃ data, parseDocumentCbor (fun _ => true) cbor = .ok data) → sdk.document path = true)
  | .query (some path) spec => TakesQuery sdk path spec sdk.get
  | .queryListen (some path) spec => TakesQuery sdk path spec sdk.addSnapshotListener
  | .count (some path) spec => TakesQuery sdk path spec sdk.count
  | .sum (some path) spec (some (_ :: _)) | .average (some path) spec (some (_ :: _)) =>
    TakesQuery sdk path spec fun _ => true
  | .batchCommit writes => TakesWrites sdk writes
  | .delete (some path) | .get (some path) => sdk.document path = true
  | .listen (some path) => sdk.document path = true ∧ sdk.documentListener path = true
  | _ => True

/-- No call of the SDK throws that has no handler around it. -/
def Allowed (s : Library) : FsAction → Prop
  | .call c => s.ready = true → c.Taken sdk
  | .txn (.thread i .answer) => ∀ path reply, lambdaOf s.table i = some (.reading path reply) →
      sdk.document path = true ∧ sdk.transactionGet path = true
  | .apply i => ∀ writes, lambdaOf s.table i = some (.applying writes) → TakesWrites sdk writes
  | .txn _ => True

end Taken

section Calls

variable {sdk : SdkCalls}

theorem safe_code (code : Int64) : (Exit.returned false code).Safe := by
  intro h
  cases h

theorem unhandled_safe {takes : Bool} {next : Exit} (hnext : next.Safe) :
    (unhandled takes next).Safe ↔ takes = true := by
  cases takes with
  | true => exact iff_of_true hnext rfl
  | false => exact iff_of_false id Bool.false_ne_true

/-- What a handler catches becomes -4. -/
theorem handled_safe {takes : Bool} {next : Exit} (hnext : next.Safe) :
    (handled takes next).Safe := by
  cases takes with
  | true => exact hnext
  | false => exact fun _ => by decide

theorem withQuery_safe {path spec : Bytes} {next : Query → Exit} {passes : Query → Bool}
    (hnext : ∀ query, (next query).Safe ↔ passes query = true) :
    (withQuery sdk path spec next).Safe ↔ TakesQuery sdk path spec passes := by
  unfold withQuery TakesQuery
  cases sdk.base false (ascii "_") with
  | false => exact iff_of_false id fun h => Bool.false_ne_true h.1
  | true =>
    rw [unhandled, if_pos rfl, eq_self, true_and]
    cases buildQuery sdk.toSdk path spec with
    | ok query =>
      refine (hnext query).trans ⟨?_, fun h => h query rfl⟩
      intro hpasses q hq
      cases hq
      exact hpasses
    | error e =>
      refine iff_of_true ?_ fun _ h => (by cases h)
      cases e with
      | threw => exact fun _ => by decide
      | refused => exact safe_code _
      | outOfFuel => exact safe_code _

theorem aggregateOne_safe {path spec field : Bytes} {c : UInt8} {average : Bool} :
    (aggregateOne sdk true (some path) spec (some (c :: field)) average).Safe ↔
      TakesQuery sdk path spec fun _ => true :=
  withQuery_safe fun _ => iff_of_true (handled_safe (safe_code 0)) rfl

/-- Of the runs that only ask the SDK for documents, those that it denies one
throw. -/
theorem threw_iff {α : Type} {run : Document → Except Failure α} (h : Consults run) :
    run sdk.document ≠ .error .threw ↔ ∀ path, AsksFor run path → sdk.document path = true := by
  rw [Ne, h.denied]
  constructor
  · intro hno path hasks
    by_contra hdenied
    exact hno ⟨path, Bool.eq_false_iff.mpr hdenied, hasks⟩
  · intro hall hex
    obtain ⟨path, hdenied, hasks⟩ := hex
    rw [hall path hasks] at hdenied
    cases hdenied

theorem fdbFsSet_safe {path cbor : Bytes} :
    (fdbFsSet sdk true (some path) (some cbor)).Safe ↔ TakesBody sdk cbor ∧
      ((∃ data, parseDocumentCbor (fun _ => true) cbor = .ok data) → sdk.document path = true) := by
  have hconsults := parseDocumentCbor_consults cbor
  by_cases hthrew : parseDocumentCbor sdk.document cbor = .error .threw
  · refine iff_of_false ?_ fun h => (threw_iff hconsults).mpr h.1 hthrew
    simp only [fdbFsSet, hthrew]
    exact id
  · refine Iff.trans ?_ (and_iff_right ((threw_iff hconsults).mp hthrew)).symm
    rw [← hconsults.agrees hthrew]
    cases hparse : parseDocumentCbor sdk.document cbor with
    | ok data =>
      simp only [fdbFsSet, hparse]
      refine (unhandled_safe (safe_code 0)).trans ⟨fun h _ => h, fun h => h ⟨data, rfl⟩⟩
    | error e =>
      refine iff_of_true ?_ fun hex => ?_
      · simp only [fdbFsSet, hparse]
        cases e with
        | threw => exact absurd hparse hthrew
        | refused => exact safe_code _
        | outOfFuel => exact safe_code _
      · obtain ⟨data, hdata⟩ := hex
        cases hdata

theorem batchCommit_safe {writes : Bytes} :
    (exitOf (fdbFsBatchCommit true sdk.document writes).code).Safe ↔ TakesWrites sdk writes := by
  have hends := applyWrites_ends sdk.document writes
  refine Iff.trans ?_ (threw_iff (applyWrites_consults writes))
  unfold fdbFsBatchCommit
  cases happly : applyWrites sdk.document writes with
  | mk batch result =>
    rw [happly] at hends
    cases result with
    | ok u => exact iff_of_true (safe_code 0) fun h => by cases h
    | error e =>
      cases e with
      | threw => exact iff_of_false id fun h => h rfl
      | refused => exact iff_of_true (safe_code _) fun h => by cases h
      | outOfFuel => exact absurd rfl hends

theorem single_safe {exit : Exit} : (∀ e ∈ [exit], e.Safe) ↔ exit.Safe := by
  rw [List.forall_mem_singleton]

theorem txnCall_safe (s : Library) (c : TxnCall) (null : Bool) :
    ∀ e ∈ (txnCall sdk s c null).2, e.Safe := by
  unfold txnCall
  split
  · exact single_safe.mpr (safe_code _)
  · split
    · exact single_safe.mpr (safe_code _)
    · exact single_safe.mpr (safe_code _)

theorem fdbFsInit_safe (ready app instance' success : Bool) :
    (fdbFsInit ready app instance' success).1.Safe := by
  unfold fdbFsInit
  split
  · exact safe_code _
  · split
    · exact safe_code _
    · exact safe_code _

theorem fdbFsUseEmulator_safe (ready : Bool) (host : Option Bytes) (port : Int64) :
    (fdbFsUseEmulator ready host port).Safe := by
  unfold fdbFsUseEmulator
  split
  · exact safe_code _
  · split
    · split
      · exact safe_code _
      · exact safe_code _
    · exact safe_code _

theorem fdbFsUnlisten_safe (s : Library) (id : Int64) : ∀ e ∈ (fdbFsUnlisten s id).2, e.Safe := by
  unfold fdbFsUnlisten
  split
  · exact single_safe.mpr (safe_code _)
  · exact single_safe.mpr (safe_code _)

/-- Before fdb_fs_init nothing comes to the SDK. -/
theorem call_unready {s : Library} (hs : s.ready = false) (c : FsCall) :
    ∀ e ∈ (call sdk s c).2, e.Safe := by
  cases c with
  | useEmulator host port => exact single_safe.mpr (fdbFsUseEmulator_safe _ _ _)
  | init app instance' success => exact single_safe.mpr (fdbFsInit_safe _ _ _ _)
  | txnGet id docPath port => exact txnCall_safe _ _ _
  | txnCommit id writes => exact txnCall_safe _ _ _
  | txnAbort id => exact txnCall_safe _ _ _
  | unlisten id => exact fdbFsUnlisten_safe s id
  | txnBegin =>
    simp only [call, fdbFsTxnBegin, hs]
    exact single_safe.mpr (safe_code _)
  | _ =>
    simp only [call, hs]
    exact single_safe.mpr (safe_code _)

theorem call_safe {s : Library} (hs : s.ready = true) (c : FsCall) :
    (∀ e ∈ (call sdk s c).2, e.Safe) ↔ c.Taken sdk := by
  cases c with
  | set docPath cbor =>
    simp only [call, hs]
    rw [single_safe]
    cases docPath with
    | none => exact iff_of_true (safe_code _) trivial
    | some path =>
      cases cbor with
      | none => exact iff_of_true (safe_code _) trivial
      | some cbor => exact fdbFsSet_safe
  | query collectionPath spec =>
    simp only [call, hs]
    rw [single_safe]
    cases collectionPath with
    | none => exact iff_of_true (safe_code _) trivial
    | some path => exact withQuery_safe fun query => unhandled_safe (safe_code 0)
  | queryListen collectionPath spec =>
    simp only [call, hs]
    rw [single_safe]
    cases collectionPath with
    | none => exact iff_of_true (safe_code _) trivial
    | some path => exact withQuery_safe fun query => unhandled_safe (safe_code _)
  | count collectionPath spec =>
    simp only [call, hs]
    rw [single_safe]
    cases collectionPath with
    | none => exact iff_of_true (safe_code _) trivial
    | some path => exact withQuery_safe fun query => unhandled_safe (safe_code 0)
  | sum collectionPath spec field =>
    simp only [call, hs]
    rw [single_safe]
    rcases collectionPath with _ | path
    · exact iff_of_true (safe_code _) trivial
    · rcases field with _ | _ | ⟨c, field⟩
      · exact iff_of_true (safe_code _) trivial
      · exact iff_of_true (safe_code _) trivial
      · exact aggregateOne_safe
  | average collectionPath spec field =>
    simp only [call, hs]
    rw [single_safe]
    rcases collectionPath with _ | path
    · exact iff_of_true (safe_code _) trivial
    · rcases field with _ | _ | ⟨c, field⟩
      · exact iff_of_true (safe_code _) trivial
      · exact iff_of_true (safe_code _) trivial
      · exact aggregateOne_safe
  | batchCommit writes =>
    simp only [call, hs]
    rw [single_safe]
    exact batchCommit_safe
  | delete docPath =>
    simp only [call, hs]
    rw [single_safe]
    cases docPath with
    | none => exact iff_of_true (safe_code _) trivial
    | some path => exact unhandled_safe (safe_code 0)
  | get docPath =>
    simp only [call, hs]
    rw [single_safe]
    cases docPath with
    | none => exact iff_of_true (safe_code _) trivial
    | some path => exact unhandled_safe (safe_code 0)
  | listen docPath =>
    simp only [call, hs]
    rw [single_safe]
    cases docPath with
    | none => exact iff_of_true (safe_code _) trivial
    | some path =>
      show (unhandled _ _).Safe ↔ _ ∧ _
      cases sdk.document path with
      | false => exact iff_of_false id fun h => Bool.false_ne_true h.1
      | true => exact (unhandled_safe (safe_code _)).trans (and_iff_right rfl).symm
  | useEmulator host port =>
    exact iff_of_true (single_safe.mpr (fdbFsUseEmulator_safe _ _ _)) trivial
  | init app instance' success =>
    exact iff_of_true (single_safe.mpr (fdbFsInit_safe _ _ _ _)) trivial
  | txnBegin =>
    refine iff_of_true ?_ trivial
    simp only [call, fdbFsTxnBegin, hs]
    exact List.forall_mem_nil _
  | txnGet id docPath port => exact iff_of_true (txnCall_safe _ _ _) trivial
  | txnCommit id writes => exact iff_of_true (txnCall_safe _ _ _) trivial
  | txnAbort id => exact iff_of_true (txnCall_safe _ _ _) trivial
  | unlisten id => exact iff_of_true (fdbFsUnlisten_safe s id) trivial

end Calls

section Lambda

variable {document : Bytes → Bool} {n : Native} {r : Native × List Event}

theorem serve_lambda (n : Native) : (serve n).1.lambda ≠ .threw := by
  unfold serve
  split
  · exact fun h => by cases h
  · exact fun h => by cases h
  · exact fun h => by cases h
  · exact fun h => by cases h

/-- The update function throws at a read or in ApplyWrites. -/
theorem step_threw {a : Action} (ha : a.threaded = true) (h : Firestore.step document n a = some r) :
    r.1.lambda = .threw ↔
      (a = .answer ∧ ∃ path reply, n.lambda = .reading path reply ∧ document path = false) ∨
        a = .apply .threw := by
  cases a with
  | call c => cases ha
  | lock i => cases ha
  | finish => cases ha
  | run =>
    simp only [Firestore.step] at h
    split at h
    · cases h
      exact iff_of_false (serve_lambda _) (by simp)
    · cases h
  | wake =>
    simp only [Firestore.step] at h
    split at h
    · split at h
      · cases h
      · cases h
        exact iff_of_false (serve_lambda _) (by simp)
    · cases h
  | relock =>
    simp only [Firestore.step] at h
    split at h
    · cases h
      exact iff_of_false (serve_lambda _) (by simp)
    · cases h
  | answer =>
    simp only [Firestore.step] at h
    split at h
    · next path reply hlambda =>
      split at h
      · next hdoc =>
        cases h
        simp [hlambda, hdoc]
      · next hdoc =>
        cases h
        simp [hlambda, hdoc]
    · cases h
  | apply result =>
    simp only [Firestore.step] at h
    split at h
    · cases h
      simp
    · cases h
      simp
    · cases h
      simp
    · cases h

theorem thread_lambda {t u : TxnTable.Table} {i : Nat} {a : Action}
    (h : TxnTable.step document t (.thread i a) = some u) :
    a.threaded = true ∧ ∃ n r, lambdaOf t i = some n.lambda ∧ Firestore.step document n a = some r ∧
      lambdaOf u i = some r.1.lambda := by
  simp only [TxnTable.step] at h
  split at h
  · next native id returned hb =>
    split at h
    · next ha =>
      obtain ⟨r, hr, hu⟩ := Option.map_eq_some_iff.mp h
      subst hu
      refine ⟨ha, native, r, ?_, hr, ?_⟩
      · rw [lambdaOf, hb]
        rfl
      · have hlt := (List.getElem?_eq_some_iff.mp hb).1
        rw [lambdaOf, List.getElem?_set_self hlt]
        rfl
    · cases h
  · cases h

theorem exits_thread {u : TxnTable.Table} {i : Nat} {a : Action} {lambda : Lambda}
    (h : lambdaOf u i = some lambda) :
    (∀ e ∈ exits u (.thread i a), e.Safe) ↔ lambda ≠ .threw := by
  simp only [exits, h]
  cases lambda with
  | threw => exact iff_of_false (fun h => h .left List.mem_cons_self) fun h => h rfl
  | _ => exact iff_of_true (List.forall_mem_nil _) fun h => by cases h

end Lambda

section Steps

variable {sdk : SdkCalls} {s u : Library} {out : List Exit}

theorem applied_threw {writes : Bytes} :
    applied sdk.document writes = .threw ↔ (applyWrites sdk.document writes).2 = .error .threw := by
  unfold applied
  split
  · next h => simp [h]
  · next h => simp [h]
  · next e hne h =>
    refine iff_of_false (fun h => by cases h) ?_
    intro hthrew
    rw [h] at hthrew
    cases hthrew
    exact hne rfl

theorem follow_thread {i : Nat} {a : Action}
    (h : follow sdk s (.thread i a) = some (u, out)) :
    ∃ lambda, lambdaOf s.table i = some lambda ∧ ((∀ e ∈ out, e.Safe) ↔
      ¬ ((a = .answer ∧ ∃ path reply, lambda = .reading path reply ∧ sdk.reads path = false) ∨
        a = .apply .threw)) := by
  obtain ⟨t, ht, heq⟩ := Option.map_eq_some_iff.mp h
  cases heq
  obtain ⟨ha, n, r, hold, hstep, hnew⟩ := thread_lambda ht
  exact ⟨n.lambda, hold, by rw [exits_thread hnew, Ne, step_threw ha hstep]⟩

theorem answer_allowed {i : Nat} {lambda : Lambda} (hlambda : lambdaOf s.table i = some lambda) :
    ¬ ((Action.answer = .answer ∧ ∃ path reply, lambda = .reading path reply ∧
        sdk.reads path = false) ∨ Action.answer = .apply .threw) ↔
      Allowed sdk s (.txn (.thread i .answer)) := by
  constructor
  · intro hno path reply hat
    rw [hlambda] at hat
    cases hat
    have hreads : sdk.reads path = true := by
      by_contra hdenied
      exact hno (.inl ⟨rfl, path, reply, rfl, Bool.eq_false_iff.mpr hdenied⟩)
    exact Bool.and_eq_true_iff.mp hreads
  · intro hallowed hex
    rcases hex with ⟨-, path, reply, hreading, hdenied⟩ | hex
    · subst hreading
      obtain ⟨hdocument, hget⟩ := hallowed path reply hlambda
      rw [SdkCalls.reads, hdocument, hget] at hdenied
      cases hdenied
    · cases hex

theorem exits_answer (t : TxnTable.Table) (i : Nat) : ∀ e ∈ exits t (.answer i), e.Safe := by
  intro e he
  obtain ⟨id, -, hid⟩ := List.mem_map.mp he
  subst hid
  exact safe_code id

theorem txn_safe {a : TxnTable.Action} (h : s.step sdk (.txn a) = some (u, out)) :
    (∀ e ∈ out, e.Safe) ↔ Allowed sdk s (.txn a) := by
  simp only [Library.step] at h
  split at h
  · next hfollows =>
    cases a with
    | register => cases hfollows
    | call c => cases hfollows
    | thread i a =>
      obtain ⟨lambda, hlambda, hsafe⟩ := follow_thread h
      rw [hsafe]
      cases a with
      | apply result => cases hfollows
      | answer => exact answer_allowed hlambda
      | _ => simp [Allowed]
    | answer i =>
      obtain ⟨t, -, heq⟩ := Option.map_eq_some_iff.mp h
      cases heq
      exact iff_of_true (exits_answer t i) trivial
    | _ =>
      obtain ⟨t, -, heq⟩ := Option.map_eq_some_iff.mp h
      cases heq
      exact iff_of_true (List.forall_mem_nil _) trivial
  · cases h

theorem apply_safe {i : Nat} (h : s.step sdk (.apply i) = some (u, out)) :
    (∀ e ∈ out, e.Safe) ↔ Allowed sdk s (.apply i) := by
  simp only [Library.step] at h
  split at h
  · next writes hlambda =>
    obtain ⟨lambda, hlambda', hsafe⟩ := follow_thread h
    rw [hsafe]
    have hthrew := @threw_iff sdk _ _ (applyWrites_consults writes)
    rw [Ne, ← applied_threw] at hthrew
    constructor
    · intro hno writes' hat
      rw [hlambda] at hat
      cases hat
      exact hthrew.mp fun h => hno (.inr (congrArg Action.apply h))
    · intro hallowed hex
      rcases hex with ⟨h, -⟩ | h
      · cases h
      · exact hthrew.mpr (hallowed writes hlambda) (Action.apply.inj h)
  · cases h

/-- A step lets nothing out exactly when it is allowed. -/
theorem step_safe {a : FsAction} (h : s.step sdk a = some (u, out)) :
    (∀ e ∈ out, e.Safe) ↔ Allowed sdk s a := by
  cases a with
  | txn a => exact txn_safe h
  | apply i => exact apply_safe h
  | call c =>
    obtain rfl : (call sdk s c).2 = out := congrArg Prod.snd (Option.some.inj h)
    cases hs : s.ready with
    | false => exact iff_of_true (call_unready hs c) fun h => by rw [hs] at h; cases h
    | true =>
      rw [call_safe hs]
      exact ⟨fun h _ => h, fun h => h hs⟩

end Steps

/-- What the library returns and lets out in a run from the start. -/
abbrev performed (sdk : SdkCalls) (actions : List FsAction) : Option (Library × List Exit) :=
  exec (observed (Library.step sdk) fun out e => out ++ [e]) (.start, []) actions

/-- Each action of a run is allowed where it is taken. -/
abbrev AllAllowed (sdk : SdkCalls) (actions : List FsAction) : Prop :=
  Guarded (observed (Library.step sdk) fun out e => out ++ [e]) (fun s a => Allowed sdk s.1 a)
    (.start, []) actions

/-- Over a run nothing leaves the library, and each exception becomes a negative
code, exactly when every action of it is allowed. -/
theorem exceptions_kept (sdk : SdkCalls) {actions : List FsAction} {s : Library × List Exit}
    (h : performed sdk actions = some s) : (∀ e ∈ s.2, e.Safe) ↔ AllAllowed sdk actions := by
  rw [exec_events step_safe h]
  exact and_iff_right (List.forall_mem_nil _)

/-- Takes documents and collections by their number of segments. -/
def bySegments : SdkCalls where
  document path := path.count 47 % 2 = 1
  base _ path := path.count 47 % 2 = 0
  takes _ _ := true
  get _ := true
  addSnapshotListener _ := true
  documentListener _ := true
  count _ := true
  sum _ field := !field.contains 47
  average _ field := !field.contains 47
  transactionGet _ := true

/-- A read, and then a sum over a field path that the SDK does not take. -/
def sumOfSlash : List FsAction :=
  [.call (.init true true true), .call (.get (some (ascii "c/d"))),
    .call (.sum (some (ascii "c")) [] (some (ascii "a/b")))]

theorem sumOfSlash_kept :
    ∃ s, performed bySegments sumOfSlash = some s ∧ ∀ e ∈ s.2, e.Safe := by
  have hrun : performed bySegments sumOfSlash = some _ := rfl
  refine ⟨_, hrun, (exceptions_kept bySegments hrun).mpr ?_⟩
  refine Guarded.next (fun _ => trivial) rfl ?_
  refine Guarded.next (fun _ => rfl) rfl ?_
  exact Guarded.next (fun _ => ⟨rfl, fun _ _ => rfl⟩) rfl trivial

/-- A read at a path that is a collection's. -/
def readOfCollection : List FsAction :=
  [.call (.init true true true), .call (.get (some (ascii "c")))]

theorem readOfCollection_leaves :
    ¬ ∀ sdk actions s, performed sdk actions = some s → ∀ e ∈ s.2, e.Safe := by
  intro hall
  have hrun : performed bySegments readOfCollection =
      some ({ Library.start with ready := true }, [.returned false 0, .left]) := rfl
  exact hall _ _ _ hrun .left (by simp)

end Firestore
