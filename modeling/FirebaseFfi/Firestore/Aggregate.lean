import FirebaseFfi.Firestore.PluginChain

namespace Firestore
open Assoc Cbor Dart

/-- A request of an aggregate query. -/
inductive Aggregate
  | count
  | sum (field : Bytes)
  | average (field : Bytes)

/-- A call of the C ABI: fdb_fs_query, fdb_fs_query_listen, or the one of a request. -/
inductive AbiFunction
  | query
  | queryListen
  | aggregate (request : Aggregate)

/-- What a call is handed. The specification is encoded by `encodeSpec`, whichever
the call. -/
structure AbiCall where
  function : AbiFunction
  collectionPath : Bytes
  spec : List (SpecKey × Object)

structure FfiAggregateQuery where
  query : FfiQuery
  requested : List Aggregate

namespace FfiAggregateQuery

section Requests

variable (q : FfiAggregateQuery)

def extend (extra : Aggregate) : FfiAggregateQuery := { q with requested := q.requested ++ [extra] }

def count : FfiAggregateQuery := q.extend .count
def sum (field : Bytes) : FfiAggregateQuery := q.extend (.sum field)
def average (field : Bytes) : FfiAggregateQuery := q.extend (.average field)

def wanted : List Aggregate := if q.requested.isEmpty then [.count] else q.requested

/-- countCollection, sumCollection and averageCollection. None of them takes a cursor. -/
def abiCall (request : Aggregate) : AbiCall where
  function := .aggregate request
  collectionPath := q.query.collectionPath
  spec := querySpec q.query.whereClauses q.query.orderClauses (q.query.parameters.limits .limit)
    (q.query.parameters.limits .limitToLast) none none none none q.query.isGroup

/-- Each request is awaited before the next one. One that fails is the last. -/
def made : List Aggregate → List Bool → List AbiCall
  | [], _ => []
  | request :: rest, answered =>
    q.abiCall request :: if answered.headD false then made rest answered.tail else []

/-- The calls that get makes. `answered` tells what becomes of the requests. -/
def get (answered : List Bool) : List AbiCall := q.made q.wanted answered

end Requests

end FfiAggregateQuery

/-- What the app does with a query. An aggregate query is made by count, or by
aggregate with its requests, and may get more of them. -/
inductive QueryOperation
  | get
  | snapshots
  | aggregate (requested more : List Aggregate) (answered : List Bool)

section Operations

variable (q : FfiQuery)

def FfiQuery.aggregate (requested : List Aggregate) : FfiAggregateQuery := ⟨q, requested⟩

/-- The calls that an operation makes. Without Firestore it makes none. -/
def FfiQuery.calls (ready : Bool) : QueryOperation → List AbiCall
  | .get => if ready then [⟨.query, q.collectionPath, q.spec⟩] else []
  | .snapshots => if ready then [⟨.queryListen, q.collectionPath, q.spec⟩] else []
  | .aggregate requested more answered =>
    if ready then (more.foldl FfiAggregateQuery.extend (q.aggregate requested)).get answered else []

/-- Every operation hands over what get does. -/
def FfiQuery.SameRows : Prop :=
  ∀ ready op, ∀ call ∈ q.calls ready op, ∀ read ∈ q.calls true .get,
    call.collectionPath = read.collectionPath ∧ call.spec = read.spec

end Operations

section Cursors

variable {q : FfiQuery}

theorem made_eq {a : FfiAggregateQuery} {requests : List Aggregate} {answered : List Bool}
    {call : AbiCall} (h : call ∈ a.made requests answered) : ∃ request, call = a.abiCall request := by
  induction requests generalizing answered with
  | nil => cases h
  | cons request rest ih =>
    rw [FfiAggregateQuery.made] at h
    rcases List.mem_cons.mp h with rfl | h
    · exact ⟨request, rfl⟩
    · split at h
      · exact ih h
      · cases h

theorem get_first (a : FfiAggregateQuery) (answered : List Bool) :
    ∃ request, a.abiCall request ∈ a.get answered := by
  unfold FfiAggregateQuery.get FfiAggregateQuery.wanted
  cases a.requested with
  | nil => exact ⟨.count, List.mem_cons_self⟩
  | cons request rest => exact ⟨request, List.mem_cons_self⟩

theorem extend_query (more : List Aggregate) (a : FfiAggregateQuery) :
    (more.foldl FfiAggregateQuery.extend a).query = a.query := by
  induction more generalizing a with
  | nil => rfl
  | cons request more ih => exact ih (a.extend request)

theorem cursor_none (key : CursorKey) :
    q.cursor key = none ↔ (q.parameters.cursors key).getD [] = [] := by
  unfold FfiQuery.cursor
  split
  · next h =>
    rw [h]
    exact iff_of_true rfl rfl
  · next h =>
    rw [h]
    exact iff_of_true rfl rfl
  · next h =>
    rw [h]
    exact iff_of_false nofun nofun

/-- A cursor's values are an entry of the specification. -/
theorem cursor_spec {key : CursorKey} {vs : List Object} (h : q.cursor key = some vs) :
    (.cursor key, .list vs) ∈ q.spec := by
  unfold FfiQuery.spec querySpec
  cases key with
  | startAt => simp [h]
  | startAfter => simp [h]
  | endAt => simp [h]
  | endBefore => simp [h]

/-- A specification without cursors has no such entry. -/
theorem uncut_spec {a : FfiAggregateQuery} {request : Aggregate} {key : CursorKey} {o : Object} :
    (.cursor key, o) ∉ (a.abiCall request).spec := by
  simp [FfiAggregateQuery.abiCall, querySpec]

theorem uncut_same (h : ∀ key, q.cursor key = none) {a : FfiAggregateQuery} (ha : a.query = q)
    (request : Aggregate) : (a.abiCall request).spec = q.spec := by
  rw [FfiAggregateQuery.abiCall, FfiQuery.spec, ha, h, h, h, h]

/-- The operations agree on the rows of a query without cursors, and on no other's. -/
theorem sameRows_iff : q.SameRows ↔ ∀ key, q.cursor key = none := by
  constructor
  · intro h key
    obtain ⟨request, hmem⟩ := get_first (q.aggregate []) []
    have hsame : ((q.aggregate []).abiCall request).spec = q.spec :=
      (h true (.aggregate [] [] []) _ hmem _ List.mem_cons_self).2
    cases hcursor : q.cursor key with
    | none => rfl
    | some vs =>
      have hentry := cursor_spec hcursor
      rw [← hsame] at hentry
      exact absurd hentry uncut_spec
  · intro h ready op call hcall read hread
    obtain rfl := List.mem_singleton.mp hread
    cases ready with
    | false => cases op <;> cases hcall
    | true =>
      cases op with
      | get =>
        obtain rfl := List.mem_singleton.mp hcall
        exact ⟨rfl, rfl⟩
      | snapshots =>
        obtain rfl := List.mem_singleton.mp hcall
        exact ⟨rfl, rfl⟩
      | aggregate requested more answered =>
        obtain ⟨request, rfl⟩ := made_eq hcall
        have hquery := extend_query more (q.aggregate requested)
        exact ⟨congrArg FfiQuery.collectionPath hquery, uncut_same h hquery request⟩

end Cursors

/-- What a chain's operations hand over is of the same rows exactly when the last
values that each kind of cursor was called with are none. -/
theorem chain_sameRows (path : Bytes) (isGroup : Bool) (calls : List PluginCall) :
    (FfiQuery.chain path isGroup calls).SameRows ↔
      ∀ key, (lastOf (under (PluginCall.cursorCall key.isStart) key) calls).getD [] = [] := by
  rw [sameRows_iff]
  apply forall_congr'
  intro key
  rw [cursor_none, chain_cursors]

/-- A page of a collection. -/
def paged : List PluginCall := [.orderBy [⟨.other (ascii "n"), false⟩], .cursor .startAfter [.int 3]]

/-- Its count is that of the whole collection. -/
theorem paged_apart : ¬ (FfiQuery.chain (ascii "c") false paged).SameRows := by
  rw [sameRows_iff]
  intro h
  cases h .startAfter

end Firestore
