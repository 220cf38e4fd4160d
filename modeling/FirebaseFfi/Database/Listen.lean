import FirebaseFfi.Assoc.Emplace
import FirebaseFfi.Database.QueryDelivery
import FirebaseFfi.Machine.Run

namespace Database
open Assoc Cbor Machine
open Firebase (Less)

inductive ListenKind
  | value | child
  deriving DecidableEq

/-- A PortValueListener or a PortChildListener, with the query that it holds. -/
structure Listener where
  kind : ListenKind
  port : Int64
  path : Bytes
  query : Query

/-- A handle that a call has returned, and the listener it was returned for. -/
structure Returned where
  kind : ListenKind
  handle : Int64
  listener : Nat

/-- g_listeners and g_child_listeners with their counters, beside the listeners in
the order they were made, those that the SDK has registered, each on its own
query, and the handles that were returned. A listener is known by its place. -/
structure Listening where
  next : ListenKind → Int64
  table : ListenKind → List (Int64 × Nat)
  created : List Listener
  registered : List (ListenKind × Nat)
  returned : List Returned

def ListenKind.first : ListenKind → Int64
  | .value => 1
  | .child => 1000

def Listening.start : Listening := ⟨ListenKind.first, fun _ => [], [], [], []⟩

/-- Child handles are negative, and start far below the error codes. -/
def ListenKind.handle : ListenKind → Int64 → Int64
  | .value, n => n
  | .child, n => -n

/-- A handle is taken, and the listener registered and kept under it. The counter
has no value after the largest. -/
def Listening.add (s : Listening) (l : Listener) : Option (Listening × Int64) :=
  if s.next l.kind = Int64.maxValue then none
  else
    let handle := l.kind.handle (s.next l.kind)
    some ({
      next := Function.update s.next l.kind (s.next l.kind + 1)
      table := Function.update s.table l.kind
        (emplace (s.table l.kind) handle s.created.length)
      created := s.created ++ [l]
      registered := s.registered ++ [(l.kind, s.created.length)]
      returned := s.returned ++ [⟨l.kind, handle, s.created.length⟩] }, handle)

/-- The query that a spec makes of a reference. -/
def specQuery (less : Less) (spec : Bytes) : Option Query :=
  if spec = [] then some []
  else (parseVariantMap less spec).bind fun parsed => applyQuerySpec parsed []

section EntryPoints

variable (less : Less) (s : Listening)

/-- `database` is what EnsureDatabase comes to. -/
def fdbDbListen (database : Bool) (path : Bytes) (port : Int64) : Option (Listening × Int64) :=
  if !database then some (s, -1) else s.add ⟨.value, port, path, []⟩

/-- The listens that take a spec. -/
def listenOn (kind : ListenKind) (database : Bool) (path : Option Bytes) (spec : Bytes)
    (port : Int64) : Option (Listening × Int64) :=
  if !database then some (s, -1)
  else
    match path with
    | none => some (s, -2)
    | some path =>
      match specQuery less spec with
      | none => some (s, -3)
      | some query => s.add ⟨kind, port, path, query⟩

def fdbDbQueryListen := listenOn less s .value

def fdbDbChildListen := listenOn less s .child

/-- The listener is taken off its query, and then out of the table. -/
def Listening.remove (kind : ListenKind) (handle : Int64) : Listening :=
  match (s.table kind).lookup handle with
  | none => s
  | some l =>
    { s with
      registered := s.registered.erase (kind, l)
      table := Function.update s.table kind (erase (s.table kind) handle) }

def fdbDbUnlisten (handle : Int64) : Listening :=
  if handle < 0 then s.remove .child handle else s.remove .value handle

end EntryPoints

inductive ListenCall
  | listen (database : Bool) (path : Bytes) (port : Int64)
  | queryListen (database : Bool) (path : Option Bytes) (spec : Bytes) (port : Int64)
  | childListen (database : Bool) (path : Option Bytes) (spec : Bytes) (port : Int64)

def ListenCall.run (less : Less) (s : Listening) : ListenCall → Option (Listening × Int64)
  | .listen database path port => fdbDbListen s database path port
  | .queryListen database path spec port => fdbDbQueryListen less s database path spec port
  | .childListen database path spec port => fdbDbChildListen less s database path spec port

inductive ListenAction
  | call (c : ListenCall)
  | unlisten (handle : Int64)

def listenStep (less : Less) (s : Listening) : ListenAction → Option Listening
  | .call c => (c.run less s).map Prod.fst
  | .unlisten handle => some (fdbDbUnlisten s handle)

/-- The tests of `_listenWith`: on the handle that a call returns, and before it is
given back. -/
def listenFailed (handle : Int64) : Bool := -1000 < handle && handle ≤ 0

def listenHeld (handle : Int64) : Bool := 0 < handle || handle ≤ -1000

/-- `onValue` has a test of its own, for the call that is only its. -/
def ListenCall.failed : ListenCall → Int64 → Bool
  | .listen .., handle => handle < 0
  | _, handle => listenFailed handle

/-- The listener that a call asks for. -/
def ListenCall.listener (less : Less) : ListenCall → Option Listener
  | .listen _ path port => some ⟨.value, port, path, []⟩
  | .queryListen _ path spec port =>
    path.bind fun path => (specQuery less spec).map fun query => ⟨.value, port, path, query⟩
  | .childListen _ path spec port =>
    path.bind fun path => (specQuery less spec).map fun query => ⟨.child, port, path, query⟩

/-- A listener is kept under each live handle, and the SDK has these and no other. -/
structure ListenersKept (s : Listening) : Prop where
  distinct : ((s.table .value ++ s.table .child).map Prod.fst).Nodup
  value : ∀ e ∈ s.table .value, 0 < e.1
  child : ∀ e ∈ s.table .child, e.1 ≤ -1000
  once : (s.returned.map Returned.handle).Nodup
  live : ∀ kind e, e ∈ s.table kind → ⟨kind, e.1, e.2⟩ ∈ s.returned
  registered : s.registered.Nodup ∧
    ∀ kind l, (kind, l) ∈ s.registered ↔ ∃ handle, (handle, l) ∈ s.table kind

/-- A new listener, under a handle that was never returned, beside all the others. -/
structure Added (s : Listening) (l : Listener) (handle : Int64) (t : Listening) : Prop where
  fresh : ∀ r ∈ s.returned, r.handle ≠ handle
  own : t.table l.kind = s.table l.kind ++ [(handle, s.created.length)]
  other : ∀ kind, kind ≠ l.kind → t.table kind = s.table kind
  created : t.created = s.created ++ [l]
  registered : t.registered = s.registered ++ [(l.kind, s.created.length)]
  returned : t.returned = s.returned ++ [⟨l.kind, handle, s.created.length⟩]

/-- What a call comes to: the listener it asks for, or an error code and nothing
else. Dart takes the first for a handle, and the second for a failure. -/
def Answers (less : Less) (c : ListenCall) (s : Listening) (handle : Int64) (t : Listening) :
    Prop :=
  (∃ l, c.listener less = some l ∧ Added s l handle t ∧
    c.failed handle = false ∧ listenHeld handle = true) ∨
  ((handle = -1 ∨ handle = -2 ∨ handle = -3) ∧ t = s ∧
    c.failed handle = true ∧ listenHeld handle = false)

/-- The listener that the handle was returned for is taken off, and no other. -/
structure Removed (s : Listening) (handle : Int64) (r : Returned) (t : Listening) : Prop where
  returned : r ∈ s.returned ∧ r.handle = handle
  table : ∀ kind e, e ∈ t.table kind ↔ e ∈ s.table kind ∧ e.1 ≠ handle
  registered : s.registered.Perm ((r.kind, r.listener) :: t.registered)
  created : t.created = s.created
  returns : t.returned = s.returned

/-- A handle that is not live, or is none, removes nothing. -/
def Unlistens (s : Listening) (handle : Int64) (t : Listening) : Prop :=
  (∃ r : Returned, (handle, r.listener) ∈ s.table r.kind ∧ Removed s handle r t) ∨
  ((∀ kind l, (handle, l) ∉ s.table kind) ∧ t = s)

/-- A handle is its kind's, of a number that the counter has passed. -/
def Issued (next : ListenKind → Int64) (r : Returned) : Prop :=
  ∃ n, r.kind.first ≤ n ∧ n < next r.kind ∧ r.handle = r.kind.handle n

structure ListenInv (s : Listening) : Prop where
  first : ∀ kind : ListenKind, kind.first ≤ s.next kind
  issued : ∀ r ∈ s.returned, Issued s.next r ∧ r.listener < s.created.length
  once : (s.returned.map Returned.handle).Nodup
  single : (s.returned.map Returned.listener).Nodup
  keys : ∀ kind, ((s.table kind).map Prod.fst).Nodup
  live : ∀ kind e, e ∈ s.table kind → ⟨kind, e.1, e.2⟩ ∈ s.returned
  nodup : s.registered.Nodup
  registered : ∀ kind l, (kind, l) ∈ s.registered ↔ ∃ handle, (handle, l) ∈ s.table kind

section Handles

variable {kind : ListenKind} {n m : Int64}

theorem handle_inj (h : kind.handle n = kind.handle m) : n = m := by
  cases kind with
  | value => exact h
  | child => exact Int64.neg_inj.mp h

theorem handle_value (h : ListenKind.first .value ≤ n) : 0 < ListenKind.handle .value n :=
  Int64.lt_of_lt_of_le (by decide) h

/-- The opposite of the largest number is still above the smallest. -/
theorem handle_child (h : ListenKind.first .child ≤ n) : ListenKind.handle .child n ≤ -1000 := by
  have hle := n.toInt_le
  rw [Int64.toInt_maxValue] at hle
  change 1000 ≤ n at h
  rw [Int64.le_iff_toInt_le] at h
  change 1000 ≤ n.toInt at h
  show -n ≤ -1000
  rw [Int64.le_iff_toInt_le, Int64.toInt_neg, Int.bmod_eq_of_le (by omega) (by omega)]
  show -n.toInt ≤ -1000
  omega

theorem handle_kind {k : ListenKind} (hn : kind.first ≤ n) (hm : k.first ≤ m)
    (h : kind.handle n = k.handle m) : kind = k := by
  have hapart : ∀ {a b : Int64}, 0 < a → b ≤ -1000 → a ≠ b := by
    intro a b ha hb hab
    rw [hab] at ha
    exact absurd (Int64.lt_of_lt_of_le ha hb) (by decide)
  cases kind with
  | value =>
    cases k with
    | value => rfl
    | child => exact absurd h (hapart (handle_value hn) (handle_child hm))
  | child =>
    cases k with
    | value => exact absurd h.symm (hapart (handle_value hm) (handle_child hn))
    | child => rfl

end Handles

section Steps

variable {less : Less} {s t : Listening} {l : Listener} {handle : Int64}

theorem ListenInv.start : ListenInv .start where
  first kind := Int64.le_refl _
  issued := by
    intro r hr
    cases hr
  once := .nil
  single := .nil
  keys kind := .nil
  live := by
    intro kind e he
    cases he
  nodup := .nil
  registered := by
    intro kind l
    refine iff_of_false (fun h => by cases h) ?_
    rintro ⟨handle, h⟩
    cases h

theorem Issued.succ {kind : ListenKind} {r : Returned} (h : Issued s.next r)
    (hmax : s.next kind ≠ Int64.maxValue) :
    Issued (Function.update s.next kind (s.next kind + 1)) r := by
  obtain ⟨n, hfirst, hlt, hhandle⟩ := h
  refine ⟨n, hfirst, ?_, hhandle⟩
  by_cases hk : r.kind = kind
  · subst hk
    rw [Function.update_self]
    exact Int64.lt_trans hlt (lt_succ hmax)
  · rw [Function.update_of_ne hk]
    exact hlt

/-- The number that a handle is made of is one that no returned handle was made of. -/
theorem ListenInv.unreturned (hs : ListenInv s) (kind : ListenKind) :
    ∀ r ∈ s.returned, r.handle ≠ kind.handle (s.next kind) := by
  intro r hr heq
  obtain ⟨⟨n, hfirst, hlt, hhandle⟩, -⟩ := hs.issued r hr
  rw [hhandle] at heq
  have hkind := handle_kind hfirst (hs.first kind) heq
  subst hkind
  rw [handle_inj heq] at hlt
  exact Int64.lt_irrefl hlt

theorem ListenInv.unkept (hs : ListenInv s) (kind k : ListenKind) :
    ∀ e ∈ s.table k, e.1 ≠ kind.handle (s.next kind) := by
  intro e he
  exact hs.unreturned kind _ (hs.live k e he)

/-- The key of a new listener is never taken, so `emplace` keeps it. -/
theorem ListenInv.added (hs : ListenInv s) (h : s.add l = some (t, handle)) :
    s.next l.kind ≠ Int64.maxValue ∧ handle = l.kind.handle (s.next l.kind) ∧
      t.next = Function.update s.next l.kind (s.next l.kind + 1) ∧ Added s l handle t := by
  unfold Listening.add at h
  split at h
  · cases h
  · next hmax =>
    cases h
    refine ⟨hmax, rfl, rfl, hs.unreturned l.kind, ?_, ?_, rfl, rfl, rfl⟩
    · show Function.update s.table l.kind _ l.kind = _
      rw [Function.update_self, emplace, if_neg]
      intro hfound
      obtain ⟨v, hv⟩ := Option.isSome_iff_exists.mp hfound
      exact hs.unkept l.kind l.kind _ ((lookup_mem (hs.keys l.kind)).mp hv) rfl
    · intro kind hkind
      exact Function.update_of_ne hkind _ _

theorem mem_added {kind : ListenKind} (h : Added s l handle t) {e : Int64 × Nat} :
    e ∈ t.table kind ↔ e ∈ s.table kind ∨ kind = l.kind ∧ e = (handle, s.created.length) := by
  by_cases hkind : kind = l.kind
  · rw [hkind, h.own, List.mem_append, List.mem_singleton, and_iff_right rfl]
  · rw [h.other kind hkind, or_iff_left fun h => hkind h.1]

theorem ListenInv.add (hs : ListenInv s) (h : s.add l = some (t, handle)) : ListenInv t := by
  obtain ⟨hmax, hhandle, hnext, hadded⟩ := hs.added h
  have hnew : ∀ r ∈ s.returned, r.listener < s.created.length := fun r hr => (hs.issued r hr).2
  have hold : ∀ kind e, e ∈ s.table kind → e.2 < s.created.length :=
    fun kind e he => hnew _ (hs.live kind e he)
  refine ⟨?_, ?_, ?_, ?_, ?_, ?_, ?_, ?_⟩
  · intro kind
    rw [hnext]
    by_cases hk : kind = l.kind
    · rw [hk, Function.update_self]
      exact Int64.le_trans (hs.first l.kind) (Int64.le_of_lt (lt_succ hmax))
    · rw [Function.update_of_ne hk]
      exact hs.first kind
  · rw [hadded.returned, hadded.created, hnext, List.length_append]
    refine List.forall_mem_append.mpr ⟨?_, ?_⟩
    · intro r hr
      exact ⟨(hs.issued r hr).1.succ hmax, Nat.lt_add_right _ (hnew r hr)⟩
    · intro r hr
      obtain rfl := List.mem_singleton.mp hr
      refine ⟨⟨s.next l.kind, hs.first l.kind, ?_, hhandle⟩, Nat.lt_succ_self _⟩
      rw [Function.update_self]
      exact lt_succ hmax
  · rw [hadded.returned, List.map_append]
    refine List.Nodup.append hs.once (List.nodup_singleton _) ?_
    intro k hk hj
    obtain ⟨r, hr, rfl⟩ := List.mem_map.mp hk
    exact hadded.fresh r hr (List.mem_singleton.mp hj)
  · rw [hadded.returned, List.map_append]
    refine List.Nodup.append hs.single (List.nodup_singleton _) ?_
    intro k hk hj
    obtain ⟨r, hr, rfl⟩ := List.mem_map.mp hk
    exact (hnew r hr).ne (List.mem_singleton.mp hj)
  · intro kind
    by_cases hk : kind = l.kind
    · rw [hk, hadded.own, List.map_append]
      refine List.Nodup.append (hs.keys l.kind) (List.nodup_singleton _) ?_
      intro k hk hj
      obtain ⟨e, he, rfl⟩ := List.mem_map.mp hk
      exact hs.unkept l.kind l.kind e he ((List.mem_singleton.mp hj).trans hhandle)
    · rw [hadded.other kind hk]
      exact hs.keys kind
  · intro kind e he
    rw [hadded.returned]
    rcases (mem_added hadded).mp he with he | ⟨rfl, rfl⟩
    · exact List.mem_append_left _ (hs.live kind e he)
    · exact List.mem_append_right _ (List.mem_singleton.mpr rfl)
  · rw [hadded.registered]
    refine List.Nodup.append hs.nodup (List.nodup_singleton _) ?_
    intro e he hj
    obtain ⟨h', hmem⟩ := (hs.registered e.1 e.2).mp he
    have hlt := hold e.1 _ hmem
    rw [List.mem_singleton.mp hj] at hlt
    exact Nat.lt_irrefl _ hlt
  · intro kind i
    rw [hadded.registered, List.mem_append, List.mem_singleton, hs.registered kind i]
    constructor
    · rintro (⟨h', hmem⟩ | heq)
      · exact ⟨h', (mem_added hadded).mpr (.inl hmem)⟩
      · cases heq
        exact ⟨handle, (mem_added hadded).mpr (.inr ⟨rfl, rfl⟩)⟩
    · rintro ⟨h', hmem⟩
      rcases (mem_added hadded).mp hmem with hmem | ⟨rfl, heq⟩
      · exact .inl ⟨h', hmem⟩
      · cases heq
        exact .inr rfl

/-- A listener is registered under one handle. -/
theorem ListenInv.unique (hs : ListenInv s) {kind k : ListenKind} {e : Int64 × Nat}
    {h : Int64} (he : e ∈ s.table kind) (hk : (h, e.2) ∈ s.table k) : kind = k ∧ e.1 = h := by
  have heq := List.inj_on_of_nodup_map hs.single (hs.live kind e he) (hs.live k _ hk) rfl
  cases heq
  exact ⟨rfl, rfl⟩

/-- A handle is in one table only. -/
theorem ListenInv.alone (hs : ListenInv s) {kind k : ListenKind} {e : Int64 × Nat} {i : Nat}
    (he : (e.1, i) ∈ s.table kind) (hk : e ∈ s.table k) : kind = k := by
  have heq := List.inj_on_of_nodup_map hs.once (hs.live kind _ he) (hs.live k e hk) rfl
  cases heq
  rfl

theorem remove_missing {kind : ListenKind} (h : ∀ i, (handle, i) ∉ s.table kind) :
    s.remove kind handle = s := by
  have hnone : (s.table kind).lookup handle = none := by
    rw [List.lookup_eq_none_iff]
    intro e he
    have hne : handle ≠ e.1 := by
      intro heq
      apply h e.2
      rw [heq]
      exact he
    simpa using hne
  rw [Listening.remove, hnone]

theorem ListenInv.remove (hs : ListenInv s) {kind : ListenKind} {i : Nat}
    (h : (handle, i) ∈ s.table kind) :
    Removed s handle ⟨kind, handle, i⟩ (s.remove kind handle) := by
  have hfound := (lookup_mem (hs.keys kind)).mpr h
  have hregistered := (hs.registered kind i).mpr ⟨handle, h⟩
  simp only [Listening.remove, hfound]
  refine ⟨⟨hs.live kind _ h, rfl⟩, ?_, List.perm_cons_erase hregistered, rfl, rfl⟩
  intro k e
  by_cases hk : k = kind
  · show e ∈ Function.update s.table kind _ k ↔ _
    rw [hk, Function.update_self, mem_erase]
  · show e ∈ Function.update s.table kind _ k ↔ _
    rw [Function.update_of_ne hk]
    refine (and_iff_left_of_imp ?_).symm
    intro he heq
    rw [← heq] at h
    exact hk (hs.alone h he).symm

theorem ListenInv.keeps (hs : ListenInv s) {kind : ListenKind} {i : Nat}
    (h : (handle, i) ∈ s.table kind) : ListenInv (s.remove kind handle) := by
  have hremoved := hs.remove h
  have hfound := (lookup_mem (hs.keys kind)).mpr h
  have hnext : (s.remove kind handle).next = s.next := by
    simp only [Listening.remove, hfound]
  have hperm := hremoved.registered
  have hnodup := hperm.nodup_iff.mp hs.nodup
  obtain ⟨hout, hrest⟩ := List.nodup_cons.mp hnodup
  refine ⟨?_, ?_, ?_, ?_, ?_, ?_, hrest, ?_⟩
  · rw [hnext]
    exact hs.first
  · rw [hremoved.returns, hremoved.created, hnext]
    exact hs.issued
  · rw [hremoved.returns]
    exact hs.once
  · rw [hremoved.returns]
    exact hs.single
  · intro k
    simp only [Listening.remove, hfound]
    by_cases hk : k = kind
    · rw [hk, Function.update_self]
      exact (hs.keys kind).sublist (List.filter_sublist.map _)
    · rw [Function.update_of_ne hk]
      exact hs.keys k
  · intro k e he
    rw [hremoved.returns]
    exact hs.live k e ((hremoved.table k e).mp he).1
  · intro k j
    have hmem : (k, j) ∈ s.registered ↔ _ := hperm.mem_iff.trans List.mem_cons
    constructor
    · intro hj
      obtain ⟨g, hg⟩ := (hs.registered k j).mp (hmem.mpr (.inr hj))
      refine ⟨g, (hremoved.table k _).mpr ⟨hg, ?_⟩⟩
      rintro rfl
      -- the same handle, so the registration that was taken off
      obtain rfl := hs.alone h hg
      have hi := List.inj_on_of_nodup_map hs.once (hs.live kind _ h) (hs.live kind _ hg) rfl
      cases hi
      exact hout hj
    · rintro ⟨g, hg⟩
      obtain ⟨hold, hne⟩ := (hremoved.table k _).mp hg
      rcases hmem.mp ((hs.registered k j).mpr ⟨g, hold⟩) with heq | hj
      · cases heq
        exact absurd (hs.unique h hold).2.symm hne
      · exact hj

/-- The sign of a handle tells its table. -/
theorem ListenInv.sign (hs : ListenInv s) {kind : ListenKind} {i : Nat}
    (h : (handle, i) ∈ s.table kind) :
    fdbDbUnlisten s handle = s.remove kind handle := by
  obtain ⟨⟨n, hfirst, -, hhandle⟩, -⟩ := hs.issued _ (hs.live kind _ h)
  change kind.first ≤ n at hfirst
  change handle = kind.handle n at hhandle
  subst hhandle
  cases kind with
  | value => exact if_neg (Int64.not_lt.mpr (Int64.le_of_lt (handle_value hfirst)))
  | child => exact if_pos (Int64.lt_of_le_of_lt (handle_child hfirst) (by decide))

theorem ListenInv.unlistens (hs : ListenInv s) (handle : Int64) :
    Unlistens s handle (fdbDbUnlisten s handle) := by
  by_cases h : ∃ kind i, (handle, i) ∈ s.table kind
  · obtain ⟨kind, i, hi⟩ := h
    rw [hs.sign hi]
    exact .inl ⟨⟨kind, handle, i⟩, hi, hs.remove hi⟩
  · have hmissing : ∀ kind i, (handle, i) ∉ s.table kind := fun kind i hi => h ⟨kind, i, hi⟩
    refine .inr ⟨hmissing, ?_⟩
    unfold fdbDbUnlisten
    split
    · exact remove_missing (hmissing .child)
    · exact remove_missing (hmissing .value)

theorem ListenInv.unlisten (hs : ListenInv s) (handle : Int64) :
    ListenInv (fdbDbUnlisten s handle) := by
  rcases hs.unlistens handle with ⟨⟨kind, h, i⟩, hi, -⟩ | ⟨-, heq⟩
  · rw [hs.sign hi]
    exact hs.keeps hi
  · rw [heq]
    exact hs

/-- A handle that a listener was added under passes the tests of Dart. -/
theorem ListenInv.handed (hs : ListenInv s) (h : s.add l = some (t, handle)) :
    listenFailed handle = false ∧ listenHeld handle = true ∧
      (l.kind = .value → 0 < handle) := by
  obtain ⟨-, rfl, -, -⟩ := hs.added h
  have hfirst := hs.first l.kind
  cases hkind : l.kind with
  | value =>
    rw [hkind] at hfirst
    have hpos := handle_value hfirst
    refine ⟨?_, ?_, fun _ => hpos⟩
    · simp [listenFailed, Int64.not_le.mpr hpos]
    · simp [listenHeld, hpos]
  | child =>
    rw [hkind] at hfirst
    have hle := handle_child hfirst
    refine ⟨?_, ?_, fun h => by cases h⟩
    · simp [listenFailed, Int64.not_lt.mpr hle]
    · simp [listenHeld, hle]

/-- What the listens with a spec come to. -/
theorem listenOn_cases {kind : ListenKind} {database : Bool} {path : Option Bytes} {spec : Bytes}
    {port : Int64} (h : listenOn less s kind database path spec port = some (t, handle)) :
    (∃ p query, path = some p ∧ specQuery less spec = some query ∧
      s.add ⟨kind, port, p, query⟩ = some (t, handle)) ∨
    ((handle = -1 ∨ handle = -2 ∨ handle = -3) ∧ t = s) := by
  unfold listenOn at h
  split at h
  · cases h
    exact .inr ⟨.inl rfl, rfl⟩
  · cases path with
    | none =>
      cases h
      exact .inr ⟨.inr (.inl rfl), rfl⟩
    | some p =>
      cases hquery : specQuery less spec with
      | none =>
        simp only [hquery] at h
        cases h
        exact .inr ⟨.inr (.inr rfl), rfl⟩
      | some query =>
        simp only [hquery] at h
        exact .inl ⟨p, query, rfl, rfl, h⟩

theorem run_cases {c : ListenCall} (h : c.run less s = some (t, handle)) :
    (∃ l, c.listener less = some l ∧ s.add l = some (t, handle)) ∨
    ((handle = -1 ∨ handle = -2 ∨ handle = -3) ∧ t = s) := by
  cases c with
  | listen database path port =>
    cases database with
    | false =>
      cases h
      exact .inr ⟨.inl rfl, rfl⟩
    | true => exact .inl ⟨_, rfl, h⟩
  | queryListen database path spec port =>
    rcases listenOn_cases h with ⟨p, query, rfl, hquery, h⟩ | h
    · refine .inl ⟨_, ?_, h⟩
      rw [ListenCall.listener, Option.bind_some, hquery, Option.map_some]
    · exact .inr h
  | childListen database path spec port =>
    rcases listenOn_cases h with ⟨p, query, rfl, hquery, h⟩ | h
    · refine .inl ⟨_, ?_, h⟩
      rw [ListenCall.listener, Option.bind_some, hquery, Option.map_some]
    · exact .inr h

theorem error_failed {c : ListenCall} (h : handle = -1 ∨ handle = -2 ∨ handle = -3) :
    c.failed handle = true ∧ listenHeld handle = false := by
  rcases h with rfl | rfl | rfl <;> cases c <;> exact ⟨rfl, rfl⟩

theorem ListenInv.answers (hs : ListenInv s) {c : ListenCall}
    (h : c.run less s = some (t, handle)) : Answers less c s handle t := by
  rcases run_cases h with ⟨l, hl, hadd⟩ | ⟨herror, rfl⟩
  · obtain ⟨hfailed, hheld, hvalue⟩ := hs.handed hadd
    refine .inl ⟨l, hl, (hs.added hadd).2.2.2, ?_, hheld⟩
    cases c with
    | listen database path port =>
      cases hl
      have hpos : 0 < handle := hvalue rfl
      simp [ListenCall.failed, Int64.not_lt.mpr (Int64.le_of_lt hpos)]
    | queryListen => exact hfailed
    | childListen => exact hfailed
  · obtain ⟨hfailed, hheld⟩ := @error_failed handle c herror
    exact .inr ⟨herror, rfl, hfailed, hheld⟩

theorem ListenInv.step (hs : ListenInv s) {a : ListenAction}
    (h : listenStep less s a = some t) : ListenInv t := by
  cases a with
  | call c =>
    obtain ⟨⟨u, handle⟩, hrun, rfl⟩ := Option.map_eq_some_iff.mp h
    rcases run_cases hrun with ⟨l, -, hadd⟩ | ⟨-, rfl⟩
    · exact hs.add hadd
    · exact hs
  | unlisten handle =>
    cases h
    exact hs.unlisten handle

theorem ListenInv.kept (hs : ListenInv s) : ListenersKept s := by
  have hsign : ∀ kind e, e ∈ s.table kind → ∃ n, kind.first ≤ n ∧ e.1 = kind.handle n := by
    intro kind e he
    obtain ⟨⟨n, hfirst, -, hhandle⟩, -⟩ := hs.issued _ (hs.live kind e he)
    exact ⟨n, hfirst, hhandle⟩
  refine ⟨?_, ?_, ?_, hs.once, hs.live, hs.nodup, hs.registered⟩
  · rw [List.map_append]
    refine List.Nodup.append (hs.keys .value) (hs.keys .child) ?_
    intro k hk hj
    obtain ⟨e, he, rfl⟩ := List.mem_map.mp hk
    obtain ⟨d, hd, hde⟩ := List.mem_map.mp hj
    have hd' : (e.1, d.2) ∈ s.table .child := by
      rw [← hde]
      exact hd
    cases hs.alone hd' he
  · intro e he
    obtain ⟨n, hfirst, hhandle⟩ := hsign .value e he
    rw [hhandle]
    exact handle_value hfirst
  · intro e he
    obtain ⟨n, hfirst, hhandle⟩ := hsign .child e he
    rw [hhandle]
    exact handle_child hfirst

end Steps

section Listening

variable (less : Less)

/-- Over every run, each live handle is its own and keeps its own listener, each
call adds the listener that it asks for or changes nothing, and a handle takes
off no listener but its own. -/
theorem listeners_kept (s : Listening) (h : Run (listenStep less) (fun _ _ => True) .start s) :
    ListenersKept s ∧
    (∀ c t handle, c.run less s = some (t, handle) → Answers less c s handle t) ∧
    ∀ handle, Unlistens s handle (fdbDbUnlisten s handle) := by
  have hs := h.invariant ListenInv.start fun _ _ _ ht _ hstep => ht.step hstep
  exact ⟨hs.kept, fun c t handle => hs.answers, hs.unlistens⟩

/-- A value listener, a child listener, and a handle given back twice. -/
def listenBoth : List ListenAction :=
  [.call (.listen true [] 7), .call (.childListen true (some []) [] 8),
    .call (.queryListen false none [] 9), .unlisten 1, .unlisten 1]

theorem listenBoth_kept : ∃ s, exec (listenStep fun _ _ => false) .start listenBoth = some s ∧
    s.table .child = [(-1000, 1)] ∧ ListenersKept s := by
  have hexec : exec (listenStep fun _ _ => false) .start listenBoth = some _ := rfl
  exact ⟨_, hexec, rfl, (listeners_kept _ _ (Run.of_exec hexec (.unguarded _))).1⟩

end Listening

end Database
