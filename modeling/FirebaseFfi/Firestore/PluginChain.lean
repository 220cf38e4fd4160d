import FirebaseFfi.Assoc.Handed
import FirebaseFfi.Firestore.PluginSpec

namespace Firestore
open Assoc Cbor Dart

namespace PluginCall

def whereEdit : PluginCall → Option (Edit Condition)
  | .where' conditions => some (.add conditions)
  | _ => none

/-- A document cursor brings the ordering with it. -/
def orderEdit : PluginCall → Option (Edit Order)
  | .orderBy orders => some (.add orders)
  | .document _ orders _ => some (.replace orders)
  | _ => none

def limitCall : PluginCall → Option (LimitKey × Int64)
  | .limit key n => some (key, n)
  | _ => none

/-- A cursor at one end of the query, of either form. -/
def cursorCall (start : Bool) : PluginCall → Option (CursorKey × List PluginValue)
  | .cursor key values | .document key _ values =>
    if key.isStart = start then some (key, values) else none
  | _ => none

end PluginCall

/-- What the app has asked for: all clauses in order, and the latest limit and the
latest cursor at either end. -/
structure Asked where
  wheres : List Condition
  orders : List Order
  limit : Option (LimitKey × Int64)
  cursor : Bool → Option (CursorKey × List PluginValue)

def asked (calls : List PluginCall) : Asked where
  wheres := given [] (calls.filterMap PluginCall.whereEdit)
  orders := given [] (calls.filterMap PluginCall.orderEdit)
  limit := lastOf PluginCall.limitCall calls
  cursor start := lastOf (PluginCall.cursorCall start) calls

/-- A cursor that has no values cuts nowhere. -/
inductive SameCursor : Option (CursorKey × List PluginValue) →
    Option (CursorKey × List FieldValue) → Prop
  | none : SameCursor none none
  | empty {key} : SameCursor (some (key, [])) none
  | values {key ds vs} : ds ≠ [] → List.Forall₂ SameValue ds vs →
      SameCursor (some (key, ds)) (some (key, vs))

/-- The native query is the one asked for. -/
structure Asked.Kept (a : Asked) (q : Query) : Prop where
  filters : List.Forall₂ SameFilter a.wheres q.filters
  orders : q.orders = a.orders.map Order.native
  limit : q.limit.map (fun l => (l.1, l.2.toInt)) = a.limit.map fun l => (l.1, l.2.toInt)
  start : SameCursor (a.cursor true) q.startCursor
  stop : SameCursor (a.cursor false) q.endCursor

/-- No clause is added where there are some already, unless a document cursor
replaces the orders after that. The limit that comes last is limitToLast when that
is called at all, and a cursor that comes last is the exclusive one, with values,
when both of its end are called and the other has values. -/
structure Fits (calls : List PluginCall) : Prop where
  wheres : AddedOnce [] (calls.filterMap PluginCall.whereEdit)
  orders : AddedOnce [] (calls.filterMap PluginCall.orderEdit)
  limit : ∀ n, lastOf PluginCall.limitCall calls = some (.limit, n) →
    lastOf (under PluginCall.limitCall .limitToLast) calls = none
  cursor : ∀ start key values, lastOf (PluginCall.cursorCall start) calls = some (key, values) →
    (key.exclusive = true ∧ values ≠ []) ∨
      ((lastOf (under (PluginCall.cursorCall start) key.other) calls).getD []) = []

/-- The entries of a spec that count for what was asked. -/
def Asked.Uses (a : Asked) (key : SpecKey) : Prop :=
  key = .wheres ∨ ∃ start k values, a.cursor start = some (k, values) ∧ key = .cursor k

/-- Every integer in an entry that counts is within int64. -/
def Asked.Whole (a : Asked) (x : Item) : Prop :=
  ∀ len es, x = .map len es → ∀ name y key, (Item.str true name, y) ∈ es →
    name.content = SpecKey.name key → a.Uses key → IntsWithin y

section Chain

variable {path : Bytes} {isGroup : Bool} (calls : List PluginCall)

theorem call_wheres (q : FfiQuery) (call : PluginCall) :
    (q.call call).parameters.wheres =
      call.whereEdit.elim q.parameters.wheres (Edit.handOver q.parameters.wheres) := by
  cases call with
  | limit key n => cases key <;> rfl
  | cursor key values => cases key <;> rfl
  | document key orders values => cases key <;> rfl
  | _ => rfl

theorem call_orders (q : FfiQuery) (call : PluginCall) :
    (q.call call).parameters.orderBy =
      call.orderEdit.elim q.parameters.orderBy (Edit.handOver q.parameters.orderBy) := by
  cases call with
  | limit key n => cases key <;> rfl
  | cursor key values => cases key <;> rfl
  | document key orders values => cases key <;> rfl
  | _ => rfl

theorem call_limits (key : LimitKey) (q : FfiQuery) (call : PluginCall) :
    (q.call call).parameters.limits key =
      (under PluginCall.limitCall key call).or (q.parameters.limits key) := by
  cases call with
  | limit k n => cases k <;> cases key <;> rfl
  | cursor key values => cases key <;> rfl
  | document key orders values => cases key <;> rfl
  | _ => rfl

theorem call_cursors (key : CursorKey) (q : FfiQuery) (call : PluginCall) :
    (q.call call).parameters.cursors key =
      (under (PluginCall.cursorCall key.isStart) key call).or (q.parameters.cursors key) := by
  cases call with
  | limit k n => cases k <;> rfl
  | cursor k values => cases k <;> cases key <;> rfl
  | document k orders values => cases k <;> cases key <;> rfl
  | _ => rfl

theorem chain_wheres : (FfiQuery.chain path isGroup calls).parameters.wheres =
    handed [] (calls.filterMap PluginCall.whereEdit) :=
  @handed_fold _ _ _ _ (fun q : FfiQuery => q.parameters.wheres) _ call_wheres calls _

theorem chain_orders : (FfiQuery.chain path isGroup calls).parameters.orderBy =
    handed [] (calls.filterMap PluginCall.orderEdit) :=
  @handed_fold _ _ _ _ (fun q : FfiQuery => q.parameters.orderBy) _ call_orders calls _

theorem chain_limits (key : LimitKey) : (FfiQuery.chain path isGroup calls).parameters.limits key =
    lastOf (under PluginCall.limitCall key) calls :=
  (@lastOf_fold _ _ _ _ _ (fun q : FfiQuery => q.parameters.limits key) (call_limits key) calls
    _).trans Option.or_none

theorem chain_cursors (key : CursorKey) :
    (FfiQuery.chain path isGroup calls).parameters.cursors key =
      lastOf (under (PluginCall.cursorCall key.isStart) key) calls :=
  (@lastOf_fold _ _ _ _ _ (fun q : FfiQuery => q.parameters.cursors key) (call_cursors key) calls
    _).trans Option.or_none

end Chain

section Kept

variable {path : Bytes} {isGroup : Bool} {calls : List PluginCall}
  {es : List (Clause × (Item × Item))} {query : Query}

theorem wheres_kept (h : (FfiQuery.chain path isGroup calls).Yields es query) :
    List.Forall₂ SameFilter (asked calls).wheres query.filters ↔
      AddedOnce [] (calls.filterMap PluginCall.whereEdit) ∧ WithinAt es .wheres := by
  have hlen := h.filters
  have hsame := h.same
  rw [chain_wheres] at hlen hsame
  constructor
  · intro hkept
    have honce := handed_iff.mp (hlen.symm.trans hkept.length_eq.symm)
    rw [handed_eq honce] at hsame
    exact ⟨honce, hsame.mp hkept⟩
  · intro hfits
    obtain ⟨honce, hwithin⟩ := hfits
    rw [handed_eq honce] at hsame
    exact hsame.mpr hwithin

theorem orders_kept (h : (FfiQuery.chain path isGroup calls).Yields es query) :
    query.orders = (asked calls).orders.map Order.native ↔
      AddedOnce [] (calls.filterMap PluginCall.orderEdit) := by
  have horders := h.orders
  rw [chain_orders] at horders
  constructor
  · intro hkept
    have hlen := congrArg List.length (horders.symm.trans hkept)
    rw [List.length_map, List.length_map] at hlen
    exact handed_iff.mp hlen
  · intro honce
    rw [horders, handed_eq honce]
    rfl

theorem limit_kept (h : (FfiQuery.chain path isGroup calls).Yields es query) :
    query.limit.map (fun l => (l.1, l.2.toInt)) = (asked calls).limit.map (fun l => (l.1, l.2.toInt)) ↔
      ∀ n, lastOf PluginCall.limitCall calls = some (.limit, n) →
        lastOf (under PluginCall.limitCall .limitToLast) calls = none := by
  have hlimit : query.limit.map (fun l => (l.1, l.2.toInt)) =
      (lastOf Clause.limitOf (FfiQuery.chain path isGroup calls).clauses).map
        fun l => (l.1, l.2.toInt) := by
    have hrel := h.limit
    generalize lastOf Clause.limitOf _ = l at hrel
    generalize query.limit = n at hrel
    cases hrel with
    | none => rfl
    | some hsame => exact congrArg some (Prod.ext hsame.1 hsame.2)
  rw [clauses_limit, chain_limits, chain_limits] at hlimit
  rw [hlimit, asked]
  cases hlast : lastOf PluginCall.limitCall calls with
  | none =>
    rw [lastOf_under_none hlast, lastOf_under_none hlast]
    exact iff_of_true rfl fun n hn => by cases hn
  | some l =>
    obtain ⟨key, n⟩ := l
    have hhere := lastOf_under hlast
    cases key with
    | limitToLast =>
      rw [hhere]
      exact iff_of_true rfl fun m hm => by cases hm
    | limit =>
      rw [hhere]
      cases lastOf (under PluginCall.limitCall .limitToLast) calls with
      | none => exact iff_of_true rfl fun _ _ => rfl
      | some m => exact iff_of_false (fun h => by cases h) fun h => by cases h n rfl

theorem other_isStart (key : CursorKey) : key.other.isStart = key.isStart := by
  cases key <;> rfl

theorem other_ne (key : CursorKey) : key.other ≠ key := by
  cases key <;> intro h <;> cases h

theorem other_exclusive (key : CursorKey) : key.other.exclusive = !key.exclusive := by
  cases key <;> rfl

theorem other_other (key : CursorKey) : key.other.other = key := by
  cases key <;> rfl

theorem cursorCall_isStart {start : Bool} {key : CursorKey} {values : List PluginValue}
    (h : lastOf (PluginCall.cursorCall start) calls = some (key, values)) :
    key.isStart = start := by
  obtain ⟨call, -, hcall⟩ := lastOf_mem h
  unfold PluginCall.cursorCall at hcall
  split at hcall
  · split at hcall
    · next hside =>
      cases hcall
      exact hside
    · cases hcall
  · split at hcall
    · next hside =>
      cases hcall
      exact hside
    · cases hcall
  · cases hcall

theorem cuts_some {q : FfiQuery} {key : CursorKey} {values : List PluginValue}
    (h : q.parameters.cursors key = some values) (hne : values ≠ []) :
    q.cuts key = some values := by
  cases values with
  | nil => exact absurd rfl hne
  | cons v vs =>
    rw [FfiQuery.cuts, h]
    rfl

theorem cuts_none {q : FfiQuery} {key : CursorKey} :
    q.cuts key = none ↔ (q.parameters.cursors key).getD [] = [] := by
  unfold FfiQuery.cuts
  rcases q.parameters.cursors key with _ | _ | ⟨v, vs⟩ <;> simp

section Last

variable {q : FfiQuery} {key : CursorKey} {ds : List PluginValue}

/-- The other cursor of an end comes last where this one has no values, -/
theorem last_other (h : q.cuts key = none) : lastOf (Clause.cursorOf key.isStart) q.clauses =
    (q.cuts key.other).map (Prod.mk key.other) := by
  cases hkey : key.exclusive with
  | true => rw [clauses_cursor q hkey, h, Option.map_none, Option.none_or]
  | false =>
    have hother : key.other.exclusive = true := by rw [other_exclusive, hkey]; rfl
    rw [← other_isStart, clauses_cursor q hother, other_other, h, Option.map_none, Option.or_none]

/-- this one where it is the exclusive one or the other has none, -/
theorem last_this (h : q.cuts key = some ds)
    (hkey : key.exclusive = true ∨ q.cuts key.other = none) :
    lastOf (Clause.cursorOf key.isStart) q.clauses = some (key, ds) := by
  cases hex : key.exclusive with
  | true =>
    rw [clauses_cursor q hex, h]
    rfl
  | false =>
    have hnone : q.cuts key.other = none := by
      rcases hkey with hkey | hkey
      · rw [hex] at hkey
        cases hkey
      · exact hkey
    rw [← other_isStart, last_other hnone, other_other, h]
    rfl

/-- and the other where both have some and it is the exclusive one. -/
theorem last_exclusive (hkey : key.exclusive = false) (h : q.cuts key.other = some ds) :
    lastOf (Clause.cursorOf key.isStart) q.clauses = some (key.other, ds) := by
  rw [← other_isStart]
  exact last_this h (.inl (by rw [other_exclusive, hkey]; rfl))

end Last

theorem sameCursor_empty {key : CursorKey} {n : Option (CursorKey × List FieldValue)} :
    SameCursor (some (key, [])) n ↔ n = none := by
  constructor
  · intro h
    cases h with
    | empty => rfl
    | values hne => exact absurd rfl hne
  · intro h
    rw [h]
    exact .empty

theorem sameCursor_values {key k : CursorKey} {ds : List PluginValue} {vs : List FieldValue}
    (hne : ds ≠ []) :
    SameCursor (some (key, ds)) (some (k, vs)) ↔ k = key ∧ List.Forall₂ SameValue ds vs := by
  constructor
  · intro h
    cases h with
    | values _ hvs => exact ⟨rfl, hvs⟩
  · intro h
    obtain ⟨rfl, hvs⟩ := h
    exact .values hne hvs

section Kept

variable {q : FfiQuery} {key : CursorKey} {values : List PluginValue}
  {n : Option (CursorKey × List FieldValue)} {es : List (Clause × (Item × Item))}

/-- No entry is a cursor's that has no values. -/
theorem within_none (hmem : ∀ e ∈ es, e.1 ∈ q.clauses) (hcut : q.cuts key = none) :
    WithinAt es (.cursor key) := by
  intro e he hentry
  obtain ⟨clause, e⟩ := e
  cases clause with
  | cursor k ds =>
    cases hentry
    have hsome := cuts_of_clause q (hmem _ he)
    rw [hcut] at hsome
    cases hsome
  | _ => cases hentry

theorem kept_empty (hcut : q.cuts key = none)
    (hrel : Option.Rel (fun c n => n.1 = c.1 ∧
      (List.Forall₂ SameValue c.2 n.2 ↔ WithinAt es (.cursor c.1)))
      (lastOf (Clause.cursorOf key.isStart) q.clauses) n) :
    SameCursor (some (key, [])) n ↔ q.cuts key.other = none := by
  rw [sameCursor_empty]
  rw [last_other hcut] at hrel
  cases hcuts : q.cuts key.other with
  | none =>
    rw [hcuts] at hrel
    cases hrel
    exact iff_of_true rfl rfl
  | some ws =>
    rw [hcuts] at hrel
    cases hrel
    exact iff_of_false nofun nofun

theorem kept_values (hcut : q.cuts key = some values) (hne : values ≠ [])
    (hrel : Option.Rel (fun c n => n.1 = c.1 ∧
      (List.Forall₂ SameValue c.2 n.2 ↔ WithinAt es (.cursor c.1)))
      (lastOf (Clause.cursorOf key.isStart) q.clauses) n) :
    SameCursor (some (key, values)) n ↔
      (key.exclusive = true ∨ q.cuts key.other = none) ∧ WithinAt es (.cursor key) := by
  by_cases hkey : key.exclusive = true ∨ q.cuts key.other = none
  · rw [last_this hcut hkey] at hrel
    cases hrel with
    | @some _ n hsame =>
      obtain ⟨k, vs⟩ := n
      obtain ⟨hk, hvs⟩ := hsame
      rw [sameCursor_values hne, and_iff_right hk, hvs, and_iff_right hkey]
  · obtain ⟨hex, hsome⟩ := not_or.mp hkey
    obtain ⟨ws, hws⟩ := Option.ne_none_iff_exists'.mp hsome
    rw [last_exclusive (Bool.eq_false_of_not_eq_true hex) hws] at hrel
    cases hrel with
    | @some _ n hsame =>
      obtain ⟨k, vs⟩ := n
      obtain ⟨rfl, -⟩ := hsame
      rw [sameCursor_values hne]
      exact iff_of_false (fun h => other_ne key h.1) fun h => hkey h.1

end Kept

theorem forall_latest {P : CursorKey → List PluginValue → Prop} {key : CursorKey}
    {values : List PluginValue} :
    (∀ k ds, some (key, values) = some (k, ds) → P k ds) ↔ P key values := by
  constructor
  · exact fun h => h key values rfl
  · intro h k ds hk
    cases hk
    exact h

/-- The cursor that the app has given last at an end is the one that cuts there
when the other is the inclusive one or has no values. -/
theorem cursor_kept (h : (FfiQuery.chain path isGroup calls).Yields es query)
    (hmem : ∀ e ∈ es, e.1 ∈ (FfiQuery.chain path isGroup calls).clauses) (start : Bool) :
    SameCursor ((asked calls).cursor start) (query.cursor start) ↔
      (∀ key values, lastOf (PluginCall.cursorCall start) calls = some (key, values) →
        (key.exclusive = true ∧ values ≠ []) ∨
          ((lastOf (under (PluginCall.cursorCall start) key.other) calls).getD []) = []) ∧
      ∀ key values, (asked calls).cursor start = some (key, values) →
        WithinAt es (.cursor key) := by
  have hrel := h.cursor start
  have hcursors := @chain_cursors path isGroup calls
  generalize FfiQuery.chain path isGroup calls = q at hrel hcursors hmem
  generalize query.cursor start = n at hrel ⊢
  show SameCursor (lastOf (PluginCall.cursorCall start) calls) _ ↔ _ ∧ ∀ key values,
    lastOf (PluginCall.cursorCall start) calls = some (key, values) → _
  cases hlast : lastOf (PluginCall.cursorCall start) calls with
  | none =>
    have hcuts : ∀ key, CursorKey.isStart key = start → q.cuts key = none := by
      intro key hside
      rw [cuts_none, hcursors, hside, lastOf_under_none hlast]
      rfl
    have hnone : ∀ key, CursorKey.isStart key = start →
        lastOf (Clause.cursorOf start) q.clauses = none := by
      intro key hside
      rw [← hside, last_other (hcuts key hside), hcuts _ ((other_isStart key).trans hside)]
      rfl
    rw [show lastOf (Clause.cursorOf start) q.clauses = none by
      cases start with
      | true => exact hnone .startAt rfl
      | false => exact hnone .endAt rfl] at hrel
    cases hrel
    exact iff_of_true .none ⟨fun _ _ h => (nomatch h), fun _ _ h => (nomatch h)⟩
  | some latest =>
    obtain ⟨key, values⟩ := latest
    obtain rfl := cursorCall_isStart hlast
    have hhere := (hcursors key).trans (lastOf_under hlast)
    have hother := hcursors key.other
    rw [other_isStart] at hother
    rw [forall_latest, forall_latest, ← hother, ← cuts_none]
    by_cases hempty : values = []
    · subst hempty
      have hcut : q.cuts key = none := cuts_none.mpr (by rw [hhere]; rfl)
      rw [kept_empty hcut hrel, and_iff_left (within_none hmem hcut)]
      simp
    · rw [kept_values (cuts_some hhere hempty) hempty hrel, and_iff_left hempty]

/-- The entries that count for what was asked are those of the wheres and of the
last cursors. -/
theorem whole_within {a : Asked} {q : FfiQuery} {toString : Object → Option Bytes}
    {len : Option Width} {es : List (Item × Item)}
    (hes : List.Forall₂ (EntryItem toString) q.clauses es) :
    a.Whole (.map len es) ↔ ∀ key, a.Uses key → WithinAt (q.clauses.zip es) key := by
  constructor
  · intro h key huses e he hkey
    obtain ⟨clause, k, y⟩ := e
    obtain ⟨name, c, hk, hname, -⟩ := List.forall₂_zip hes he
    obtain rfl : k = .str true name := hk
    exact h len es rfl name y key (List.of_mem_zip he).2 (by rw [hname, hkey]) huses
  · intro h len' es' hmap name y key hy hname huses
    cases hmap
    rw [← List.map_snd_zip (le_of_eq hes.length_eq.symm)] at hy
    obtain ⟨e, he, hey⟩ := List.mem_map.mp hy
    obtain ⟨clause, k, y'⟩ := e
    obtain ⟨rfl, rfl⟩ := Prod.mk.inj hey
    obtain ⟨name', c, hk, hname', -⟩ := List.forall₂_zip hes he
    cases hk
    exact h key huses _ he (specKey_name_inj (hname'.symm.trans hname))

theorem uses_iff {a : Asked} {P : SpecKey → Prop} : (∀ key, a.Uses key → P key) ↔
    P .wheres ∧ ∀ start key values, a.cursor start = some (key, values) → P (.cursor key) := by
  constructor
  · exact fun h => ⟨h _ (.inl rfl), fun start key values hc => h _ (.inr ⟨start, key, values, hc, rfl⟩)⟩
  · intro h key huses
    obtain ⟨hwheres, hcursors⟩ := h
    rcases huses with rfl | ⟨start, k, values, hc, rfl⟩
    · exact hwheres
    · exact hcursors start k values hc

end Kept

/-- The query that is run for a chain of calls is the one asked for exactly when no
clause is handed over twice, the last limit and the last cursors are the ones that
win, and the integers of the values are within int64. -/
theorem chain_kept {sdk : Sdk} {package : CborPackage} {path : Bytes} {isGroup : Bool}
    {calls : List PluginCall} {c : Dart.CborValue} {x : Item} {query : Query}
    (hc : encodeFirestoreValue package.toString
      (specObject (FfiQuery.chain path isGroup calls).spec) = .ok c)
    (hx : Emits c x) (hwf : x.WF) (hbytes : package.encode c = x.bytes)
    (h : (FfiQuery.chain path isGroup calls).Runs sdk package query) :
    (asked calls).Kept query ↔ Fits calls ∧ (asked calls).Whole x := by
  obtain ⟨len, es, rfl, hes⟩ := spec_items _ hc hx
  have hyields := h.yields hes hwf hc hbytes
  have hmem : ∀ e ∈ (FfiQuery.chain path isGroup calls).clauses.zip es,
      e.1 ∈ (FfiQuery.chain path isGroup calls).clauses := fun e he => (List.of_mem_zip he).1
  have hwheres := wheres_kept hyields
  have horders := orders_kept hyields
  have hlimit := limit_kept hyields
  have hcursor := cursor_kept hyields hmem
  rw [whole_within hes, uses_iff]
  constructor
  · intro hkept
    have hcut : ∀ start, SameCursor ((asked calls).cursor start) (query.cursor start) := by
      intro start
      cases start with
      | true => exact hkept.start
      | false => exact hkept.stop
    obtain ⟨honce, hwithin⟩ := hwheres.mp hkept.filters
    exact ⟨⟨honce, horders.mp hkept.orders, hlimit.mp hkept.limit,
      fun start => ((hcursor start).mp (hcut start)).1⟩, hwithin,
      fun start => ((hcursor start).mp (hcut start)).2⟩
  · intro hfits
    obtain ⟨hfits, hwithin, hcut⟩ := hfits
    exact ⟨hwheres.mpr ⟨hfits.wheres, hwithin⟩, horders.mpr hfits.orders,
      hlimit.mpr hfits.limit, (hcursor true).mpr ⟨hfits.cursor true, hcut true⟩,
      (hcursor false).mpr ⟨hfits.cursor false, hcut false⟩⟩

section Runs

/-- A package that has an item written for what it is given. -/
def writing (x : Item) : CborPackage where
  decode _ := .error .other
  encode _ := x.bytes
  toObject _ := .error .other
  equal _ _ := false
  toString _ := none

def equals (field : Bytes) (n : Int64) : Condition := ⟨.other field, ascii "==", .int n⟩

def equalsItem (field : Bytes) (n : Int64) : Item :=
  arrayItem [textItem field, textItem (ascii "=="), intItem n]

theorem equalsItem_wf {field : Bytes} {n : Int64} (h : field.length ≤ maxSize) :
    (equalsItem field n).WF := by
  refine arrayItem_wf (by simp [maxSize, Tinycbor.sizeMax]) ?_
  intro x hx
  rcases List.mem_cons.mp hx with rfl | hx
  · exact textItem_wf h
  · rcases List.mem_cons.mp hx with rfl | hx
    · exact textItem_wf (by simp [ascii, maxSize, Tinycbor.sizeMax])
    · rw [List.mem_singleton.mp hx]
      exact intItem_wf n

theorem equalsItem_emitted (field : Bytes) (n : Int64) :
    Emits (.list [.string field, .string (ascii "=="), .int n.toInt]) (equalsItem field n) :=
  .list (.cons (emits_text _) (.cons (emits_text _) (.cons (emits_intItem n) .nil)))

/-- `where('a', isEqualTo: 1).limit(3)`. -/
def oneWhere : List PluginCall := [.where' [equals (ascii "a") 1], .limit .limit 3]

def oneWhereItem : Item :=
  mapItem [(textItem (ascii "where"), arrayItem [equalsItem (ascii "a") 1]),
    (textItem (ascii "limit"), intItem 3)]

theorem oneWhereItem_wf : oneWhereItem.WF := by
  refine mapItem_wf (by simp [maxSize, Tinycbor.sizeMax]) ?_ ?_
  · intro e he
    rcases List.mem_cons.mp he with rfl | he
    · exact textItem_wf (by simp [ascii, maxSize, Tinycbor.sizeMax])
    · rw [List.mem_singleton.mp he]
      exact textItem_wf (by simp [ascii, maxSize, Tinycbor.sizeMax])
  · intro e he
    rcases List.mem_cons.mp he with rfl | he
    · refine arrayItem_wf (by simp [maxSize, Tinycbor.sizeMax]) ?_
      intro x hx
      rw [List.mem_singleton.mp hx]
      exact equalsItem_wf (by simp [ascii, maxSize, Tinycbor.sizeMax])
    · rw [List.mem_singleton.mp he]
      exact intItem_wf 3

theorem oneWhereItem_within : IntsWithin oneWhereItem := by
  have hint : ∀ n, IntsWithin (intItem n) := fun n =>
    (emits_int (fun _ => true) (emits_intItem n)).2.1
  refine .map ?_
  intro e he
  rcases List.mem_cons.mp he with rfl | he
  · refine .array ?_
    intro x hx
    rw [List.mem_singleton.mp hx, equalsItem, arrayItem, textItem, textItem, entry_within]
    exact hint 1
  · rw [List.mem_singleton.mp he]
    exact hint 3

theorem oneWhere_kept : ∃ query,
    (FfiQuery.chain (ascii "c") false oneWhere).Runs willing (writing oneWhereItem) query ∧
      (asked oneWhere).Kept query := by
  have htaken : (buildQuery willing (Tinycbor.cString (ascii "c")) oneWhereItem.bytes).toOption.isSome =
      true := by decide +kernel
  cases hquery : buildQuery willing (Tinycbor.cString (ascii "c")) oneWhereItem.bytes with
  | error e =>
    rw [hquery] at htaken
    cases htaken
  | ok query =>
    have hruns : (FfiQuery.chain (ascii "c") false oneWhere).Runs willing (writing oneWhereItem) query :=
      ⟨_, rfl, hquery⟩
    have hemits : Emits (.map [(.string (ascii "where"), .list [.list [.string (ascii "a"),
        .string (ascii "=="), .int (1 : Int64).toInt]]),
        (.string (ascii "limit"), .int (3 : Int64).toInt)]) oneWhereItem :=
      .map (.cons (emits_text _) (.list (.cons (equalsItem_emitted _ _) .nil))
        (.cons (emits_text _) (emits_intItem 3) .nil))
    refine ⟨query, hruns, (chain_kept rfl hemits oneWhereItem_wf rfl hruns).mpr ⟨⟨⟨.inl rfl, trivial⟩, trivial, ?_, ?_⟩, ?_⟩⟩
    · intro n _
      rfl
    · intro start key values h
      cases h
    · intro len es hmap name y key hy _ _
      have hwithin := oneWhereItem_within
      rw [hmap, within_map] at hwithin
      exact hwithin _ hy

/-- `where('a', isEqualTo: 1).where('b', isEqualTo: 2)`. -/
def twoWheres : List PluginCall := [.where' [equals (ascii "a") 1], .where' [equals (ascii "b") 2]]

/-- What comes of it has the first clause twice. -/
def threeWheresItem : Item :=
  mapItem [(textItem (ascii "where"), arrayItem [equalsItem (ascii "a") 1,
    equalsItem (ascii "a") 1, equalsItem (ascii "b") 2])]

theorem twoWheres_ran :
    (buildQuery willing (Tinycbor.cString (ascii "c")) threeWheresItem.bytes).toOption.map
      (·.filters.length) = some 3 := by decide +kernel

theorem chain_kept_broken : ¬ ∀ sdk package path isGroup calls c x query,
    encodeFirestoreValue package.toString
      (specObject (FfiQuery.chain path isGroup calls).spec) = .ok c → Emits c x → x.WF →
    package.encode c = x.bytes → (FfiQuery.chain path isGroup calls).Runs sdk package query →
    (asked calls).Kept query := by
  intro h
  have hran := twoWheres_ran
  cases hquery : buildQuery willing (Tinycbor.cString (ascii "c")) threeWheresItem.bytes with
  | error e =>
    rw [hquery] at hran
    cases hran
  | ok query =>
    have hemits : Emits (.map [(.string (ascii "where"), .list [
        .list [.string (ascii "a"), .string (ascii "=="), .int (1 : Int64).toInt],
        .list [.string (ascii "a"), .string (ascii "=="), .int (1 : Int64).toInt],
        .list [.string (ascii "b"), .string (ascii "=="), .int (2 : Int64).toInt]])])
        threeWheresItem :=
      .map (.cons (emits_text _) (.list (.cons (equalsItem_emitted _ _)
        (.cons (equalsItem_emitted _ _) (.cons (equalsItem_emitted _ _) .nil)))) .nil)
    have hwf : threeWheresItem.WF := by
      refine mapItem_wf (by simp [maxSize, Tinycbor.sizeMax]) ?_ ?_
      · intro e he
        rw [List.mem_singleton.mp he]
        exact textItem_wf (by simp [ascii, maxSize, Tinycbor.sizeMax])
      · intro e he
        rw [List.mem_singleton.mp he]
        refine arrayItem_wf (by simp [maxSize, Tinycbor.sizeMax]) ?_
        intro x hx
        simp only [List.mem_cons, List.not_mem_nil, or_false] at hx
        rcases hx with rfl | rfl | rfl
        · exact equalsItem_wf (by simp [ascii, maxSize, Tinycbor.sizeMax])
        · exact equalsItem_wf (by simp [ascii, maxSize, Tinycbor.sizeMax])
        · exact equalsItem_wf (by simp [ascii, maxSize, Tinycbor.sizeMax])
    have hkept := h willing (writing threeWheresItem) (ascii "c") false twoWheres _ _ query rfl
      hemits hwf rfl ⟨_, rfl, hquery⟩
    rw [hquery] at hran
    have hlen : query.filters.length = 3 := Option.some.inj hran
    have hasked : 2 = query.filters.length := hkept.filters.length_eq
    omega

end Runs

end Firestore
