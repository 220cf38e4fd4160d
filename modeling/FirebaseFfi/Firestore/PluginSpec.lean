import FirebaseFfi.Firestore.PluginClauses

namespace Firestore
open Assoc Cbor Dart

/-- The one of startAfter and endBefore, which exclude what they cut at. -/
def CursorKey.exclusive : CursorKey → Bool
  | .startAfter | .endBefore => true
  | .startAt | .endAt => false

/-- The other cursor of the same end. -/
def CursorKey.other : CursorKey → CursorKey
  | .startAt => .startAfter
  | .startAfter => .startAt
  | .endAt => .endBefore
  | .endBefore => .endAt

namespace FfiQuery

/-- The values of a cursor that has some. -/
def cuts (q : FfiQuery) (key : CursorKey) : Option (List PluginValue) :=
  (q.parameters.cursors key).filter fun values => !values.isEmpty

/-- The clauses that the entries of the spec say. -/
def clauses (q : FfiQuery) : List Clause :=
  (if q.isGroup then [.group] else []) ++
  (if q.parameters.wheres.isEmpty then [] else [.wheres q.parameters.wheres]) ++
  (if q.parameters.orderBy.isEmpty then [] else [.orders q.parameters.orderBy]) ++
  ((q.parameters.limits .limit).map (Clause.limit .limit)).toList ++
  ((q.parameters.limits .limitToLast).map (Clause.limit .limitToLast)).toList ++
  ((q.cuts .startAt).map (Clause.cursor .startAt)).toList ++
  ((q.cuts .startAfter).map (Clause.cursor .startAfter)).toList ++
  ((q.cuts .endAt).map (Clause.cursor .endAt)).toList ++
  ((q.cuts .endBefore).map (Clause.cursor .endBefore)).toList

end FfiQuery

section Spec

variable (q : FfiQuery)

theorem cursor_cuts (key : CursorKey) : q.cursor key = (q.cuts key).map valuesToFfi := by
  unfold FfiQuery.cursor FfiQuery.cuts
  rcases q.parameters.cursors key with _ | _ | ⟨v, vs⟩ <;> rfl

theorem map_toList {α β γ : Type} (f : α → β) (g : β → γ) (o : Option α) :
    (o.map f).toList.map g = (o.map fun a => g (f a)).toList := by
  cases o <;> rfl

theorem spec_eq : q.spec = q.clauses.map Clause.entry := by
  have hwheres : (if q.whereClauses.isEmpty then []
      else [(SpecKey.wheres, Object.list (q.whereClauses.map Where.spec))]) =
      (if q.parameters.wheres.isEmpty then []
        else [Clause.wheres q.parameters.wheres]).map Clause.entry := by
    unfold FfiQuery.whereClauses
    rw [List.isEmpty_map, List.map_map]
    split <;> rfl
  have horders : (if q.orderClauses.isEmpty then []
      else [(SpecKey.orderBy, Object.list (q.orderClauses.map OrderBy.spec))]) =
      (if q.parameters.orderBy.isEmpty then []
        else [Clause.orders q.parameters.orderBy]).map Clause.entry := by
    unfold FfiQuery.orderClauses
    rw [List.isEmpty_map, List.map_map]
    split <;> rfl
  have hgroup : (if q.isGroup then [(SpecKey.collectionGroup, Object.bool true)] else []) =
      (if q.isGroup then [Clause.group] else []).map Clause.entry := by
    split <;> rfl
  simp only [FfiQuery.spec, querySpec, FfiQuery.clauses, List.map_append, map_toList, hwheres,
    horders, hgroup, cursor_cuts, Option.map_map]
  rfl

theorem sublist_option {α : Type} (f : α → Clause) (key : SpecKey) (o : Option α)
    (hkey : ∀ a, (f a).entry.1 = key) :
    (((o.map f).toList).map fun c => c.entry.1).Sublist [key] := by
  cases o with
  | none => exact List.nil_sublist _
  | some a =>
    show [(f a).entry.1].Sublist [key]
    rw [hkey]

theorem sublist_if (b : Bool) (clause : Clause) :
    ((if b then [] else [clause]).map fun c => c.entry.1).Sublist [clause.entry.1] := by
  cases b with
  | true => exact List.nil_sublist _
  | false => exact List.Sublist.refl _

/-- The keys come in one order, and none twice. -/
theorem clauses_nodup : (q.clauses.map fun c => c.entry.1).Nodup := by
  have hgroup : ((if q.isGroup then [Clause.group] else []).map fun c => c.entry.1).Sublist
      [.collectionGroup] := by
    split
    · exact List.Sublist.refl _
    · exact List.nil_sublist _
  have hwheres : ((if q.parameters.wheres.isEmpty then []
      else [Clause.wheres q.parameters.wheres]).map fun c => c.entry.1).Sublist [.wheres] :=
    sublist_if _ _
  have horders : ((if q.parameters.orderBy.isEmpty then []
      else [Clause.orders q.parameters.orderBy]).map fun c => c.entry.1).Sublist [.orderBy] :=
    sublist_if _ _
  have hcursor : ∀ key, (((q.cuts key).map (Clause.cursor key)).toList.map
      fun c => c.entry.1).Sublist [.cursor key] :=
    fun key => sublist_option (Clause.cursor key) _ _ fun _ => rfl
  have hlimit : ∀ key, (((q.parameters.limits key).map (Clause.limit key)).toList.map
      fun c => c.entry.1).Sublist [.limit key] :=
    fun key => sublist_option (Clause.limit key) _ _ fun _ => rfl
  have hsub : (q.clauses.map fun c => c.entry.1).Sublist
      ([SpecKey.collectionGroup] ++ [SpecKey.wheres] ++ [SpecKey.orderBy] ++ [SpecKey.limit .limit] ++
        [SpecKey.limit .limitToLast] ++ [SpecKey.cursor .startAt] ++ [SpecKey.cursor .startAfter] ++
        [SpecKey.cursor .endAt] ++ [SpecKey.cursor .endBefore]) := by
    simp only [FfiQuery.clauses, List.map_append]
    exact (((((((hgroup.append hwheres).append horders).append (hlimit .limit)).append
      (hlimit .limitToLast)).append (hcursor .startAt)).append (hcursor .startAfter)).append
      (hcursor .endAt)).append (hcursor .endBefore)
  exact hsub.nodup (by decide)

/-- What the package writes for an entry. -/
def EntryItem (toString : Object → Option Bytes) (clause : Clause) (e : Item × Item) : Prop :=
  ∃ name c, e.1 = .str true name ∧ name.content = clause.entry.1.name ∧
    encodeFirestoreValue toString clause.entry.2 = .ok c ∧ Emits c e.2

variable {toString : Object → Option Bytes}

theorem entries_items {clauses : List Clause} {ces : List (Bytes × Dart.CborValue)}
    {es : List (Item × Item)}
    (hces : List.Forall₂ (fun (e : Object × Object) c => e.1 = .string c.1 ∧
      encodeFirestoreValue toString e.2 = .ok c.2)
      (clauses.map fun c => (Object.string c.entry.1.name, c.entry.2)) ces)
    (hes : EmitsEntries (textKeyed ces) es) : List.Forall₂ (EntryItem toString) clauses es := by
  induction clauses generalizing ces es with
  | nil =>
    cases hces
    cases hes
    exact .nil
  | cons clause clauses ih =>
    cases hces with
    | @cons _ c _ ces hc hces =>
      obtain ⟨k, c⟩ := c
      obtain ⟨hk, hc⟩ := hc
      cases hk
      cases hes with
      | cons hkey hx hes =>
        obtain ⟨name, rfl, hname⟩ := emits_string hkey
        exact .cons ⟨name, c, rfl, hname, hc, hx⟩ (ih hces hes)

theorem specKey_name_inj {k k' : SpecKey} (h : k.name = k'.name) : k = k' := by
  have hkey := specKeyOf_name k
  rw [h, specKeyOf_name] at hkey
  exact (Option.some.inj hkey).symm

/-- The spec is written as a map of its entries. -/
theorem spec_items {c : Dart.CborValue} {x : Item}
    (hc : encodeFirestoreValue toString (specObject q.spec) = .ok c) (hx : Emits c x) :
    ∃ len es, x = .map len es ∧ List.Forall₂ (EntryItem toString) q.clauses es := by
  have hentries : (q.spec.map fun e => (Object.string e.1.name, e.2)) =
      q.clauses.map fun c => (Object.string c.entry.1.name, c.entry.2) := by
    rw [spec_eq, List.map_map]
    rfl
  rw [specObject, hentries] at hc
  obtain ⟨ces, hces, hc⟩ := bind_ok hc
  cases hc
  have hdistinct : ((q.clauses.map fun c => (Object.string c.entry.1.name, c.entry.2)).map
      Prod.fst).Nodup := by
    have hkeys := (clauses_nodup q).map (f := fun k : SpecKey => Object.string k.name)
      fun _ _ hkk => specKey_name_inj (Object.string.inj hkk)
    rw [List.map_map] at hkeys ⊢
    exact hkeys
  obtain ⟨ces', rfl, hall⟩ := encodeMembers_distinct (fun e he => by
    obtain ⟨clause, -, rfl⟩ := List.mem_map.mp he
    exact ⟨_, rfl⟩) (by simpa [usedKeys] using hdistinct) hces
  cases hx with
  | @map _ len es hes => exact ⟨len, es, rfl, entries_items hall hes⟩

end Spec

namespace Clause

def conditions : Clause → List Condition
  | .wheres cs => cs
  | _ => []

def ordering : Clause → List Order
  | .orders os => os
  | _ => []

def limitOf : Clause → Option (LimitKey × Int64)
  | .limit key n => some (key, n)
  | _ => none

def cursorOf (start : Bool) : Clause → Option (CursorKey × List PluginValue)
  | .cursor key ds => if key.isStart = start then some (key, ds) else none
  | _ => none

end Clause

section Parts

variable {β : Type} (q : FfiQuery)

theorem flatMap_option {α : Type} {f : α → Clause} {g : Clause → List β} (h : ∀ a, g (f a) = [])
    (o : Option α) : (o.map f).toList.flatMap g = [] := by
  cases o with
  | none => rfl
  | some a => simp [h]

theorem flatMap_if {g : Clause → List β} {clause : Clause} (h : g clause = []) (b : Bool) :
    (if b then [] else [clause]).flatMap g = [] := by
  cases b with
  | true => rfl
  | false => simp [h]

theorem flatMap_group {g : Clause → List β} (h : g .group = []) :
    (if q.isGroup then [Clause.group] else []).flatMap g = [] := by
  split
  · simp [h]
  · rfl

theorem clauses_conditions : q.clauses.flatMap Clause.conditions = q.parameters.wheres := by
  have hwheres : (if q.parameters.wheres.isEmpty then []
      else [Clause.wheres q.parameters.wheres]).flatMap Clause.conditions = q.parameters.wheres := by
    cases q.parameters.wheres with
    | nil => rfl
    | cons c cs => exact List.flatMap_singleton ..
  have hgroup := flatMap_group q (show Clause.conditions .group = [] from rfl)
  have horders := flatMap_if (show Clause.conditions (.orders q.parameters.orderBy) = [] from rfl)
  have hlimit := fun key => flatMap_option fun n => show Clause.conditions (.limit key n) = [] from rfl
  have hcursor := fun key =>
    flatMap_option fun ds => show Clause.conditions (.cursor key ds) = [] from rfl
  simp only [FfiQuery.clauses, List.flatMap_append, hwheres, hgroup, horders, hlimit, hcursor,
    List.nil_append, List.append_nil]

theorem clauses_ordering : q.clauses.flatMap Clause.ordering = q.parameters.orderBy := by
  have horders : (if q.parameters.orderBy.isEmpty then []
      else [Clause.orders q.parameters.orderBy]).flatMap Clause.ordering = q.parameters.orderBy := by
    cases q.parameters.orderBy with
    | nil => rfl
    | cons o os => exact List.flatMap_singleton ..
  have hgroup := flatMap_group q (show Clause.ordering .group = [] from rfl)
  have hwheres := flatMap_if (show Clause.ordering (.wheres q.parameters.wheres) = [] from rfl)
  have hlimit := fun key => flatMap_option fun n => show Clause.ordering (.limit key n) = [] from rfl
  have hcursor := fun key =>
    flatMap_option fun ds => show Clause.ordering (.cursor key ds) = [] from rfl
  simp only [FfiQuery.clauses, List.flatMap_append, horders, hgroup, hwheres, hlimit, hcursor,
    List.nil_append, List.append_nil]

theorem lastOf_option {α : Type} {f : α → Clause} {g : Clause → Option β} {h : α → β}
    (hg : ∀ a, g (f a) = some (h a)) (o : Option α) : lastOf g (o.map f).toList = o.map h := by
  cases o with
  | none => rfl
  | some a => exact (lastOf_singleton _).trans (hg a)

theorem lastOf_option_none {α : Type} {f : α → Clause} {g : Clause → Option β}
    (hg : ∀ a, g (f a) = none) (o : Option α) : lastOf g (o.map f).toList = none := by
  cases o with
  | none => rfl
  | some a => exact (lastOf_singleton _).trans (hg a)

theorem lastOf_if {g : Clause → Option β} {clause : Clause} (h : g clause = none) (b : Bool) :
    lastOf g (if b then [] else [clause]) = none := by
  cases b with
  | true => rfl
  | false => exact (lastOf_singleton _).trans h

theorem lastOf_group {g : Clause → Option β} (h : g .group = none) :
    lastOf g (if q.isGroup then [Clause.group] else []) = none := by
  split
  · exact (lastOf_singleton _).trans h
  · rfl

/-- The limit that comes last in the spec is limitToLast. -/
theorem clauses_limit : lastOf Clause.limitOf q.clauses =
    ((q.parameters.limits .limitToLast).map (Prod.mk .limitToLast)).or
      ((q.parameters.limits .limit).map (Prod.mk .limit)) := by
  have hgroup := lastOf_group q (show Clause.limitOf .group = none from rfl)
  have hwheres := lastOf_if (show Clause.limitOf (.wheres q.parameters.wheres) = none from rfl)
  have horders := lastOf_if (show Clause.limitOf (.orders q.parameters.orderBy) = none from rfl)
  have hlimit := fun key =>
    lastOf_option fun n => show Clause.limitOf (.limit key n) = some (Prod.mk key n) from rfl
  have hcursor := fun key =>
    lastOf_option_none fun ds => show Clause.limitOf (.cursor key ds) = none from rfl
  simp only [FfiQuery.clauses, lastOf_append, hgroup, hwheres, horders, hlimit, hcursor,
    Option.none_or, Option.or_none]

/-- The cursor that comes last at an end is the exclusive one. -/
theorem clauses_cursor {key : CursorKey} (hkey : key.exclusive = true) :
    lastOf (Clause.cursorOf key.isStart) q.clauses =
      ((q.cuts key).map (Prod.mk key)).or ((q.cuts key.other).map (Prod.mk key.other)) := by
  have hgroup := fun start => lastOf_group q (show Clause.cursorOf start .group = none from rfl)
  have hwheres := fun start =>
    lastOf_if (show Clause.cursorOf start (.wheres q.parameters.wheres) = none from rfl)
  have horders := fun start =>
    lastOf_if (show Clause.cursorOf start (.orders q.parameters.orderBy) = none from rfl)
  have hlimit := fun start key =>
    lastOf_option_none fun n => show Clause.cursorOf start (.limit key n) = none from rfl
  have hcursor : ∀ start (key : CursorKey) (o : Option (List PluginValue)),
      lastOf (Clause.cursorOf start) (o.map (Clause.cursor key)).toList =
        if key.isStart = start then o.map (Prod.mk key) else none := by
    intro start key o
    split
    · next hside => exact lastOf_option (fun ds => if_pos hside) o
    · next hside => exact lastOf_option_none (fun ds => if_neg hside) o
  simp only [FfiQuery.clauses, lastOf_append, hgroup, hwheres, horders, hlimit, hcursor]
  cases key with
  | startAt => cases hkey
  | endAt => cases hkey
  | startAfter => simp [CursorKey.isStart, CursorKey.other]
  | endBefore => simp [CursorKey.isStart, CursorKey.other]

theorem cuts_of_clause {key : CursorKey} {ds : List PluginValue}
    (h : Clause.cursor key ds ∈ q.clauses) : q.cuts key = some ds := by
  have hcut : ∀ k, Clause.cursor key ds ∈ ((q.cuts k).map (Clause.cursor k)).toList →
      q.cuts key = some ds := by
    intro k hk
    rw [Option.mem_toList, Option.map_eq_some_iff] at hk
    obtain ⟨es, hes, hclause⟩ := hk
    cases hclause
    exact hes
  simp only [FfiQuery.clauses, List.mem_append] at h
  rcases h with (((((((h | h) | h) | h) | h) | h) | h) | h) | h
  · split at h <;> simp at h
  · split at h <;> simp at h
  · split at h <;> simp at h
  · simp at h
  · simp at h
  · exact hcut _ h
  · exact hcut _ h
  · exact hcut _ h
  · exact hcut _ h

end Parts

section Ran

variable {sdk : Sdk} {package : CborPackage} {q : FfiQuery} {query : Query}

/-- The query that is run is what comes of the clauses. -/
theorem ran_yields {c : Dart.CborValue} {len : Option Width} {es : List (Item × Item)}
    (hes : List.Forall₂ (EntryItem package.toString) q.clauses es)
    (hwf : (Item.map len es).WF)
    (hc : encodeFirestoreValue package.toString (specObject q.spec) = .ok c)
    (hbytes : package.encode c = (Item.map len es).bytes) (h : q.Runs sdk package query) :
    ∃ sts path group,
      List.Forall₂ (fun (p : Clause × (Item × Item)) st => p.1.Yields p.2.2 st)
        (q.clauses.zip es) sts ∧ query = sts.foldl Statement.put (.base group path) := by
  obtain ⟨bytes, hspec, hrun⟩ := h
  unfold encodeSpec at hspec
  split at hspec
  · next hempty =>
    cases hspec
    obtain ⟨base, hbase, hrun⟩ := bind_ok hrun
    cases hrun
    have hnil : q.clauses = [] := by
      rw [spec_eq, List.isEmpty_map] at hempty
      exact List.isEmpty_iff.mp hempty
    rw [hnil]
    exact ⟨[], _, _, .nil, collection_ok hbase⟩
  · rw [hc] at hspec
    cases hspec
    rw [hbytes] at hrun
    have hbytes' : (⟨len, es, [], hwf⟩ : SpecInput).bytes = (Item.map len es).bytes := by
      rw [SpecInput.bytes, List.append_nil]
    rw [← hbytes'] at hrun
    have hruns : List.Forall₂ (fun e (p : Clause × (Item × Item)) =>
        EntryRuns sdk (p.1.Yields p.2.2) e) es (q.clauses.zip es) := by
      refine (paired hes).imp ?_
      intro e p hp
      obtain ⟨rfl, name, c, hname, hkey, hc, hx⟩ := hp
      obtain ⟨clause, e⟩ := p
      obtain ⟨k, y⟩ := e
      cases hname
      exact Clause.runs hkey hc hx
    obtain ⟨sts, hsts, hquery⟩ := SpecInput.run hruns hrun
    exact ⟨sts, _, _, hsts, hquery⟩

end Ran

/-- Every integer in the value of an entry is within int64. -/
def WithinAt (es : List (Clause × (Item × Item))) (key : SpecKey) : Prop :=
  ∀ e ∈ es, e.1.entry.1 = key → IntsWithin e.2.2

section Yields

variable {es : List (Clause × (Item × Item))} {sts : List Statement}

theorem forall₂_append {α β : Type} {R : α → β → Prop} {as bs : List α} {cs ds : List β}
    (hlen : cs.length = as.length) :
    List.Forall₂ R (as ++ bs) (cs ++ ds) ↔ List.Forall₂ R as cs ∧ List.Forall₂ R bs ds := by
  induction as generalizing cs with
  | nil =>
    obtain rfl := List.eq_nil_of_length_eq_zero hlen
    exact (and_iff_right .nil).symm
  | cons a as ih =>
    cases cs with
    | nil => cases hlen
    | cons c cs =>
      rw [List.cons_append, List.cons_append, List.forall₂_cons, List.forall₂_cons,
        ih (Nat.succ.inj hlen), and_assoc]

theorem within_cons {e : Clause × (Item × Item)} {key : SpecKey} :
    WithinAt (e :: es) key ↔ (e.1.entry.1 = key → IntsWithin e.2.2) ∧ WithinAt es key :=
  List.forall_mem_cons

theorem within_other {e : Clause × (Item × Item)} {key : SpecKey} (h : e.1.entry.1 ≠ key) :
    WithinAt (e :: es) key ↔ WithinAt es key :=
  within_cons.trans (and_iff_right fun hkey => absurd hkey h)

/-- As many filters as conditions, the same ones when the integers fit. -/
theorem filters_yield (h : List.Forall₂ (fun e st => Clause.Yields e.1 e.2.2 st) es sts) :
    (filtersOf sts).length = (es.flatMap fun e => e.1.conditions).length ∧
      (List.Forall₂ SameFilter (es.flatMap fun e => e.1.conditions) (filtersOf sts) ↔
        WithinAt es .wheres) := by
  induction h with
  | nil => exact ⟨rfl, iff_of_true .nil (by intro e he; cases he)⟩
  | @cons e st es sts he hrest ih =>
    obtain ⟨hlen, hiff⟩ := ih
    obtain ⟨clause, key, y⟩ := e
    rw [List.flatMap_cons]
    cases he with
    | wheres hfs hsame =>
      rw [filtersOf, Clause.conditions, List.length_append, List.length_append, hfs, hlen]
      refine ⟨rfl, ?_⟩
      rw [forall₂_append hfs, hsame, hiff, within_cons]
      exact and_congr_left fun _ => ⟨fun h _ => h, fun h => h rfl⟩
    | group => exact ⟨hlen, hiff.trans (within_other (by intro h; cases h)).symm⟩
    | orders => exact ⟨hlen, hiff.trans (within_other (by intro h; cases h)).symm⟩
    | limit hn => exact ⟨hlen, hiff.trans (within_other (by intro h; cases h)).symm⟩
    | cursor hvs => exact ⟨hlen, hiff.trans (within_other (by intro h; cases h)).symm⟩

theorem orders_yield (h : List.Forall₂ (fun e st => Clause.Yields e.1 e.2.2 st) es sts) :
    ordersOf sts = (es.flatMap fun e => e.1.ordering).map Order.native := by
  induction h with
  | nil => rfl
  | @cons e st es sts he hrest ih =>
    obtain ⟨clause, key, y⟩ := e
    rw [List.flatMap_cons, List.map_append, ← ih]
    cases he <;> rfl

theorem limit_yields (h : List.Forall₂ (fun e st => Clause.Yields e.1 e.2.2 st) es sts) :
    Option.Rel (fun l n => n.1 = l.1 ∧ n.2.toInt = l.2.toInt)
      (lastOf (fun e : Clause × (Item × Item) => e.1.limitOf) es)
      (lastOf Statement.limitOf sts) := by
  refine lastOf_rel ?_ h
  intro e st he
  obtain ⟨clause, key, y⟩ := e
  cases he with
  | limit hn => exact .some ⟨rfl, hn⟩
  | _ => exact .none

/-- The keys of the entries differ, so one entry tells about its key. -/
theorem within_one {e : Clause × (Item × Item)} (he : e ∈ es)
    (hkeys : (es.map fun e => e.1.entry.1).Nodup) : WithinAt es e.1.entry.1 ↔ IntsWithin e.2.2 := by
  constructor
  · exact fun h => h e he rfl
  · intro h d hd hkey
    rw [List.inj_on_of_nodup_map hkeys hd he hkey]
    exact h

theorem cursor_yields (h : List.Forall₂ (fun e st => Clause.Yields e.1 e.2.2 st) es sts)
    (hkeys : (es.map fun e => e.1.entry.1).Nodup) (start : Bool) :
    Option.Rel
      (fun c n => n.1 = c.1 ∧ (List.Forall₂ SameValue c.2 n.2 ↔ WithinAt es (.cursor c.1)))
      (lastOf (fun e : Clause × (Item × Item) => e.1.cursorOf start) es)
      (lastOf (Statement.cursorOf start) sts) := by
  have hmem : List.Forall₂ (fun e st => e ∈ es ∧ Clause.Yields e.1 e.2.2 st) es sts :=
    (List.forall₂_and_left es sts).mpr ⟨fun e he => he, h⟩
  refine lastOf_rel ?_ hmem
  intro e st he
  obtain ⟨hmem, he⟩ := he
  have hone := within_one hmem hkeys
  obtain ⟨clause, key, y⟩ := e
  cases he with
  | @cursor k ds _ vs hvs =>
    show Option.Rel _ (if k.isStart = start then some (k, ds) else none)
      (if k.isStart = start then some (k, vs) else none)
    by_cases hside : k.isStart = start
    · rw [if_pos hside, if_pos hside]
      exact .some ⟨rfl, hvs.trans hone.symm⟩
    · rw [if_neg hside, if_neg hside]
      exact .none
  | _ => exact .none

end Yields

def Query.cursor (q : Query) (start : Bool) : Option (CursorKey × List FieldValue) :=
  if start then q.startCursor else q.endCursor

/-- What a native query has of the query that it is run for. -/
structure FfiQuery.Yields (q : FfiQuery) (es : List (Clause × (Item × Item))) (query : Query) :
    Prop where
  filters : query.filters.length = q.parameters.wheres.length
  same : List.Forall₂ SameFilter q.parameters.wheres query.filters ↔ WithinAt es .wheres
  orders : query.orders = q.parameters.orderBy.map Order.native
  limit : Option.Rel (fun l n => n.1 = l.1 ∧ n.2.toInt = l.2.toInt)
    (lastOf Clause.limitOf q.clauses) query.limit
  cursor : ∀ start, Option.Rel
    (fun c n => n.1 = c.1 ∧ (List.Forall₂ SameValue c.2 n.2 ↔ WithinAt es (.cursor c.1)))
    (lastOf (Clause.cursorOf start) q.clauses) (query.cursor start)

theorem FfiQuery.Runs.yields {sdk : Sdk} {package : CborPackage} {q : FfiQuery} {query : Query}
    {c : Dart.CborValue} {len : Option Width} {es : List (Item × Item)}
    (h : q.Runs sdk package query) (hes : List.Forall₂ (EntryItem package.toString) q.clauses es)
    (hwf : (Item.map len es).WF)
    (hc : encodeFirestoreValue package.toString (specObject q.spec) = .ok c)
    (hbytes : package.encode c = (Item.map len es).bytes) :
    q.Yields (q.clauses.zip es) query := by
  obtain ⟨sts, path, group, hsts, rfl⟩ := ran_yields hes hwf hc hbytes h
  have hzip : (q.clauses.zip es).map Prod.fst = q.clauses :=
    List.map_fst_zip (le_of_eq hes.length_eq)
  have hflat : ∀ {β : Type} (f : Clause → List β),
      ((q.clauses.zip es).flatMap fun e => f e.1) = q.clauses.flatMap f := by
    intro β f
    rw [← hzip, List.flatMap_map, hzip]
  have hlast : ∀ {β : Type} (f : Clause → Option β),
      lastOf (fun e : Clause × (Item × Item) => f e.1) (q.clauses.zip es) = lastOf f q.clauses := by
    intro β f
    rw [← lastOf_map Prod.fst, hzip]
  have hkeys : ((q.clauses.zip es).map fun e => e.1.entry.1).Nodup := by
    have hnodup := clauses_nodup q
    rw [← hzip, List.map_map] at hnodup
    exact hnodup
  obtain ⟨-, -, hfilters, horders⟩ := fold_rest sts (.base group path)
  obtain ⟨hlength, hsame⟩ := filters_yield hsts
  have hlimit := limit_yields hsts
  rw [hflat Clause.conditions, clauses_conditions] at hlength hsame
  rw [hlast Clause.limitOf] at hlimit
  refine ⟨by rw [hfilters]; exact hlength, by rw [hfilters]; exact hsame, ?_, ?_, ?_⟩
  · rw [horders, ← clauses_ordering, ← hflat, ← orders_yield hsts]
    rfl
  · have hslot : (sts.foldl Statement.put (.base group path)).limit =
        lastOf Statement.limitOf sts :=
      (@lastOf_fold _ _ _ _ _ Query.limit put_limit sts _).trans Option.or_none
    rw [hslot]
    exact hlimit
  · intro start
    have hcursor := cursor_yields hsts hkeys start
    rw [hlast (Clause.cursorOf start)] at hcursor
    have hslot : (sts.foldl Statement.put (.base group path)).cursor start =
        lastOf (Statement.cursorOf start) sts := by
      cases start with
      | true => exact (@lastOf_fold _ _ _ _ _ Query.startCursor put_startCursor sts _).trans Option.or_none
      | false => exact (@lastOf_fold _ _ _ _ _ Query.endCursor put_endCursor sts _).trans Option.or_none
    rw [hslot]
    exact hcursor

end Firestore
