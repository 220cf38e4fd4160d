import FirebaseFfi.Assoc.Assign
import FirebaseFfi.Firestore.QueryRun

namespace Firestore
open Cbor Tinycbor
open Dart (ascii bind_ok)

theorem getLast?_iff {α : Type} {l : List α} (h : ∀ a ∈ l, ∀ b ∈ l, a = b) {a : α} :
    l.getLast? = some a ↔ a ∈ l := by
  constructor
  · exact List.mem_of_getLast?
  · intro ha
    cases hlast : l.getLast? with
    | none =>
      rw [List.getLast?_eq_none_iff.mp hlast] at ha
      cases ha
    | some b => rw [h b (List.mem_of_getLast? hlast) a ha]

def Statement.limitOf : Statement → Option (LimitKey × Int32)
  | .limit key n => some (key, n)
  | _ => none

def Statement.cursorOf (start : Bool) : Statement → Option (CursorKey × List FieldValue)
  | .cursor key vs => if key.isStart = start then some (key, vs) else none
  | _ => none

/-- The filters of one clause leave the rest of the query alone. -/
theorem fold_filters (fs : List Filter) (q : Query) :
    fs.foldl (fun q f => q.add (.filter f)) q = { q with filters := q.filters ++ fs } := by
  induction fs generalizing q with
  | nil => simp
  | cons f fs ih =>
    rw [List.foldl_cons, ih]
    simp [Query.add]

theorem fold_orders (os : List (Field × Direction)) (q : Query) :
    os.foldl (fun q o => q.add (.orderBy o.1 o.2)) q = { q with orders := q.orders ++ os } := by
  induction os generalizing q with
  | nil => simp
  | cons o os ih =>
    rw [List.foldl_cons, ih]
    simp [Query.add]

theorem put_limit (q : Query) (st : Statement) :
    (st.put q).limit = st.limitOf.or q.limit := by
  cases st with
  | filters fs => simp [Statement.put, fold_filters, Statement.limitOf]
  | orders os => simp [Statement.put, fold_orders, Statement.limitOf]
  | group on => rfl
  | limit key n => rfl
  | cursor key vs =>
    simp only [Statement.put, Query.add, Statement.limitOf]
    split <;> rfl

theorem put_startCursor (q : Query) (st : Statement) :
    (st.put q).startCursor = (st.cursorOf true).or q.startCursor := by
  cases st with
  | filters fs => simp [Statement.put, fold_filters, Statement.cursorOf]
  | orders os => simp [Statement.put, fold_orders, Statement.cursorOf]
  | group on => rfl
  | limit key n => rfl
  | cursor key vs => cases key <;> rfl

theorem put_endCursor (q : Query) (st : Statement) :
    (st.put q).endCursor = (st.cursorOf false).or q.endCursor := by
  cases st with
  | filters fs => simp [Statement.put, fold_filters, Statement.cursorOf]
  | orders os => simp [Statement.put, fold_orders, Statement.cursorOf]
  | group on => rfl
  | limit key n => rfl
  | cursor key vs => cases key <;> rfl

/-- Filters and orders add up, and the base of the query stays. -/
theorem fold_rest (sts : List Statement) (q : Query) :
    (sts.foldl Statement.put q).path = q.path ∧
      (sts.foldl Statement.put q).collectionGroup = q.collectionGroup ∧
      (sts.foldl Statement.put q).filters = q.filters ++ filtersOf sts ∧
      (sts.foldl Statement.put q).orders = q.orders ++ ordersOf sts := by
  induction sts generalizing q with
  | nil => simp [filtersOf, ordersOf]
  | cons st sts ih =>
    obtain ⟨hpath, hgroup, hfilters, horders⟩ := ih (st.put q)
    rw [List.foldl_cons, hpath, hgroup, hfilters, horders]
    cases st with
    | filters fs => simp [Statement.put, fold_filters, filtersOf, ordersOf]
    | orders os => simp [Statement.put, fold_orders, filtersOf, ordersOf]
    | group on => simp [Statement.put, filtersOf, ordersOf]
    | limit key n => simp [Statement.put, Query.add, filtersOf, ordersOf]
    | cursor key vs => cases key <;> simp [Statement.put, Query.add, CursorKey.isStart, filtersOf, ordersOf]

theorem mem_limitOf {sts : List Statement} {key : LimitKey} {n : Int32} :
    (key, n) ∈ sts.filterMap Statement.limitOf ↔ .limit key n ∈ sts := by
  rw [List.mem_filterMap]
  constructor
  · rintro ⟨st, hst, hpick⟩
    cases st with
    | limit key' n' =>
      cases hpick
      exact hst
    | _ => cases hpick
  · intro h
    exact ⟨_, h, rfl⟩

theorem mem_cursorOf {start : Bool} {sts : List Statement} {key : CursorKey}
    {vs : List FieldValue} :
    (key, vs) ∈ sts.filterMap (Statement.cursorOf start) ↔
      key.isStart = start ∧ .cursor key vs ∈ sts := by
  rw [List.mem_filterMap]
  constructor
  · rintro ⟨st, hst, hpick⟩
    cases st with
    | cursor key' vs' =>
      simp only [Statement.cursorOf] at hpick
      split at hpick
      · next hside =>
        cases hpick
        exact ⟨hside, hst⟩
      · cases hpick
    | _ => cases hpick
  · rintro ⟨hside, h⟩
    exact ⟨_, h, by simp [Statement.cursorOf, hside]⟩

theorem mem_groupOf {sts : List Statement} {on : Bool} :
    on ∈ sts.filterMap Statement.groupOf ↔ .group on ∈ sts := by
  rw [List.mem_filterMap]
  constructor
  · rintro ⟨st, hst, hpick⟩
    cases st with
    | group on' =>
      cases hpick
      exact hst
    | _ => cases hpick
  · intro h
    exact ⟨_, h, rfl⟩

/-- A cursor of one end of the query is the one that was asked for. -/
theorem cursor_slot {sts : List Statement} (h : Compatible sts) (start : Bool) {key : CursorKey}
    {vs : List FieldValue} :
    (sts.filterMap (Statement.cursorOf start)).getLast? = some (key, vs) ↔
      key.isStart = start ∧ .cursor key vs ∈ sts := by
  rw [getLast?_iff, mem_cursorOf]
  rintro ⟨key, vs⟩ ha ⟨key', vs'⟩ hb
  obtain ⟨hside, hmem⟩ := mem_cursorOf.mp ha
  obtain ⟨hside', hmem'⟩ := mem_cursorOf.mp hb
  exact h.cursor hmem hmem' (hside.trans hside'.symm)

/-- Statements that are not at odds take effect together. -/
theorem Compatible.agrees {sts : List Statement} (h : Compatible sts) (path : Bytes) :
    Agrees path sts (sts.foldl Statement.put (.base (wantsGroup sts) path)) := by
  obtain ⟨hpath, hgroup, hfilters, horders⟩ := fold_rest sts (.base (wantsGroup sts) path)
  have hlimit := Assoc.lastOf_fold put_limit sts (.base (wantsGroup sts) path)
  have hstart := Assoc.lastOf_fold put_startCursor sts (.base (wantsGroup sts) path)
  have hend := Assoc.lastOf_fold put_endCursor sts (.base (wantsGroup sts) path)
  refine ⟨hpath, hfilters, horders, ?_, ?_, ?_, ?_, ?_⟩
  · intro on hon
    rw [hgroup]
    show wantsGroup sts = on
    unfold wantsGroup
    cases hhead : (sts.filterMap Statement.groupOf).head? with
    | none =>
      have hmem := mem_groupOf.mpr hon
      rw [List.head?_eq_none_iff.mp hhead] at hmem
      cases hmem
    | some on' => exact h.group (mem_groupOf.mp (List.mem_of_head? hhead)) hon
  · intro hon
    rw [hgroup] at hon
    have hon : wantsGroup sts = true := hon
    unfold wantsGroup at hon
    cases hhead : (sts.filterMap Statement.groupOf).head? with
    | none =>
      rw [hhead] at hon
      cases hon
    | some on' =>
      rw [hhead] at hon
      cases hon
      exact mem_groupOf.mp (List.mem_of_head? hhead)
  · intro key n
    rw [hlimit]
    simp only [Query.base, Option.or_none, Assoc.lastOf]
    rw [getLast?_iff, mem_limitOf]
    rintro ⟨key, n⟩ ha ⟨key', n'⟩ hb
    exact h.limit (mem_limitOf.mp ha) (mem_limitOf.mp hb)
  · intro key vs
    rw [hstart]
    simp only [Query.base, Option.or_none, Assoc.lastOf]
    exact cursor_slot h true
  · intro key vs
    rw [hend]
    simp only [Query.base, Option.or_none, Assoc.lastOf]
    rw [cursor_slot h false, Bool.not_eq_true]

theorem Compatible.nil : Compatible [] where
  group h := by cases h
  limit h := by cases h
  cursor h := by cases h

section Ends

variable {sdk : Sdk} {it r : CborValue} {q : Query}

theorem readText_shrinks {text : Bytes} (hit : Live it) (h : readText it = .ok (r, text)) :
    Shrinks it r := by
  unfold readText at h
  split at h
  · next htype =>
    obtain ⟨p, hdup, h⟩ := bind_ok h
    cases h
    have hstarted := hit.of_type (by intro ht; rw [ht] at htype; cases htype)
    exact dupString_shrinks hstarted (checked_ok hdup)
  · cases h

theorem readText_ends (it : CborValue) : Ends (readText it) := by
  unfold readText
  split
  · exact (Ends.checked _).bind fun _ _ => .ok _
  · exact .refused

/-- The pre-pass has fuel for a turn on each byte, and needs no more. -/
theorem wantsCollectionGroup_fuel {fuel fuel' : Nat} (hit : Live it) (hfuel : it.src.length < fuel)
    (hfuel' : it.src.length < fuel') :
    wantsCollectionGroup fuel it = wantsCollectionGroup fuel' it := by
  induction fuel generalizing it fuel' with
  | zero => omega
  | succ fuel ih =>
    cases fuel' with
    | zero => omega
    | succ fuel' =>
      rw [wantsCollectionGroup, wantsCollectionGroup]
      split
      · rfl
      · split
        · rfl
        · next next key htext =>
          have hkey := readText_shrinks hit htext
          split
          · rfl
          · split
            · rfl
            · next last hadv =>
              have hvalue := advance_shrinks hkey.live hadv
              have hlt := Nat.lt_trans hvalue.length hkey.length
              exact ih hvalue.live (by omega) (by omega)

theorem apply_ends (q : Query) (c : Constraint) : Ends (sdk.apply q c) := by
  unfold Sdk.apply
  split
  · exact .ok _
  · exact .threw

theorem applyWhere_ends (field op : Bytes) (v : FieldValue) : Ends (applyWhere sdk q field op v) := by
  unfold applyWhere
  split
  · exact .refused
  · split
    · exact .refused
    · split
      · exact .refused
      · exact apply_ends _ _

theorem applyWhereClause_ends (hit : Started it) : Ends (applyWhereClause sdk it q) := by
  refine (Ends.checked _).bind fun elem henter => ?_
  have hentered := enter_shrinks hit.src_ne (checked_ok henter)
  refine (readText_ends _).bind fun p htext => ?_
  have hfirst := readText_shrinks hentered.live htext
  refine (readText_ends _).bind fun p' htext' => ?_
  have hsecond := readText_shrinks hfirst.live htext'
  have hpos := hit.length_pos
  have hlt := Nat.lt_trans hsecond.length (Nat.lt_trans hfirst.length hentered.length)
  have hdec := decodeValue_terminates sdk.document it.src.length
  exact (hdec.ends hsecond.live hpos (Nat.le_of_lt hlt)).bind fun _ _ => applyWhere_ends _ _ _

theorem applyOrderClause_ends (it : CborValue) : Ends (applyOrderClause sdk it q) := by
  refine (Ends.checked _).bind fun elem _ => (readText_ends _).bind fun p _ =>
    (readText_ends _).bind fun p' _ => ?_
  split
  split
  · exact .refused
  · exact apply_ends _ _

theorem clauseStep_progresses (apply : CborValue → Query → Except Failure Query) :
    Progresses (clauseStep apply) := by
  intro it q it' q' hit h
  unfold clauseStep at h
  split at h
  · obtain ⟨q₁, -, h⟩ := bind_ok h
    obtain ⟨next, hadv, h⟩ := bind_ok h
    cases h
    exact advance_shrinks (.inl hit) (checked_ok hadv)
  · cases h

theorem applyClauseArray_ends {apply : CborValue → Query → Except Failure Query}
    (happly : ∀ {it q}, Started it → Ends (apply it q)) (hit : Started it) :
    Ends (applyClauseArray apply it q) := by
  unfold applyClauseArray
  split
  · refine (Ends.checked _).bind fun elem henter => ?_
    have hentered := enter_shrinks hit.src_ne (checked_ok henter)
    have hlt := hentered.length
    refine Ends.bind ?_ fun _ _ => .ok _
    refine whileNotAtEnd_fuel (clauseStep_progresses apply) ?_ hentered.live (Nat.le_refl _)
      (by omega)
    intro elem q hstarted _
    unfold clauseStep
    split
    · exact (happly hstarted).bind fun _ _ => (Ends.checked _).bind fun _ _ => .ok _
    · exact Ends.refused
  · exact .refused

theorem readCursorValues_ends (hit : Started it) : Ends (readCursorValues sdk it) := by
  have hdec := decodeValue_terminates sdk.document it.src.length
  unfold readCursorValues
  split
  · refine (Ends.checked _).bind fun elem henter => ?_
    have hentered := enter_shrinks hit.src_ne (checked_ok henter)
    have hlt := hentered.length
    refine Ends.bind ?_ fun _ _ => .ok _
    exact whileNotAtEnd_fuel (pushElement_progresses hdec) (pushElement_ends hdec) hentered.live
      (Nat.le_of_lt hlt) (by omega)
  · exact .refused

theorem readLimit_ends (it : CborValue) : Ends (readLimit it) := by
  unfold readLimit
  dsimp only
  split
  · exact .ok _
  · exact .refused

/-- At the end of the map the value of a key is of no type that has a clause. -/
theorem applyEntry_ends (key : Bytes) (hit : Live it) : Ends (applyEntry sdk key it q) := by
  have harray : ∀ {apply : CborValue → Query → Except Failure Query},
      (∀ {it q}, Started it → Ends (apply it q)) → Ends (applyClauseArray apply it q) := by
    intro apply happly
    rcases hit with hit | hit
    · exact applyClauseArray_ends happly hit
    · rw [applyClauseArray, if_neg (by rw [hit.2]; decide)]
      exact Ends.refused
  unfold applyEntry
  split
  · exact harray applyWhereClause_ends
  · exact harray fun {it q} _ => applyOrderClause_ends it
  · refine Ends.bind ?_ fun values _ => ?_
    · rcases hit with hit | hit
      · exact readCursorValues_ends hit
      · rw [readCursorValues, if_neg (by rw [hit.2]; decide)]
        exact .refused
    · split
      · exact .refused
      · exact apply_ends _ _
  · exact .ok _
  · exact (readLimit_ends _).bind fun _ _ => apply_ends _ _
  · exact .refused

theorem buildEntry_progresses : Progresses (buildEntry sdk) := by
  intro it q it' q' hit h
  obtain ⟨p, htext, h⟩ := bind_ok h
  obtain ⟨q₁, -, h⟩ := bind_ok h
  obtain ⟨next, hadv, h⟩ := bind_ok h
  cases h
  have hkey := readText_shrinks (.inl hit) htext
  have hvalue := advance_shrinks hkey.live (checked_ok hadv)
  exact ⟨Nat.lt_trans hvalue.length hkey.length, hvalue.live⟩

theorem buildQuery_ends (sdk : Sdk) (path spec : Bytes) : Ends (buildQuery sdk path spec) := by
  unfold buildQuery
  refine Ends.bind ?_ fun query _ => ?_
  · unfold Sdk.collection
    split
    · exact .ok _
    · exact .threw
  · split
    · exact .ok _
    · refine (Ends.checked _).bind fun it hinit => ?_
      obtain ⟨hsrc, hstarted⟩ := parserInit_live (checked_ok hinit)
      split
      · refine (Ends.checked _).bind fun entry henter => ?_
        have hentered := enter_shrinks hstarted.src_ne (checked_ok henter)
        have hlt := hentered.length
        rw [hsrc] at hlt
        refine Ends.bind ?_ fun _ _ => .ok _
        refine whileNotAtEnd_fuel buildEntry_progresses ?_ hentered.live (Nat.le_refl _) (by omega)
        intro it q hit _
        refine (readText_ends _).bind fun p htext => ?_
        have hkey := readText_shrinks (.inl hit) htext
        exact (applyEntry_ends _ hkey.live).bind fun _ _ => (Ends.checked _).bind fun _ _ => .ok _
      · exact .refused

end Ends

theorem collection_ok {sdk : Sdk} {group : Bool} {path : Bytes} {q : Query}
    (h : sdk.collection group path = .ok q) : q = .base group path := by
  unfold Sdk.collection at h
  split at h
  · cases h
    rfl
  · cases h

/-- The run over an accepted spec: the query is what comes of its entries. -/
theorem SpecInput.run {sdk : Sdk} {path : Bytes} {d : SpecInput} {β : Type}
    {mean : β → Statement → Prop} {bs : List β} {q : Query}
    (hruns : List.Forall₂ (fun e b => EntryRuns sdk (mean b) e) d.entries bs)
    (h : buildQuery sdk path d.bytes = .ok q) :
    ∃ sts, List.Forall₂ mean bs sts ∧
      q = sts.foldl Statement.put (.base (wantsGroup sts) path) := by
  have hpos := d.wf.length_pos
  have hne : d.bytes ≠ [] := by
    intro hempty
    have hlen := congrArg List.length hempty
    rw [SpecInput.bytes, List.length_append, List.length_nil] at hlen
    omega
  obtain ⟨it, hinit, hready⟩ := parserInit_item d.rest d.wf
  have hinit : cborParserInit d.bytes = .ok it := hinit
  have hmap : (it.type == .map) = true := by
    rw [hready.1.shows.type]
    rfl
  obtain ⟨base, hbase, h⟩ := bind_ok h
  rw [if_neg hne, hinit] at h
  obtain ⟨map, hchecked, h⟩ := bind_ok h
  cases hchecked
  rw [if_pos hmap] at h
  obtain ⟨entry, henter, h⟩ := bind_ok h
  obtain ⟨p, hloop, h⟩ := bind_ok h
  cases h
  have henter := checked_ok henter
  have hes : ∀ x ∈ flatten d.entries, x.WF := by
    obtain ⟨hk, hv⟩ := map_entries d.wf
    exact Item.WF.flatten hk hv
  obtain ⟨sts, hsts, hput, hwants⟩ :=
    entries_applied hruns hes (entered_map d.wf hready.1 henter) hloop
  have hgroup : specWantsCollectionGroup d.bytes = wantsGroup sts := by
    rw [specWantsCollectionGroup, hinit]
    simp only [hmap, if_true, henter]
    exact hwants
  exact ⟨sts, hsts, by rw [hput, collection_ok hbase, hgroup]⟩

/-- The run over an accepted spec whose entries all have a meaning. -/
theorem SpecInput.Says.run {sdk : Sdk} {path : Bytes} {d : SpecInput} {sts : List Statement}
    {q : Query} (hmean : d.Says sdk.document sts) (h : buildQuery sdk path d.bytes = .ok q) :
    q = sts.foldl Statement.put (.base (wantsGroup sts) path) := by
  obtain ⟨sts', hsts, hq⟩ := SpecInput.run (hmean.imp fun _ _ => EntrySays.runs) h
  rw [List.forall₂_eq_eq_eq] at hsts
  subst hsts
  exact hq

/-- The codes that a query is refused with, -3 and -4. -/
def Negative {α : Type} (r : Except Failure α) : Prop := r = .error .refused ∨ r = .error .threw

theorem Ends.cases {α : Type} {r : Except Failure α} (h : Ends r) : Negative r ∨ ∃ a, r = .ok a := by
  cases r with
  | ok a => exact .inr ⟨a, rfl⟩
  | error e =>
    cases e with
    | refused => exact .inl (.inl rfl)
    | threw => exact .inl (.inr rfl)
    | outOfFuel => exact absurd rfl h

/-- A spec is refused, or the query that it gives reflects it exactly when the
spec is whole and not at odds with itself. -/
theorem query_outcome (sdk : Sdk) (path spec : Bytes) :
    Negative (buildQuery sdk path spec) ∨
      ∃ q, buildQuery sdk path spec = .ok q ∧
        (Reflects sdk.document path spec q ↔ Lossless sdk.document spec) := by
  rcases (buildQuery_ends sdk path spec).cases with hneg | ⟨q, hq⟩
  · exact .inl hneg
  · refine .inr ⟨q, hq, Reflects.lossless, fun hless => ?_⟩
    rcases hless with hempty | ⟨d, hd, sts, hmean, hcompatible⟩
    · subst hempty
      obtain ⟨base, hbase, hq⟩ := bind_ok hq
      rw [if_pos rfl] at hq
      cases hq
      refine .inl ⟨rfl, ?_⟩
      rw [collection_ok hbase]
      exact Compatible.nil.agrees path
    · subst hd
      refine .inr ⟨d, rfl, sts, hmean, ?_⟩
      rw [hmean.run hq]
      exact hcompatible.agrees path

/-- `{"limit": 1, "limitToLast": 2}`. -/
def twoLimits : SpecInput where
  len := some .tiny
  entries := [(textItem (ascii "limit"), intItem 1), (textItem (ascii "limitToLast"), intItem 2)]
  rest := []
  wf := by
    refine .map (by simp [Width.limit]) ?_ ?_
    · simp only [List.mem_cons, List.not_mem_nil, or_false, forall_eq_or_imp, forall_eq]
      exact ⟨textItem_wf (by simp [ascii, maxSize, sizeMax]), textItem_wf (by simp [ascii, maxSize, sizeMax])⟩
    · simp only [List.mem_cons, List.not_mem_nil, or_false, forall_eq_or_imp, forall_eq]
      exact ⟨intItem_wf 1, intItem_wf 2⟩

/-- An SDK that takes everything. -/
def willing : Sdk where
  document := fun _ => true
  base := fun _ _ => true
  takes := fun _ _ => true

/-- The last limit is run with, and the first is dropped. -/
theorem twoLimits_accepted :
    (buildQuery willing (ascii "c") twoLimits.bytes).toOption.map (·.limit) =
      some (some (.limitToLast, 2)) := by decide +kernel

theorem EntrySays.limit {document : Document} {name : Str} {x : Item} {key : LimitKey}
    {st : Statement} (h : EntrySays document (.str true name, x) st)
    (hname : name.content = (SpecKey.limit key).name) : ∃ n, st = .limit key n := by
  cases h with
  | @entry _ _ _ key' hname' hvalue =>
    have hkey : specKeyOf key'.name = specKeyOf (SpecKey.limit key).name := by
      rw [← hname', hname]
    rw [specKeyOf_name, specKeyOf_name] at hkey
    cases hkey
    cases hvalue with
    | @limit _ _ n _ => exact ⟨n, rfl⟩

theorem query_reflects_broken : ¬ ∀ sdk path spec, Negative (buildQuery sdk path spec) ∨
    ∃ q, buildQuery sdk path spec = .ok q ∧ Reflects sdk.document path spec q := by
  intro h
  rcases h willing (ascii "c") twoLimits.bytes with hneg | ⟨q, hq, hreflects⟩
  · have haccepted := twoLimits_accepted
    rcases hneg with hneg | hneg <;> rw [hneg] at haccepted <;> cases haccepted
  · rcases hreflects with ⟨hempty, -⟩ | ⟨d, hd, sts, hmean, hagrees⟩
    · cases hempty
    · have hentries : d.entries = twoLimits.entries := SpecInput.unique hd
      unfold SpecInput.Says at hmean
      rw [hentries] at hmean
      rcases List.forall₂_cons_left_iff.mp hmean with ⟨first, others, hfirst, hothers, rfl⟩
      rcases List.forall₂_cons_left_iff.mp hothers with ⟨second, others, hsecond, -, rfl⟩
      obtain ⟨n, rfl⟩ := hfirst.limit (show _ = (SpecKey.limit .limit).name from rfl)
      obtain ⟨m, rfl⟩ := hsecond.limit (show _ = (SpecKey.limit .limitToLast).name from rfl)
      have hlimit := (hagrees.limit .limit n).mpr (by simp)
      rw [(hagrees.limit .limitToLast m).mpr (by simp)] at hlimit
      cases hlimit

end Firestore
