import FirebaseFfi.Firestore.DartReads
import FirebaseFfi.Firestore.FfiQuery
import FirebaseFfi.Firestore.QueryGrammar

namespace Firestore
open Cbor Dart
open Tinycbor (AtItem)

section Values

variable {toString : Object → Option Bytes}

theorem mapObject_tree {es : List (Bytes × Object)} {c : Dart.CborValue}
    (hc : encodeFirestoreValue toString (mapObject es) = .ok c)
    (h : ∀ e ∈ es, ∀ c, encodeFirestoreValue toString e.2 = .ok c → Tree true e.2) :
    Tree true (mapObject es) := by
  have hnodup : ((Assoc.assignAll [] es).map Prod.fst).Nodup := Assoc.assignAll_nodup (by simp)
  have hkeys : ((Assoc.assignAll [] es).map fun e => (Object.string e.1, e.2)).map Prod.fst =
      ((Assoc.assignAll [] es).map Prod.fst).map Object.string := by
    rw [List.map_map, List.map_map]
    rfl
  have hdistinct : (((Assoc.assignAll [] es).map
      fun e => (Object.string e.1, e.2)).map Prod.fst).Nodup := by
    rw [hkeys]
    exact hnodup.map fun a b hab => Object.string.inj hab
  have hstrings : ∀ e ∈ (Assoc.assignAll [] es).map fun e => (Object.string e.1, e.2),
      ∃ s, e.1 = .string s := by
    intro e he
    obtain ⟨e, -, rfl⟩ := List.mem_map.mp he
    exact ⟨e.1, rfl⟩
  obtain ⟨ces, hces, -⟩ := bind_ok hc
  obtain ⟨ces', -, hall⟩ := encodeMembers_distinct hstrings (by simpa [usedKeys] using hdistinct) hces
  refine .map hdistinct hstrings ?_
  intro e he
  obtain ⟨c, hc⟩ : ∃ c, encodeFirestoreValue toString e.2 = .ok c := by
    obtain ⟨i, hi, heq⟩ := List.mem_iff_getElem.mp he
    have hlt := hall.length_eq ▸ hi
    have hget := hall.get hi hlt
    simp only [List.get_eq_getElem, heq] at hget
    exact ⟨_, hget.2⟩
  obtain ⟨e, hmem, rfl⟩ := List.mem_map.mp he
  rcases Assoc.mem_assignAll hmem with hnil | hmem
  · cases hnil
  · exact h e hmem c hc

mutual
/-- What the codec takes of a plugin value is a tree. -/
theorem valueToFfi_tree : ∀ (v : PluginValue) {c : Dart.CborValue},
    encodeFirestoreValue toString (valueToFfi v) = .ok c → Tree true (valueToFfi v)
  | .null, _, _ => .null
  | .bool _, _, _ => .bool
  | .int _, _, _ => .int
  | .double _, _, _ => .double
  | .string _, _, _ => .string
  | .uint8List b, _, _ => by
    refine .list fun x hx => ?_
    obtain ⟨byte, -, rfl⟩ := List.mem_map.mp hx
    exact .int
  | .timestamp _ _, _, _ => .timestamp
  | .geoPoint _ _, _, _ => .geoPoint
  | .reference _, _, _ => .reference
  | .blob _, _, _ => .uint8List
  | .list vs, _, h => by
    obtain ⟨cs, hcs, -⟩ := bind_ok h
    exact .list (valuesToFfi_tree vs hcs)
  | .map es, _, h => mapObject_tree h (entriesToFfi_tree es)
  | .other _, _, h => by cases h
  | .delete, _, _ => .delete rfl
  | .serverTimestamp, _, _ => .serverTimestamp rfl
  | .arrayUnion vs, _, h => by
    obtain ⟨cs, hcs, -⟩ := bind_ok h
    exact .arrayUnion rfl (valuesToFfi_tree vs hcs)
  | .arrayRemove vs, _, h => by
    obtain ⟨cs, hcs, -⟩ := bind_ok h
    exact .arrayRemove rfl (valuesToFfi_tree vs hcs)
  | .incrementInt _, _, _ => .incrementInt rfl
  | .incrementDouble _, _, _ => .incrementDouble rfl

theorem valuesToFfi_tree : ∀ (vs : List PluginValue) {cs : List Dart.CborValue},
    encodeElements toString (valuesToFfi vs) = .ok cs → ∀ x ∈ valuesToFfi vs, Tree true x
  | [], _, _ => by simp [valuesToFfi]
  | v :: vs, _, h => by
    obtain ⟨c, hc, h⟩ := bind_ok h
    obtain ⟨cs, hcs, -⟩ := bind_ok h
    exact List.forall_mem_cons.mpr ⟨valueToFfi_tree v hc, valuesToFfi_tree vs hcs⟩

theorem entriesToFfi_tree : ∀ (es : List (Bytes × PluginValue)), ∀ e ∈ entriesToFfi es,
    ∀ c, encodeFirestoreValue toString e.2 = .ok c → Tree true e.2
  | [] => by simp [entriesToFfi]
  | (k, v) :: es =>
    List.forall_mem_cons.mpr ⟨fun _ hc => valueToFfi_tree v hc, entriesToFfi_tree es⟩
end

end Values

/-- The value of a clause and what the native side has for it. -/
def SameValue (d : PluginValue) (v : FieldValue) : Prop := SameTree (valueToFfi d) (toDart v)

/-- The filter has the field, the operator and the operand of the condition. -/
def SameFilter (c : Condition) (f : Filter) : Prop :=
  ∃ o v, c.op = Operator.name o ∧ o.filter (fieldOf (fieldName c.field)) v = some f ∧
    SameValue c.value v

def Order.native (o : Order) : Field × Direction :=
  (fieldOf (fieldName o.field), if o.descending then .descending else .ascending)

section Items

variable {toString : Object → Option Bytes} {document : Document}

theorem Settles.checked {α : Type} {T : Prop} {P : α → Prop} {r : Reading α} (h : Settles T P r) :
    r ≠ .unchecked := by
  intro hr
  rw [hr] at h
  exact h

theorem Settles.ran {α : Type} {T : Prop} {P : α → Prop} {r : Reading α} {v : α}
    (h : Settles T P r) (hr : r = .ok v) : P v := by
  rw [hr] at h
  exact h.2

theorem value_carried (document : Document) {d : PluginValue} {c : Dart.CborValue} {x : Item}
    (hc : encodeFirestoreValue toString (valueToFfi d) = .ok c) (hx : Emits c x) (hwf : x.WF) :
    Settles (Taken document x) (fun v => SameValue d v ↔ IntsWithin x) (readItem document x) :=
  (valueToFfi_tree d hc).carried hc hx hwf

theorem valuesToFfi_eq_map (ds : List PluginValue) : valuesToFfi ds = ds.map valueToFfi := by
  induction ds with
  | nil => rfl
  | cons d ds ih => rw [valuesToFfi, ih, List.map_cons]

theorem values_carried (document : Document) {ds : List PluginValue} {cs : List Dart.CborValue}
    {xs : List Item} (hcs : encodeElements toString (valuesToFfi ds) = .ok cs) (hx : EmitsAll cs xs)
    (hwf : ∀ x ∈ xs, x.WF) :
    Settles (∀ x ∈ xs, Taken document x)
      (fun vs => List.Forall₂ SameValue ds vs ↔ ∀ x ∈ xs, IntsWithin x)
      (readItems document xs) := by
  have htrees := valuesToFfi_tree ds hcs
  refine (elements_carried document hcs hx hwf fun d hd c x hc hx hwf =>
    (htrees d hd).carried hc hx hwf).imp fun vs hvs => ?_
  rw [valuesToFfi_eq_map, toDarts_eq_map, List.forall₂_map_left_iff,
    List.forall₂_map_right_iff] at hvs
  exact hvs

theorem operator_name_inj {o o' : Operator} (h : o.name = o'.name) : o = o' := by
  have hop := operatorOf_name o
  rw [h, operatorOf_name] at hop
  exact (Option.some.inj hop).symm

theorem filter_inj {o : Operator} {field : Field} {v w : FieldValue} {f : Filter}
    (hv : o.filter field v = some f) (hw : o.filter field w = some f) : v = w := by
  cases o with
  | compare c =>
    cases hv
    cases hw
    rfl
  | member m =>
    cases v with
    | array vs =>
      cases hv
      cases w with
      | array ws =>
        cases hw
        rfl
      | _ => cases hw
    | _ => cases hv

/-- What the package writes for a condition. -/
inductive ConditionItem (toString : Object → Option Bytes) : Condition → Item → Prop
  | clause {c len field op y cc} : field.content = fieldName c.field → op.content = c.op →
      encodeFirestoreValue toString (valueToFfi c.value) = .ok cc → Emits cc y →
      ConditionItem toString c (.array len [.str true field, .str true op, y])

theorem emits_texts {s t : Bytes} {d : Object} {c : Dart.CborValue} {x : Item}
    (hc : encodeFirestoreValue toString (.list [.string s, .string t, d]) = .ok c)
    (hx : Emits c x) :
    ∃ len first second y cc, x = .array len [.str true first, .str true second, y] ∧
      first.content = s ∧ second.content = t ∧ encodeFirestoreValue toString d = .ok cc ∧
      Emits cc y := by
  obtain ⟨cs, hcs, hc⟩ := bind_ok hc
  cases hc
  obtain ⟨c₁, hc₁, hcs⟩ := bind_ok hcs
  obtain ⟨cs₁, hcs₁, hcs⟩ := bind_ok hcs
  cases hc₁
  cases hcs
  obtain ⟨c₂, hc₂, hcs₁⟩ := bind_ok hcs₁
  obtain ⟨cs₂, hcs₂, hcs₁⟩ := bind_ok hcs₁
  cases hc₂
  cases hcs₁
  obtain ⟨c₃, hc₃, hcs₂⟩ := bind_ok hcs₂
  obtain ⟨cs₃, hcs₃, hcs₂⟩ := bind_ok hcs₂
  cases hcs₃
  cases hcs₂
  cases hx with
  | list hx =>
    cases hx with
    | cons hfirst hx =>
      cases hx with
      | cons hsecond hx =>
        cases hx with
        | cons hthird hx =>
          cases hx
          obtain ⟨first, rfl, hs⟩ := emits_string hfirst
          obtain ⟨second, rfl, ht⟩ := emits_string hsecond
          exact ⟨_, first, second, _, c₃, rfl, hs, ht, hc₃, hthird⟩

theorem condition_item {c : Condition} {cc : Dart.CborValue} {x : Item}
    (hc : encodeFirestoreValue toString
      (Where.spec ⟨fieldName c.field, c.op, valueToFfi c.value⟩) = .ok cc) (hx : Emits cc x) :
    ConditionItem toString c x := by
  obtain ⟨len, field, op, y, cv, rfl, hfield, hop, hv, hy⟩ := emits_texts hc hx
  exact .clause hfield hop hv hy

theorem order_item {o : Order} {c : Dart.CborValue} {x : Item}
    (hc : encodeFirestoreValue toString (OrderBy.spec ⟨fieldName o.field, o.descending⟩) = .ok c)
    (hx : Emits c x) : OrderSays x o.native := by
  obtain ⟨cs, hcs, hc⟩ := bind_ok hc
  cases hc
  cases hcs
  cases hx with
  | list hx =>
    cases hx with
    | cons hfield hx =>
      cases hx with
      | cons hdir hx =>
        cases hx
        obtain ⟨field, rfl, hname⟩ := emits_string hfield
        obtain ⟨dir, rfl, hword⟩ := emits_string hdir
        have hname : field.content = fieldName o.field := hname
        rw [Order.native, ← hname]
        refine .clause ?_
        rw [hword]
        cases o.descending <;> rfl

/-- The items that a list of objects made from the elements of another is encoded
as. -/
theorem mapped_items {α : Type} {R : α → Item → Prop} {spec : α → Object}
    (hitem : ∀ {a c x}, encodeFirestoreValue toString (spec a) = .ok c → Emits c x → R a x)
    {as : List α} {c : Dart.CborValue} {x : Item}
    (hc : encodeFirestoreValue toString (.list (as.map spec)) = .ok c) (hx : Emits c x) :
    ∃ len xs, x = .array len xs ∧ List.Forall₂ R as xs := by
  obtain ⟨cs, hcs, hlist⟩ := bind_ok hc
  clear hc
  cases hlist
  cases hx with
  | @list _ len xs hx =>
    refine ⟨len, xs, rfl, ?_⟩
    induction as generalizing cs xs with
    | nil =>
      cases hcs
      cases hx
      exact .nil
    | cons a as ih =>
      obtain ⟨c, hhead, hcs⟩ := bind_ok hcs
      obtain ⟨cs, hrest, hcs⟩ := bind_ok hcs
      cases hcs
      cases hx with
      | cons hx hxs => exact .cons (hitem hhead hx) (ih _ hrest hxs)

end Items

section Runs

variable {toString : Object → Option Bytes} {sdk : Sdk} {rest : Bytes} {x : Item}
  {it : Tinycbor.CborValue} {q q' : Query}

theorem operatorOf_some {op : Bytes} {o : Operator} (h : operatorOf op = some o) : op = o.name := by
  have hname := List.find?_some h
  exact (of_decide_eq_true hname).symm

theorem applyWhere_filter {field op : Bytes} {v : FieldValue}
    (h : applyWhere sdk q field op v = .ok q') :
    ∃ o f, op = Operator.name o ∧ o.filter (fieldOf field) v = some f ∧ q' = q.add (.filter f) := by
  unfold applyWhere at h
  split at h
  · cases h
  · next o ho =>
    split at h
    · cases h
    · split at h
      · cases h
      · next f hf => exact ⟨o, f, operatorOf_some ho, hf, apply_ok h⟩

/-- A condition is applied as one filter, the same exactly when the integers in
its item are within int64. -/
theorem ConditionItem.applied {c : Condition} (hitem : ConditionItem toString c x) (hx : x.WF)
    (hat : AtItem x rest it) (h : applyWhereClause sdk it q = .ok q') :
    ∃ f, (SameFilter c f ↔ IntsWithin x) ∧ q' = q.add (.filter f) := by
  cases hitem with
  | @clause _ field op y cc hfield hop hcc hy =>
    have hcarried := value_carried sdk.document hcc hy (array_items hx y (by simp))
    obtain ⟨v, hv, happly⟩ := applyWhereClause_elements hx hat hcarried.checked h
    obtain ⟨o, f, hname, hfilter, hq'⟩ := applyWhere_filter happly
    rw [hfield] at hfilter
    refine ⟨f, ?_, hq'⟩
    rw [entry_within, ← hcarried.ran hv]
    constructor
    · intro hsame
      obtain ⟨o', w, hname', hfilter', hsame⟩ := hsame
      obtain rfl : o = o' := operator_name_inj (by rw [← hname, ← hname', hop])
      obtain rfl := filter_inj hfilter hfilter'
      exact hsame
    · exact fun hsame => ⟨o, v, by rw [← hop, hname], hfilter, hsame⟩

/-- What an entry of the spec of a plugin query says. -/
inductive Clause
  | group
  | wheres (cs : List Condition)
  | orders (os : List Order)
  | limit (key : LimitKey) (n : Int64)
  | cursor (key : CursorKey) (ds : List PluginValue)

def Clause.entry : Clause → SpecKey × Object
  | .group => (.collectionGroup, .bool true)
  | .wheres cs => (.wheres, .list (cs.map fun c =>
      Where.spec ⟨fieldName c.field, c.op, valueToFfi c.value⟩))
  | .orders os => (.orderBy, .list (os.map fun o =>
      OrderBy.spec ⟨fieldName o.field, o.descending⟩))
  | .limit key n => (.limit key, .int n)
  | .cursor key ds => (.cursor key, .list (valuesToFfi ds))

/-- What comes of a clause whose value is encoded as an item. -/
inductive Clause.Yields : Clause → Item → Statement → Prop
  | group {y} : Yields .group y (.group true)
  | wheres {cs y fs} : fs.length = cs.length → (List.Forall₂ SameFilter cs fs ↔ IntsWithin y) →
      Yields (.wheres cs) y (.filters fs)
  | orders {os y} : Yields (.orders os) y (.orders (os.map Order.native))
  | limit {key i y} {n : Int32} : n.toInt = i.toInt → Yields (.limit key i) y (.limit key n)
  | cursor {key ds y vs} : (List.Forall₂ SameValue ds vs ↔ IntsWithin y) →
      Yields (.cursor key ds) y (.cursor key vs)

theorem paired {α β : Type} {R : α → β → Prop} {as : List α} {bs : List β}
    (h : List.Forall₂ R as bs) :
    List.Forall₂ (fun b (p : α × β) => p.2 = b ∧ R p.1 b) bs (as.zip bs) := by
  induction h with
  | nil => exact .nil
  | cons hab _ ih => exact .cons ⟨rfl, hab⟩ ih

theorem forall₂_zip_iff {α β γ : Type} {R : α → γ → Prop} {T : β → Prop} {as : List α}
    {bs : List β} {cs : List γ} (hlen : as.length = bs.length)
    (h : List.Forall₂ (fun (p : α × β) c => R p.1 c ↔ T p.2) (as.zip bs) cs) :
    cs.length = as.length ∧ (List.Forall₂ R as cs ↔ ∀ b ∈ bs, T b) := by
  induction as generalizing bs cs with
  | nil =>
    obtain rfl := List.eq_nil_of_length_eq_zero hlen.symm
    cases h
    exact ⟨rfl, by simp⟩
  | cons a as ih =>
    cases bs with
    | nil => cases hlen
    | cons b bs =>
      cases h with
      | cons hac hrest =>
        obtain ⟨hcs, hiff⟩ := ih (Nat.succ.inj hlen) hrest
        refine ⟨congrArg Nat.succ hcs, ?_⟩
        rw [List.forall₂_cons, hac, hiff, List.forall_mem_cons]

theorem wheres_applied {cs : List Condition} {len : Option Width} {xs : List Item}
    (hitems : List.Forall₂ (ConditionItem toString) cs xs) (hx : (Item.array len xs).WF)
    (hat : AtItem (.array len xs) rest it)
    (h : applyClauseArray (applyWhereClause sdk) it q = .ok q') :
    ∃ fs, fs.length = cs.length ∧ (List.Forall₂ SameFilter cs fs ↔ IntsWithin (.array len xs)) ∧
      q' = (Statement.filters fs).put q := by
  have hfold : ∃ fs, List.Forall₂ (fun p f => SameFilter p.1 f ↔ IntsWithin p.2) (cs.zip xs) fs ∧
      q' = fs.foldl (fun q f => q.add (.filter f)) q := by
    refine clauseArray_applied ?_ ?_ (paired hitems) hx hat h
    · intro x p hp
      obtain ⟨-, hitem⟩ := hp
      cases hitem
      rfl
    · intro x p rest it q q' hp hx hat happly
      obtain ⟨rfl, hitem⟩ := hp
      exact hitem.applied hx hat happly
  obtain ⟨fs, hfs, hq'⟩ := hfold
  obtain ⟨hlen, hiff⟩ := forall₂_zip_iff hitems.length_eq hfs
  exact ⟨fs, hlen, by rw [hiff, within_array], hq'⟩

/-- A limit that is taken fits int32. -/
theorem limit_fits {i : Int64} (hpos : 0 < i) (hmax : i ≤ int32Max) : i.toInt32.toInt = i.toInt := by
  have hlo : (0 : Int) < i.toInt := Int64.lt_iff_toInt_lt.mp hpos
  have hhi : i.toInt ≤ 2 ^ 31 - 1 := Int64.le_iff_toInt_le.mp hmax
  rw [Int64.toInt_toInt32]
  exact Int.bmod_eq_of_le (by omega) (by omega)

theorem EntryRuns.imp {P Q : Statement → Prop} {e : Item × Item} (h : EntryRuns sdk P e)
    (hPQ : ∀ st, P st → Q st) : EntryRuns sdk Q e := by
  cases h with
  | entry hname hplain happlied =>
    refine .entry hname hplain ?_
    intro rest it q q' hx hat happly
    obtain ⟨st, hst, hput⟩ := happlied hx hat happly
    exact ⟨st, hPQ st hst, hput⟩

/-- An entry of the spec of a plugin query, and what comes of it. -/
theorem Clause.runs {clause : Clause} {c : Dart.CborValue} {name : Str}
    (hname : name.content = clause.entry.1.name)
    (hc : encodeFirestoreValue toString clause.entry.2 = .ok c) (hx : Emits c x) :
    EntryRuns sdk (clause.Yields x) (.str true name, x) := by
  cases clause with
  | group =>
    cases hc
    cases hx
    refine (EntrySays.entry hname .group).runs.imp fun st hst => ?_
    subst hst
    exact .group
  | wheres cs =>
    obtain ⟨len, xs, rfl, hitems⟩ := mapped_items condition_item hc hx
    refine .entry hname (fun h => by cases h) ?_
    intro rest it q q' hx hat happly
    rw [applyEntry, specKeyOf_name] at happly
    obtain ⟨fs, hlen, hiff, hput⟩ := wheres_applied hitems hx hat happly
    exact ⟨.filters fs, .wheres hlen hiff, hput, rfl⟩
  | orders os =>
    have hitems : ∃ len xs, x = .array len xs ∧
        List.Forall₂ (fun o y => OrderSays y (Order.native o)) os xs := mapped_items order_item hc hx
    obtain ⟨len, xs, rfl, hitems⟩ := hitems
    have hsays : ValueSays sdk.document .orderBy (.array len xs) (.orders (os.map Order.native)) :=
      .orders (List.forall₂_map_right_iff.mpr hitems.flip)
    refine (EntrySays.entry hname hsays).runs.imp fun st hst => ?_
    subst hst
    exact .orders
  | limit key n =>
    cases hc
    obtain ⟨hread, -, -⟩ := emits_int sdk.document hx
    refine .entry hname ?_ ?_
    · cases x with
      | int neg w k => exact fun h => by cases h
      | _ => cases hread
    · intro rest it q q' hx hat happly
      rw [Clause.entry, applyEntry, specKeyOf_name] at happly
      obtain ⟨m, hm, happly⟩ := bind_ok happly
      obtain ⟨rfl, hpos, hmax⟩ := limit_read hread hat hm
      exact ⟨.limit key n.toInt32, .limit (limit_fits hpos hmax), apply_ok happly, rfl⟩
  | cursor key ds =>
    obtain ⟨cs, hcs, hc⟩ := bind_ok hc
    cases hc
    cases hx with
    | @list _ len xs hx =>
      refine .entry hname (fun h => by cases h) ?_
      intro rest it q q' hwf hat happly
      rw [Clause.entry, applyEntry, specKeyOf_name] at happly
      obtain ⟨vs, hvs, happly⟩ := bind_ok happly
      have hcarried := values_carried sdk.document hcs hx (array_items hwf)
      have hread := cursorValues_read hcarried.checked hwf hat hvs
      refine ⟨.cursor key vs, .cursor (by rw [within_array]; exact hcarried.ran hread), ?_, rfl⟩
      split at happly
      · cases happly
      · exact apply_ok happly

end Runs

end Firestore
