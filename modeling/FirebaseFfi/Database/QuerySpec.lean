import FirebaseFfi.Assoc.Assign
import FirebaseFfi.Dart.Value
import FirebaseFfi.Firebase.Variant

namespace Database
open Cbor Tinycbor
open Dart (ascii)
open Firebase (Variant)

/-- What a query is ordered by. -/
inductive OrderBy
  | child (path : Bytes)
  | key
  | value
  | priority
  deriving DecidableEq

def OrderBy.name : OrderBy → Bytes
  | .child _ => ascii "child"
  | .key => ascii "key"
  | .value => ascii "value"
  | .priority => ascii "priority"

inductive Bound
  | equalTo | startAt | endAt
  deriving DecidableEq

inductive Limit
  | toFirst | toLast
  deriving DecidableEq

/-- A method of the SDK's Query that returns a narrower query. -/
inductive Constraint
  | orderBy (order : OrderBy)
  | bound (b : Bound) (value : Variant) (key : Option Bytes)
  | limit (l : Limit) (n : Nat)

/-- The calls made on a reference, in order. -/
abbrev Query := List Constraint

/-- The keys of a query spec. -/
inductive SpecKey
  | orderBy
  | orderByPath
  | bound (b : Bound)
  | boundKey (b : Bound)
  | limit (l : Limit)
  deriving DecidableEq

def SpecKey.name : SpecKey → Bytes
  | .orderBy => ascii "orderBy"
  | .orderByPath => ascii "orderByPath"
  | .bound .startAt => ascii "startAt"
  | .boundKey .startAt => ascii "startAtKey"
  | .bound .endAt => ascii "endAt"
  | .boundKey .endAt => ascii "endAtKey"
  | .bound .equalTo => ascii "equalTo"
  | .boundKey .equalTo => ascii "equalToKey"
  | .limit .toFirst => ascii "limitToFirst"
  | .limit .toLast => ascii "limitToLast"

def kKnown : List SpecKey :=
  [.orderBy, .orderByPath, .bound .startAt, .boundKey .startAt, .bound .endAt, .boundKey .endAt,
    .bound .equalTo, .boundKey .equalTo, .limit .toFirst, .limit .toLast]

def specKeyOf (name : Bytes) : Option SpecKey := kKnown.find? fun k => k.name = name

/-- A query spec: a std::map from strings to values. -/
structure QuerySpec where
  entries : List (Bytes × Variant)
  distinct : (entries.map Prod.fst).Nodup

def QuerySpec.find (spec : QuerySpec) (key : SpecKey) : Option Variant :=
  spec.entries.lookup key.name

def QuerySpec.has (spec : QuerySpec) (key : SpecKey) : Bool := (spec.find key).isSome

section Apply

variable (spec : QuerySpec)

/-- The ordering that the text of orderBy asks for. -/
def orderOf (by' : Bytes) : Option OrderBy :=
  if by' = ascii "child" then
    match spec.find .orderByPath with
    | some (.string path) => some (.child (cString path))
    | _ => none
  else if by' = ascii "key" then some .key
  else if by' = ascii "value" then some .value
  else if by' = ascii "priority" then some .priority
  else none

/-- The text of orderBy is what `string_value()` points at. -/
def applyOrder (q : Query) : Option Query :=
  match spec.find .orderBy with
  | some (.string by') => (orderOf spec (cString by')).map fun order => q ++ [.orderBy order]
  | some _ => none
  | none => if spec.has .orderByPath then none else some q

def applyBound (b : Bound) (q : Query) : Option Query :=
  match spec.find (.bound b) with
  | none => some q
  | some value =>
    match spec.find (.boundKey b) with
    | none => some (q ++ [.bound b value none])
    | some (.string key) => some (q ++ [.bound b value (some (cString key))])
    | some _ => none

def applyLimit (l : Limit) (q : Query) : Option Query :=
  match spec.find (.limit l) with
  | none => some q
  | some (.int64 n) => if n.toInt ≤ 0 then none else some (q ++ [.limit l n.toInt.toNat])
  | some _ => none

/-- None where the function returns false. -/
def applyQuerySpec (q : Query) : Option Query :=
  if spec.entries.all fun e => kKnown.any fun k => k.name = e.1 then do
    let q ← applyOrder spec q
    if spec.has (.bound .equalTo) && (spec.has (.bound .startAt) || spec.has (.bound .endAt)) then
      none
    else
      let q ← applyBound spec .equalTo q
      let q ← applyBound spec .startAt q
      let q ← applyBound spec .endAt q
      if spec.has (.limit .toFirst) && spec.has (.limit .toLast) then none
      else
        let q ← applyLimit spec .toFirst q
        applyLimit spec .toLast q
  else none

end Apply

/-- The entries of a spec that ask for a call. -/
def Constraint.entries : Constraint → List (SpecKey × Variant)
  | .orderBy (.child path) =>
    [(.orderBy, .string (ascii "child")), (.orderByPath, .string path)]
  | .orderBy order => [(.orderBy, .string order.name)]
  | .bound b value none => [(.bound b, value)]
  | .bound b value (some key) => [(.bound b, value), (.boundKey b, .string key)]
  | .limit l n => [(.limit l, .int64 (Int64.ofNat n))]

/-- Every entry of the spec is in a call of the query, and a bound is in one call with its
key. -/
structure Reflects (q : Query) (spec : QuerySpec) : Prop where
  entries : ∀ e ∈ spec.entries, ∃ c ∈ q, ∃ d ∈ c.entries, e = (d.1.name, d.2)
  keyed : ∀ b value key, spec.find (.bound b) = some value →
    spec.find (.boundKey b) = some (.string key) → .bound b value (some key) ∈ q

/-- The spec asks for the call. A text is what comes before its first NUL. -/
inductive Called (spec : QuerySpec) : Constraint → Prop
  | orderBy {by' order} : spec.find .orderBy = some (.string by') →
      orderOf spec (cString by') = some order → Called spec (.orderBy order)
  | bound {b value} : spec.find (.bound b) = some value → spec.find (.boundKey b) = none →
      Called spec (.bound b value none)
  | boundKey {b value key} : spec.find (.bound b) = some value →
      spec.find (.boundKey b) = some (.string key) →
      Called spec (.bound b value (some (cString key)))
  | limit {l n} : spec.find (.limit l) = some (.int64 n) → 0 < n.toInt →
      Called spec (.limit l n.toInt.toNat)

/-- The spec has known keys only, each with a value of its type, and no
contradiction. A key that belongs to an absent bound goes unchecked, and so
does a path beside an ordering by something else. -/
structure Understood (spec : QuerySpec) : Prop where
  known : ∀ e ∈ spec.entries, ∃ key : SpecKey, key.name = e.1
  ordered : ∀ v, spec.find .orderBy = some v →
    ∃ by' order, v = .string by' ∧ orderOf spec (cString by') = some order
  unordered : spec.find .orderBy = none → spec.find .orderByPath = none
  keys : ∀ b v, spec.has (.bound b) → spec.find (.boundKey b) = some v → ∃ key, v = .string key
  limits : ∀ l v, spec.find (.limit l) = some v → ∃ n, v = .int64 n ∧ 0 < n.toInt
  equal : spec.has (.bound .equalTo) →
    spec.find (.bound .startAt) = none ∧ spec.find (.bound .endAt) = none
  oneLimit : spec.has (.limit .toFirst) → spec.find (.limit .toLast) = none

/-- No key without its bound, no path beside an ordering that is not by child,
and no NUL in a text. -/
structure Whole (spec : QuerySpec) : Prop where
  bounds : ∀ b, spec.has (.boundKey b) → spec.has (.bound b)
  path : spec.has .orderByPath → spec.find .orderBy = some (.string (ascii "child"))
  texts : ∀ key s, (key = .orderBy ∨ key = .orderByPath ∨ ∃ b, key = .boundKey b) →
    spec.find key = some (.string s) → (0 : UInt8) ∉ s

theorem specKeyOf_name (key : SpecKey) : specKeyOf key.name = some key := by
  cases key with
  | bound b => cases b <;> rfl
  | boundKey b => cases b <;> rfl
  | limit l => cases l <;> rfl
  | _ => rfl

theorem name_inj {j k : SpecKey} (h : j.name = k.name) : j = k := by
  have hk := specKeyOf_name k
  rw [← h, specKeyOf_name] at hk
  exact Option.some.inj hk

theorem mem_kKnown (key : SpecKey) : key ∈ kKnown := List.mem_of_find?_eq_some (specKeyOf_name key)

section Spec

variable {spec : QuerySpec}

theorem find_mem {key : SpecKey} {v : Variant} :
    spec.find key = some v ↔ (key.name, v) ∈ spec.entries := Assoc.lookup_mem spec.distinct

theorem has_find {key : SpecKey} : spec.has key = true ↔ ∃ v, spec.find key = some v :=
  Option.isSome_iff_exists

theorem has_none {key : SpecKey} : spec.has key = false ↔ spec.find key = none := by
  rw [QuerySpec.has, Option.isSome_eq_false_iff, Option.isNone_iff_eq_none]

/-- What a step of ApplyQuerySpec adds to a query. -/
def Adds (q r : Query) (P : Constraint → Prop) : Prop := ∀ c, c ∈ r ↔ c ∈ q ∨ P c

theorem Adds.refl {q : Query} {P : Constraint → Prop} (h : ∀ c, ¬ P c) : Adds q q P :=
  fun c => ⟨.inl, fun hc => hc.elim id fun hp => absurd hp (h c)⟩

theorem Adds.call {q : Query} {d : Constraint} {P : Constraint → Prop} (h : ∀ c, P c ↔ c = d) :
    Adds q (q ++ [d]) P := by
  intro c
  rw [List.mem_append, List.mem_singleton, h]

theorem applyOrder_adds {q r : Query} (h : applyOrder spec q = some r) :
    Adds q r fun c => Called spec c ∧ ∃ order, c = .orderBy order := by
  unfold applyOrder at h
  split at h
  · next by' hby =>
    obtain ⟨order, horder, hr⟩ := Option.map_eq_some_iff.mp h
    subst hr
    apply Adds.call
    intro c
    constructor
    · intro hc
      obtain ⟨hc, order', rfl⟩ := hc
      cases hc with
      | orderBy hby' horder' =>
        cases hby.symm.trans hby'
        cases horder.symm.trans horder'
        rfl
    · intro hc
      subst hc
      exact ⟨.orderBy hby horder, order, rfl⟩
  · cases h
  · next hnone =>
    split at h
    · cases h
    · cases h
      apply Adds.refl
      intro c hc
      obtain ⟨hc, order, rfl⟩ := hc
      cases hc with
      | orderBy hby => cases hnone.symm.trans hby

theorem applyBound_adds {b : Bound} {q r : Query} (h : applyBound spec b q = some r) :
    Adds q r fun c => Called spec c ∧ ∃ value key, c = .bound b value key := by
  unfold applyBound at h
  split at h
  · next hnone =>
    cases h
    apply Adds.refl
    intro c hc
    obtain ⟨hc, value, key, rfl⟩ := hc
    cases hc with
    | bound hv => cases hnone.symm.trans hv
    | boundKey hv => cases hnone.symm.trans hv
  · next value hvalue =>
    split at h
    · next hkey =>
      cases h
      apply Adds.call
      intro c
      constructor
      · intro hc
        obtain ⟨hc, value', key, rfl⟩ := hc
        cases hc with
        | bound hv =>
          cases hvalue.symm.trans hv
          rfl
        | boundKey _ hk => cases hkey.symm.trans hk
      · intro hc
        subst hc
        exact ⟨.bound hvalue hkey, value, none, rfl⟩
    · next key hkey =>
      cases h
      apply Adds.call
      intro c
      constructor
      · intro hc
        obtain ⟨hc, value', key', rfl⟩ := hc
        cases hc with
        | bound _ hk => cases hkey.symm.trans hk
        | boundKey hv hk =>
          cases hvalue.symm.trans hv
          cases hkey.symm.trans hk
          rfl
      · intro hc
        subst hc
        exact ⟨.boundKey hvalue hkey, value, _, rfl⟩
    · cases h

theorem applyLimit_adds {l : Limit} {q r : Query} (h : applyLimit spec l q = some r) :
    Adds q r fun c => Called spec c ∧ ∃ n, c = .limit l n := by
  unfold applyLimit at h
  split at h
  · next hnone =>
    cases h
    apply Adds.refl
    intro c hc
    obtain ⟨hc, n, rfl⟩ := hc
    cases hc with
    | limit hv => cases hnone.symm.trans hv
  · next n hn =>
    split at h
    · cases h
    · next hpos =>
      cases h
      apply Adds.call
      intro c
      constructor
      · intro hc
        obtain ⟨hc, n', rfl⟩ := hc
        cases hc with
        | limit hv =>
          cases hn.symm.trans hv
          rfl
      · intro hc
        subst hc
        exact ⟨.limit hn (by omega), _, rfl⟩
  · cases h

theorem applyOrder_some (q : Query) : (∃ r, applyOrder spec q = some r) ↔
    (∀ v, spec.find .orderBy = some v →
      ∃ by' order, v = .string by' ∧ orderOf spec (cString by') = some order) ∧
    (spec.find .orderBy = none → spec.find .orderByPath = none) := by
  unfold applyOrder
  cases hfind : spec.find .orderBy with
  | none =>
    cases hpath : spec.has .orderByPath with
    | false => simp [has_none.mp hpath]
    | true =>
      obtain ⟨v, hv⟩ := has_find.mp hpath
      simp [hv]
  | some v =>
    cases v with
    | string by' =>
      simp only [Option.map_eq_some_iff, Option.some.injEq, reduceCtorEq, false_implies, and_true]
      constructor
      · intro h v hv
        obtain ⟨r, order, horder, -⟩ := h
        exact ⟨by', order, hv.symm, horder⟩
      · intro h
        obtain ⟨by'', order, hby, horder⟩ := h _ rfl
        cases hby
        exact ⟨_, order, horder, rfl⟩
    | _ => simp

theorem applyBound_some (b : Bound) (q : Query) : (∃ r, applyBound spec b q = some r) ↔
    ∀ v, spec.has (.bound b) → spec.find (.boundKey b) = some v → ∃ key, v = .string key := by
  unfold applyBound
  cases hfind : spec.find (.bound b) with
  | none => simp [QuerySpec.has, hfind]
  | some value =>
    cases hkey : spec.find (.boundKey b) with
    | none => simp
    | some v => cases v <;> simp [QuerySpec.has, hfind]

theorem applyLimit_some (l : Limit) (q : Query) : (∃ r, applyLimit spec l q = some r) ↔
    ∀ v, spec.find (.limit l) = some v → ∃ n, v = .int64 n ∧ 0 < n.toInt := by
  unfold applyLimit
  cases hfind : spec.find (.limit l) with
  | none => simp
  | some v => cases v <;> simp

theorem known_iff : (spec.entries.all fun e => kKnown.any fun k => k.name = e.1) = true ↔
    ∀ e ∈ spec.entries, ∃ key : SpecKey, key.name = e.1 := by
  simp only [List.all_eq_true, List.any_eq_true, decide_eq_true_eq]
  constructor
  · intro h e he
    obtain ⟨key, -, hkey⟩ := h e he
    exact ⟨key, hkey⟩
  · intro h e he
    obtain ⟨key, hkey⟩ := h e he
    exact ⟨key, mem_kKnown key, hkey⟩

/-- A query is made of exactly the specs that are understood, by the calls that
they ask for. -/
theorem applyQuerySpec_called {r : Query} (h : applyQuerySpec spec [] = some r) :
    Understood spec ∧ ∀ c, c ∈ r ↔ Called spec c := by
  unfold applyQuerySpec at h
  split at h
  · next hknown =>
    obtain ⟨q1, h1, h⟩ := Option.bind_eq_some_iff.mp h
    split at h
    · cases h
    · next hequal =>
      obtain ⟨q2, h2, h⟩ := Option.bind_eq_some_iff.mp h
      obtain ⟨q3, h3, h⟩ := Option.bind_eq_some_iff.mp h
      obtain ⟨q4, h4, h⟩ := Option.bind_eq_some_iff.mp h
      split at h
      · cases h
      · next hlimits =>
        obtain ⟨q5, h5, h6⟩ := Option.bind_eq_some_iff.mp h
        simp only [Bool.and_eq_true, Bool.or_eq_true, not_and, not_or, Bool.not_eq_true,
          has_none] at hequal hlimits
        obtain ⟨hordered, hunordered⟩ := (applyOrder_some _).mp ⟨_, h1⟩
        refine ⟨⟨known_iff.mp hknown, hordered, hunordered, ?_, ?_, hequal, hlimits⟩, ?_⟩
        · intro b
          cases b with
          | equalTo => exact (applyBound_some _ _).mp ⟨_, h2⟩
          | startAt => exact (applyBound_some _ _).mp ⟨_, h3⟩
          | endAt => exact (applyBound_some _ _).mp ⟨_, h4⟩
        · intro l
          cases l with
          | toFirst => exact (applyLimit_some _ _).mp ⟨_, h5⟩
          | toLast => exact (applyLimit_some _ _).mp ⟨_, h6⟩
        · intro c
          rw [applyLimit_adds h6, applyLimit_adds h5, applyBound_adds h4, applyBound_adds h3,
            applyBound_adds h2, applyOrder_adds h1]
          constructor
          · intro hc
            rcases hc with (((((hc | hc) | hc) | hc) | hc) | hc) | hc
            · cases hc
            all_goals exact hc.1
          · intro hc
            cases c with
            | orderBy order => exact .inl (.inl (.inl (.inl (.inl (.inr ⟨hc, order, rfl⟩)))))
            | bound b value key =>
              cases b with
              | equalTo => exact .inl (.inl (.inl (.inl (.inr ⟨hc, value, key, rfl⟩))))
              | startAt => exact .inl (.inl (.inl (.inr ⟨hc, value, key, rfl⟩)))
              | endAt => exact .inl (.inl (.inr ⟨hc, value, key, rfl⟩))
            | limit l n =>
              cases l with
              | toFirst => exact .inl (.inr ⟨hc, n, rfl⟩)
              | toLast => exact .inr ⟨hc, n, rfl⟩
  · cases h

theorem understood_applied (h : Understood spec) : ∃ r, applyQuerySpec spec [] = some r := by
  obtain ⟨q1, h1⟩ := (applyOrder_some []).mpr ⟨h.ordered, h.unordered⟩
  obtain ⟨q2, h2⟩ := (applyBound_some .equalTo q1).mpr (h.keys _)
  obtain ⟨q3, h3⟩ := (applyBound_some .startAt q2).mpr (h.keys _)
  obtain ⟨q4, h4⟩ := (applyBound_some .endAt q3).mpr (h.keys _)
  obtain ⟨q5, h5⟩ := (applyLimit_some .toFirst q4).mpr (h.limits _)
  obtain ⟨q6, h6⟩ := (applyLimit_some .toLast q5).mpr (h.limits _)
  have hequal : (spec.has (.bound .equalTo) &&
      (spec.has (.bound .startAt) || spec.has (.bound .endAt))) = false := by
    cases he : spec.has (.bound .equalTo) with
    | false => rfl
    | true => simp [has_none.mpr (h.equal he).1, has_none.mpr (h.equal he).2]
  have hlimits : (spec.has (.limit .toFirst) && spec.has (.limit .toLast)) = false := by
    cases hf : spec.has (.limit .toFirst) with
    | false => rfl
    | true => simp [has_none.mpr (h.oneLimit hf)]
  refine ⟨q6, ?_⟩
  rw [applyQuerySpec, if_pos (known_iff.mpr h.known)]
  simp only [h1, h2, h3, h4, h5, h6, hequal, hlimits, bind, Option.bind, Bool.false_eq_true, if_false]

theorem orderOf_name {by' : Bytes} {order : OrderBy} (h : orderOf spec by' = some order) :
    by' = order.name := by
  unfold orderOf at h
  split at h
  · next hby =>
    split at h
    · cases h
      exact hby
    · cases h
  · split at h
    · next hby =>
      cases h
      exact hby
    · split at h
      · next hby =>
        cases h
        exact hby
      · split at h
        · next hby =>
          cases h
          exact hby
        · cases h

theorem orderOf_child {path : Variant} {order : OrderBy} (hpath : spec.find .orderByPath = some path)
    (h : orderOf spec (ascii "child") = some order) :
    ∃ s, path = .string s ∧ order = .child (cString s) := by
  rw [orderOf, if_pos rfl, hpath] at h
  cases path with
  | string s =>
    cases h
    exact ⟨s, rfl, rfl⟩
  | _ => cases h

theorem child_path {by' path : Bytes} (h : orderOf spec by' = some (.child path)) :
    ∃ s, spec.find .orderByPath = some (.string s) ∧ path = cString s := by
  obtain rfl := orderOf_name h
  rw [OrderBy.name, orderOf, if_pos rfl] at h
  split at h
  · next s hs =>
    cases h
    exact ⟨s, hs, rfl⟩
  · cases h

theorem entries_orderBy {order : OrderBy} {d : SpecKey × Variant}
    (h : d ∈ (Constraint.orderBy order).entries) :
    d = (.orderBy, .string order.name) ∨
      ∃ path, order = .child path ∧ d = (.orderByPath, .string path) := by
  cases order with
  | child path =>
    rcases List.mem_cons.mp h with h | h
    · exact .inl h
    · exact .inr ⟨path, rfl, List.mem_singleton.mp h⟩
  | _ => exact .inl (List.mem_singleton.mp h)

theorem mem_entries_orderBy (order : OrderBy) :
    (SpecKey.orderBy, Variant.string order.name) ∈ (Constraint.orderBy order).entries := by
  cases order <;> exact List.mem_cons_self ..

/-- What an entry of the spec has to be for a call to have it. -/
structure Read (spec : QuerySpec) (key : SpecKey) (v : Variant) : Prop where
  text : ∀ s, v = .string s → (key = .orderBy ∨ key = .orderByPath ∨ ∃ b, key = .boundKey b) →
    (0 : UInt8) ∉ s
  bound : ∀ b, key = .boundKey b → spec.has (.bound b)
  path : key = .orderByPath →
    ∃ by', spec.find .orderBy = some (.string by') ∧ cString by' = ascii "child"

theorem Read.value {b : Bound} {v : Variant} : Read spec (.bound b) v := by
  refine ⟨?_, (fun _ h => by cases h), (fun h => by cases h)⟩
  intro s _ h
  rcases h with h | h | ⟨b, h⟩ <;> cases h

theorem Read.limit {l : Limit} {v : Variant} : Read spec (.limit l) v := by
  refine ⟨?_, (fun _ h => by cases h), (fun h => by cases h)⟩
  intro s _ h
  rcases h with h | h | ⟨b, h⟩ <;> cases h

theorem Called.read {c : Constraint} (hc : Called spec c) {key : SpecKey} {v : Variant}
    (hd : (key, v) ∈ c.entries) (hfind : spec.find key = some v) : Read spec key v := by
  cases hc with
  | @orderBy by' order hby horder =>
    have hname := orderOf_name horder
    rcases entries_orderBy hd with h | h
    · cases h
      cases hby.symm.trans hfind
      refine ⟨?_, (fun _ h => by cases h), (fun h => by cases h)⟩
      intro s hs _
      cases hs
      exact cString_eq_self.mp hname
    · obtain ⟨path, rfl, h⟩ := h
      cases h
      obtain ⟨s, hs, hpath⟩ := child_path horder
      cases hs.symm.trans hfind
      refine ⟨?_, (fun _ h => by cases h), (fun _ => ⟨by', hby, hname⟩)⟩
      intro s hs _
      cases hs
      exact cString_eq_self.mp hpath.symm
  | bound hv hk =>
    cases List.mem_singleton.mp hd
    exact .value
  | @boundKey b value text hv hk =>
    rcases List.mem_cons.mp hd with h | h
    · cases h
      exact .value
    · cases List.mem_singleton.mp h
      refine ⟨?_, ?_, (fun h => by cases h)⟩
      · intro s hs _
        cases hs
        exact zero_not_mem_cString text
      · intro b' h
        cases h
        exact has_find.mpr ⟨value, hv⟩
  | limit hn hpos =>
    cases List.mem_singleton.mp hd
    exact .limit

theorem Whole.of_read (h : ∀ key v, spec.find key = some v → Read spec key v) : Whole spec := by
  refine ⟨?_, ?_, ?_⟩
  · intro b hb
    obtain ⟨v, hv⟩ := has_find.mp hb
    exact (h _ v hv).bound b rfl
  · intro hp
    obtain ⟨v, hv⟩ := has_find.mp hp
    obtain ⟨by', hby, hname⟩ := (h _ v hv).path rfl
    have hnul := (h _ _ hby).text by' rfl (.inl rfl)
    rw [hby, ← hname, cString_eq_self.mpr hnul]
  · intro key s hkey hs
    exact (h key _ hs).text s rfl hkey

/-- A bound of a whole spec is asked for with its key. -/
theorem Whole.keyed (hw : Whole spec) {b : Bound} {value : Variant} {key : Bytes}
    (hvalue : spec.find (.bound b) = some value)
    (hkey : spec.find (.boundKey b) = some (.string key)) :
    Called spec (.bound b value (some key)) := by
  have hc := Called.boundKey hvalue hkey
  rwa [cString_eq_self.mpr (hw.texts _ key (.inr (.inr ⟨b, rfl⟩)) hkey)] at hc

/-- Each entry of a whole spec is in a call that the spec asks for. -/
theorem Whole.called (hu : Understood spec) (hw : Whole spec) {key : SpecKey} {v : Variant}
    (hfind : spec.find key = some v) : ∃ c, Called spec c ∧ (key, v) ∈ c.entries := by
  have htext : ∀ key s, (key = .orderBy ∨ key = .orderByPath ∨ ∃ b, key = .boundKey b) →
      spec.find key = some (.string s) → cString s = s :=
    fun key s hkey hs => cString_eq_self.mpr (hw.texts key s hkey hs)
  have hkeyed : ∀ b value k, spec.find (.bound b) = some value →
      spec.find (.boundKey b) = some k → ∃ s, k = .string s ∧
        Called spec (.bound b value (some s)) := by
    intro b value k hvalue hk
    obtain ⟨s, rfl⟩ := hu.keys b k (has_find.mpr ⟨value, hvalue⟩) hk
    exact ⟨s, rfl, hw.keyed hvalue hk⟩
  cases key with
  | orderBy =>
    obtain ⟨by', order, rfl, horder⟩ := hu.ordered v hfind
    have hname := orderOf_name horder
    rw [htext _ by' (.inl rfl) hfind] at hname
    subst hname
    exact ⟨_, .orderBy hfind horder, mem_entries_orderBy order⟩
  | orderByPath =>
    have hby := hw.path (has_find.mpr ⟨v, hfind⟩)
    obtain ⟨by', order, hby', horder⟩ := hu.ordered _ hby
    cases hby'
    have hchild := horder
    rw [htext _ _ (.inl rfl) hby] at hchild
    obtain ⟨s, rfl, rfl⟩ := orderOf_child hfind hchild
    rw [htext _ s (.inr (.inl rfl)) hfind] at horder
    exact ⟨_, .orderBy hby horder, by simp [Constraint.entries]⟩
  | bound b =>
    cases hk : spec.find (.boundKey b) with
    | none => exact ⟨_, .bound hfind hk, by simp [Constraint.entries]⟩
    | some k =>
      obtain ⟨s, -, hc⟩ := hkeyed b v k hfind hk
      exact ⟨_, hc, by simp [Constraint.entries]⟩
  | boundKey b =>
    obtain ⟨value, hvalue⟩ := has_find.mp (hw.bounds b (has_find.mpr ⟨v, hfind⟩))
    obtain ⟨s, rfl, hc⟩ := hkeyed b value v hvalue hfind
    exact ⟨_, hc, by simp [Constraint.entries]⟩
  | limit l =>
    obtain ⟨n, rfl, hpos⟩ := hu.limits l v hfind
    refine ⟨_, .limit hfind hpos, ?_⟩
    have hn : Int64.ofNat n.toInt.toNat = n := by
      apply Int64.toInt_inj.mp
      have := n.toInt_lt
      rw [Int64.toInt_ofNat_of_lt (by omega)]
      omega
    rw [Constraint.entries, hn]
    exact List.mem_cons_self ..

end Spec

/-- ApplyQuerySpec refuses a spec or reflects every entry of it, but for the
specs it understands in which a key has no bound, a path no ordering by child,
or a text a NUL. -/
theorem applyQuerySpec_reflects (spec : QuerySpec) :
    (∀ q, applyQuerySpec spec [] = some q → Reflects q spec) ↔
      (Understood spec → Whole spec) := by
  constructor
  · intro h hu
    obtain ⟨q, hq⟩ := understood_applied hu
    obtain ⟨-, hcalled⟩ := applyQuerySpec_called hq
    apply Whole.of_read
    intro key v hfind
    obtain ⟨c, hc, d, hd, he⟩ := (h q hq).entries (key.name, v) (find_mem.mp hfind)
    obtain ⟨key', v'⟩ := d
    obtain ⟨hname, rfl⟩ := Prod.mk.inj he
    obtain rfl := name_inj hname
    exact ((hcalled c).mp hc).read hd hfind
  · intro h q hq
    obtain ⟨hu, hcalled⟩ := applyQuerySpec_called hq
    refine ⟨?_, ?_⟩
    · intro e he
      obtain ⟨key, hkey⟩ := hu.known e he
      have hfind : spec.find key = some e.2 := find_mem.mpr (by rw [hkey]; exact he)
      obtain ⟨c, hc, hd⟩ := (h hu).called hu hfind
      exact ⟨c, (hcalled c).mpr hc, _, hd, by rw [hkey]⟩
    · intro b value key hvalue hkey
      exact (hcalled _).mpr ((h hu).keyed hvalue hkey)

/-- An orphan key: the bound it belongs to is absent. -/
def orphanKey : QuerySpec where
  entries := [(ascii "startAtKey", .string [0x6b])]
  distinct := by simp

theorem orphanKey_dropped : applyQuerySpec orphanKey [] = some [] ∧ ¬ Reflects [] orphanKey := by
  refine ⟨rfl, ?_⟩
  intro h
  obtain ⟨c, hc, -⟩ := h.entries (ascii "startAtKey", .string [0x6b]) (by simp [orphanKey])
  cases hc

end Database
