import FirebaseFfi.Firestore.ApplyWrites
import FirebaseFfi.Firestore.DartRoundTrip
import FirebaseFfi.Firestore.Transaction

namespace Firestore
open Cbor Tinycbor Dart

/-- Data that can be encoded, with distinct strings as the keys of every map. -/
inductive StringKeyed : Object → Prop
  | null : StringKeyed .null
  | bool {b} : StringKeyed (.bool b)
  | int {i} : StringKeyed (.int i)
  | double {d} : StringKeyed (.double d)
  | string {s} : StringKeyed (.string s)
  | uint8List {b} : StringKeyed (.uint8List b)
  | timestamp {s n} : StringKeyed (.timestamp s n)
  | geoPoint {a b} : StringKeyed (.geoPoint a b)
  | reference {p} : StringKeyed (.reference p)
  | list {xs} : (∀ x ∈ xs, StringKeyed x) → StringKeyed (.list xs)
  | map {m : List (Object × Object)} : (m.map Prod.fst).Nodup →
      (∀ e ∈ m, ∃ s, e.1 = .string s) → (∀ e ∈ m, StringKeyed e.2) → StringKeyed (.map m)
  | delete : StringKeyed .delete
  | serverTimestamp : StringKeyed .serverTimestamp
  | arrayUnion {xs} : (∀ x ∈ xs, StringKeyed x) → StringKeyed (.arrayUnion xs)
  | arrayRemove {xs} : (∀ x ∈ xs, StringKeyed x) → StringKeyed (.arrayRemove xs)
  | incrementInt {i} : StringKeyed (.incrementInt i)
  | incrementDouble {d} : StringKeyed (.incrementDouble d)

mutual
/-- How deep the arrays and maps are that an object is encoded as. -/
def nesting : Object → Nat
  | .list xs | .arrayUnion xs | .arrayRemove xs => nestingAll xs + 1
  | .map es => nestingEntries es + 1
  | .timestamp _ _ | .geoPoint _ _ | .incrementInt _ | .incrementDouble _ => 1
  | _ => 0

def nestingAll : List Object → Nat
  | [] => 0
  | x :: xs => max (nesting x) (nestingAll xs)

def nestingEntries : List (Object × Object) → Nat
  | [] => 0
  | (_, x) :: es => max (nesting x) (nestingEntries es)
end

def Write.op : Write → Bytes
  | .set _ _ merge => ascii (if merge then "merge" else "set")
  | .update _ _ => ascii "update"
  | .delete _ => ascii "delete"

def Write.path : Write → Bytes
  | .set path _ _ | .update path _ | .delete path => path

/-- What follows the path in the list that stands for a write. -/
def Write.data : Write → List Object
  | .set _ data _ | .update _ data => [documentData data]
  | .delete _ => []

/-- The call of the SDK has the kind, the path and the data of the write. -/
inductive SameWrite : Write → SdkWrite → Prop
  | set {path data merge m} : SameTree (documentData data) (toDart (.map m)) →
      SameWrite (.set path data merge) (.set path m merge)
  | update {path data m} : SameTree (documentData data) (toDart (.map m)) →
      SameWrite (.update path data) (.update path m)
  | delete {path} : SameWrite (.delete path) (.delete path)

theorem recorded_eq (w : Write) :
    w.recorded = .list (.string w.op :: .string w.path :: w.data) := by
  cases w <;> rfl

section Walks

variable {toString : Object → Option Bytes} {document : Document} {level : Nat}

theorem countable_of_taken {isMap : Bool} {len : Option Width} {n : Nat}
    (h : tooMany isMap len n = false) : countable isMap len n = true := by
  cases len with
  | none => rfl
  | some w => simpa [countable, tooMany] using h

theorem walksAll_iff {xs : List Item} :
    walksAll level xs = true ↔ ∀ x ∈ xs, walks level x = true := by
  induction xs with
  | nil => simp [walksAll]
  | cons x xs ih => rw [walksAll, Bool.and_eq_true, ih, List.forall_mem_cons]

theorem walks_array {len : Option Width} {xs : List Item}
    (ht : tooMany false len xs.length = false) (h : ∀ x ∈ xs, walks level x = true) :
    walks (level + 1) (.array len xs) = true := by
  rw [walks, countable_of_taken ht, walksAll_iff.mpr h]
  rfl

/-- An array under a tag has one level more than its items. -/
theorem tagged_walked {t n : Nat} {w : Width} {len : Option Width} {xs : List Item}
    (htag : t ≠ tagReference) (ht : Taken document (.tag w t (.array len xs)))
    (hdepth : n + 1 ≤ level) (h : (∀ x ∈ xs, Taken document x) → ∀ level, n ≤ level →
      ∀ x ∈ xs, walks level x = true) : walks level (.tag w t (.array len xs)) = true := by
  obtain ⟨level, rfl⟩ : ∃ k, level = k + 1 := ⟨level - 1, by omega⟩
  obtain ⟨htoo, hall⟩ := taken_array.mp ((taken_tag htag).mp ht)
  exact walks_array htoo (h hall level (by omega))

theorem walks_int {i : Int} {x : Item} (h : Emits (.int i) x) : walks level x = true := by
  cases h
  cases level <;> rfl

theorem walks_float {d : UInt64} {x : Item} (h : Emits (.float d) x) : walks level x = true := by
  cases h <;> cases level <;> rfl

theorem walks_string {s : Bytes} {x : Item} (h : Emits (.string s) x) : walks level x = true := by
  cases h
  cases level <;> rfl

theorem walks_null {x : Item} (h : Emits .null x) : walks level x = true := by
  cases h
  cases level <;> rfl

/-- A tag has the levels of what it tags. -/
theorem walks_tagged {t : Nat} {c : Dart.CborValue} {x : Item} (h : Emits (.tagged t c) x)
    (hw : ∀ y, Emits c y → walks level y = true) : walks level x = true := by
  cases h with
  | @tagged _ w _ y hy =>
    rw [walks]
    exact hw y hy

theorem elements_walked {ds : List Object} {cs : List Dart.CborValue} {xs : List Item}
    (he : encodeElements toString ds = .ok cs) (hx : EmitsAll cs xs)
    (ht : ∀ x ∈ xs, Taken document x) (hdepth : nestingAll ds ≤ level)
    (ih : ∀ d ∈ ds, ∀ c x, encodeFirestoreValue toString d = .ok c → Emits c x →
      Taken document x → nesting d ≤ level → walks level x = true) :
    ∀ x ∈ xs, walks level x = true := by
  induction ds generalizing cs xs with
  | nil =>
    cases he
    cases hx
    simp
  | cons d ds ihds =>
    obtain ⟨c, hc, he⟩ := bind_ok he
    obtain ⟨cs, hcs, he⟩ := bind_ok he
    cases he
    rw [nestingAll] at hdepth
    cases hx with
    | @cons _ x _ xs hx hxs =>
      obtain ⟨hhead, htail⟩ := List.forall_mem_cons.mp ht
      refine List.forall_mem_cons.mpr ⟨ih d (by simp) c x hc hx hhead (by omega), ?_⟩
      exact ihds hcs hxs htail (by omega) fun d hd => ih d (List.mem_cons_of_mem _ hd)

theorem entries_walked {es : List (Object × Object)} {ces : List (Bytes × Dart.CborValue)}
    {xs : List (Item × Item)} (he : List.Forall₂ (fun e c =>
      e.1 = .string c.1 ∧ encodeFirestoreValue toString e.2 = .ok c.2) es ces)
    (hx : EmitsEntries (textKeyed ces) xs) (ht : ∀ e ∈ xs, Taken document e.2)
    (hdepth : nestingEntries es ≤ level)
    (ih : ∀ e ∈ es, ∀ c x, encodeFirestoreValue toString e.2 = .ok c → Emits c x →
      Taken document x → nesting e.2 ≤ level → walks level x = true) :
    walksEntries level xs = true := by
  induction he generalizing xs with
  | nil =>
    cases hx
    rfl
  | @cons e c es ces hec _ ihes =>
    obtain ⟨k, c⟩ := c
    rw [nestingEntries] at hdepth
    cases hx with
    | @cons _ _ key x _ xs hkey hx hxs =>
      obtain ⟨hhead, htail⟩ := List.forall_mem_cons.mp ht
      have hwalks := @walks_string level _ _ hkey
      have hvalue := ih e (by simp) c x hec.2 hx hhead (by omega)
      have hrest := ihes hxs htail (by omega) fun e he => ih e (List.mem_cons_of_mem _ he)
      rw [walksEntries, hwalks, hvalue, hrest]
      rfl

/-- Advancing gets past the item of a tree that is not nested too deep. -/
theorem Tree.walked {d : Object} (h : Tree true d) :
    ∀ {c : Dart.CborValue} {x : Item} {level : Nat}, encodeFirestoreValue toString d = .ok c →
      Emits c x → Taken document x → nesting d ≤ level → walks level x = true := by
  induction h with
  | int =>
    intro c x level hc hx _ _
    cases hc
    exact walks_int hx
  | double =>
    intro c x level hc hx _ _
    cases hc
    exact walks_float hx
  | timestamp =>
    intro c x level hc hx ht hdepth
    cases hc
    obtain ⟨w, len, y, z, rfl, hy, hz⟩ := emits_pair hx
    rw [nesting] at hdepth
    exact tagged_walked (by decide) ht hdepth fun _ _ _ => by simp [walks_int hy, walks_int hz]
  | geoPoint =>
    intro c x level hc hx ht hdepth
    cases hc
    obtain ⟨w, len, y, z, rfl, hy, hz⟩ := emits_pair hx
    rw [nesting] at hdepth
    exact tagged_walked (by decide) ht hdepth fun _ _ _ => by simp [walks_float hy, walks_float hz]
  | incrementInt =>
    intro c x level hc hx ht hdepth
    cases hc
    obtain ⟨w, len, y, rfl, hy⟩ := emits_single hx
    rw [nesting] at hdepth
    exact tagged_walked (by decide) ht hdepth fun _ _ _ => by simp [walks_int hy]
  | incrementDouble =>
    intro c x level hc hx ht hdepth
    cases hc
    obtain ⟨w, len, y, rfl, hy⟩ := emits_single hx
    rw [nesting] at hdepth
    exact tagged_walked (by decide) ht hdepth fun _ _ _ => by simp [walks_float hy]
  | list _ ih =>
    intro c x level hc hx ht hdepth
    obtain ⟨cs, hcs, hc⟩ := bind_ok hc
    cases hc
    cases hx with
    | list hx =>
      rw [nesting] at hdepth
      obtain ⟨level, rfl⟩ : ∃ k, level = k + 1 := ⟨level - 1, by omega⟩
      obtain ⟨htoo, hall⟩ := taken_array.mp ht
      exact walks_array htoo (elements_walked hcs hx hall (by omega)
        fun d hd c x hc hx ht hn => ih d hd hc hx ht hn)
  | @map m hd hk _ ih =>
    intro c x level hc hx ht hdepth
    obtain ⟨ces, hces, hc⟩ := bind_ok hc
    cases hc
    obtain ⟨ces', rfl, hall⟩ := encodeMembers_distinct hk (by simpa [usedKeys] using hd) hces
    cases hx with
    | @map _ len es hx =>
      rw [nesting] at hdepth
      obtain ⟨level, rfl⟩ : ∃ k, level = k + 1 := ⟨level - 1, by omega⟩
      obtain ⟨htoo, htaken⟩ := taken_map.mp ht
      have hwalks := entries_walked hall hx htaken (show nestingEntries m ≤ level by omega)
        fun e he c x hc hx ht hn => ih e he hc hx ht hn
      rw [walks, countable_of_taken htoo, hwalks]
      rfl
  | arrayUnion _ _ ih =>
    intro c x level hc hx ht hdepth
    obtain ⟨cs, hcs, hc⟩ := bind_ok hc
    cases hc
    obtain ⟨w, len, xs, rfl, hxs⟩ := emits_items hx
    rw [nesting] at hdepth
    refine tagged_walked (by decide) ht hdepth fun hall level hn => ?_
    exact elements_walked hcs hxs hall hn fun d hd c x hc hx ht hn => ih d hd hc hx ht hn
  | arrayRemove _ _ ih =>
    intro c x level hc hx ht hdepth
    obtain ⟨cs, hcs, hc⟩ := bind_ok hc
    cases hc
    obtain ⟨w, len, xs, rfl, hxs⟩ := emits_items hx
    rw [nesting] at hdepth
    refine tagged_walked (by decide) ht hdepth fun hall level hn => ?_
    exact elements_walked hcs hxs hall hn fun d hd c x hc hx ht hn => ih d hd hc hx ht hn
  | null =>
    intro c x level hc hx _ _
    cases hc
    exact walks_null hx
  | bool =>
    intro c x level hc hx _ _
    cases hc
    cases hx
    cases level <;> rfl
  | string =>
    intro c x level hc hx _ _
    cases hc
    exact walks_string hx
  | uint8List =>
    intro c x level hc hx _ _
    cases hc
    cases hx
    cases level <;> rfl
  | reference =>
    intro c x level hc hx _ _
    cases hc
    exact walks_tagged hx fun y => walks_string
  | delete =>
    intro c x level hc hx _ _
    cases hc
    exact walks_tagged hx fun y => walks_null
  | serverTimestamp =>
    intro c x level hc hx _ _
    cases hc
    exact walks_tagged hx fun y => walks_null

end Walks

section Same

theorem elements_keyed {xs : List Object} {vs : List FieldValue}
    (ih : ∀ x ∈ xs, ∀ v, SameTree x (toDart v) → Tree true x)
    (h : List.Forall₂ SameTree xs (toDarts vs)) : ∀ x ∈ xs, Tree true x := by
  induction xs generalizing vs with
  | nil => simp
  | cons x xs ihxs =>
    cases vs with
    | nil => cases h
    | cons v vs =>
      rw [toDarts, List.forall₂_cons] at h
      refine List.forall_mem_cons.mpr ⟨ih x (by simp) v h.1, ?_⟩
      exact ihxs (fun y hy => ih y (List.mem_cons_of_mem _ hy)) h.2

/-- Only a tree is equal to what the native side holds, of which nanoseconds fit
int32. -/
theorem StringKeyed.tree {d : Object} (h : StringKeyed d) :
    ∀ v, SameTree d (toDart v) → Tree true d := by
  induction h with
  | null => exact fun _ _ => .null
  | bool => exact fun _ _ => .bool
  | int => exact fun _ _ => .int
  | double => exact fun _ _ => .double
  | string => exact fun _ _ => .string
  | uint8List => exact fun _ _ => .uint8List
  | timestamp =>
    intro v hs
    generalize ho : toDart v = o at hs
    cases hs with
    | number hx _ => cases hx
    | timestamp =>
      cases v with
      | timestamp s n =>
        cases ho
        exact .timestamp
      | _ => cases ho
  | geoPoint => exact fun _ _ => .geoPoint
  | reference => exact fun _ _ => .reference
  | list _ ih =>
    intro v hs
    generalize ho : toDart v = o at hs
    cases hs with
    | number hx _ => cases hx
    | list hl hall =>
      cases v with
      | array vs =>
        cases ho
        exact .list (elements_keyed ih (pointwise_iff.mp ⟨hl, hall⟩))
      | _ => cases ho
  | @map m hd hk _ ih =>
    intro v hs
    generalize ho : toDart v = o at hs
    cases hs with
    | number hx _ => cases hx
    | map _ _ hkeys hall =>
      cases v with
      | map n =>
        cases ho
        refine .map hd hk fun e he => ?_
        have hkey := (hkeys e.1).mp (List.mem_map_of_mem (f := Prod.fst) he)
        obtain ⟨⟨k, y⟩, hy, heq⟩ := List.mem_map.mp hkey
        obtain ⟨s, w, _, _, rfl⟩ := mem_toMembers.mp hy
        refine ih e he w (hall e.1 e.2 _ he ?_)
        rw [← heq]
        exact hy
      | _ => cases ho
  | delete => exact fun _ _ => .delete rfl
  | serverTimestamp => exact fun _ _ => .serverTimestamp rfl
  | arrayUnion _ ih =>
    intro v hs
    generalize ho : toDart v = o at hs
    cases hs with
    | number hx _ => cases hx
    | arrayUnion hl hall =>
      cases v with
      | arrayUnion vs =>
        cases ho
        exact .arrayUnion rfl (elements_keyed ih (pointwise_iff.mp ⟨hl, hall⟩))
      | _ => cases ho
  | arrayRemove _ ih =>
    intro v hs
    generalize ho : toDart v = o at hs
    cases hs with
    | number hx _ => cases hx
    | arrayRemove hl hall =>
      cases v with
      | arrayRemove vs =>
        cases ho
        exact .arrayRemove rfl (elements_keyed ih (pointwise_iff.mp ⟨hl, hall⟩))
      | _ => cases ho
  | incrementInt => exact fun _ _ => .incrementInt rfl
  | incrementDouble => exact fun _ _ => .incrementDouble rfl

end Same

end Firestore
