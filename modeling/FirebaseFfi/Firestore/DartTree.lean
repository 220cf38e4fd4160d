import FirebaseFfi.Firestore.DartCodec
import FirebaseFfi.Firestore.Grammar
import Mathlib.Data.List.Forall2

namespace Firestore
open Cbor Tinycbor Dart

/-- Doubles that stand for one number. -/
def SameNumber (a b : UInt64) : Prop :=
  (Ieee.double.datum a.toNat).number = (Ieee.double.datum b.toNat).number

def numberOf : Object → Option Ieee.Number
  | .int i => some (.finite i.toInt)
  | .double d => some (Ieee.double.datum d.toNat).number
  | _ => none

/-- Equal trees: numbers by their value, lists element by element, and maps by
their keys and the value under each, whatever the order. -/
inductive SameTree : Object → Object → Prop
  | null : SameTree .null .null
  | bool {b} : SameTree (.bool b) (.bool b)
  | number {x y q} : numberOf x = some q → numberOf y = some q → SameTree x y
  | string {s} : SameTree (.string s) (.string s)
  | uint8List {b} : SameTree (.uint8List b) (.uint8List b)
  | timestamp {s n} : SameTree (.timestamp s n) (.timestamp s n)
  | geoPoint {a b a' b'} : SameNumber a a' → SameNumber b b' →
      SameTree (.geoPoint a b) (.geoPoint a' b')
  | reference {p} : SameTree (.reference p) (.reference p)
  | list {xs ys : List Object} : xs.length = ys.length →
      (∀ (i : Nat) (x y : Object), xs[i]? = some x → ys[i]? = some y → SameTree x y) →
      SameTree (.list xs) (.list ys)
  | map {m n : List (Object × Object)} : (m.map Prod.fst).Nodup → (n.map Prod.fst).Nodup →
      (∀ k, k ∈ m.map Prod.fst ↔ k ∈ n.map Prod.fst) →
      (∀ k x y, (k, x) ∈ m → (k, y) ∈ n → SameTree x y) → SameTree (.map m) (.map n)
  | delete : SameTree .delete .delete
  | serverTimestamp : SameTree .serverTimestamp .serverTimestamp
  | arrayUnion {xs ys : List Object} : xs.length = ys.length →
      (∀ (i : Nat) (x y : Object), xs[i]? = some x → ys[i]? = some y → SameTree x y) →
      SameTree (.arrayUnion xs) (.arrayUnion ys)
  | arrayRemove {xs ys : List Object} : xs.length = ys.length →
      (∀ (i : Nat) (x y : Object), xs[i]? = some x → ys[i]? = some y → SameTree x y) →
      SameTree (.arrayRemove xs) (.arrayRemove ys)
  | incrementInt {i} : SameTree (.incrementInt i) (.incrementInt i)
  | incrementDouble {a b} : SameNumber a b → SameTree (.incrementDouble a) (.incrementDouble b)

/-- The trees of values Firestore has a type for, with sentinels or without.
Nanoseconds fit int32, and the keys of a map are distinct strings. -/
inductive Tree (sentinels : Bool) : Object → Prop
  | null : Tree sentinels .null
  | bool {b} : Tree sentinels (.bool b)
  | int {i} : Tree sentinels (.int i)
  | double {d} : Tree sentinels (.double d)
  | string {s} : Tree sentinels (.string s)
  | uint8List {b} : Tree sentinels (.uint8List b)
  | timestamp {s} {n : Int32} : Tree sentinels (.timestamp s n.toInt64)
  | geoPoint {a b} : Tree sentinels (.geoPoint a b)
  | reference {p} : Tree sentinels (.reference p)
  | list {xs} : (∀ x ∈ xs, Tree sentinels x) → Tree sentinels (.list xs)
  | map {m : List (Object × Object)} : (m.map Prod.fst).Nodup →
      (∀ e ∈ m, ∃ s, e.1 = .string s) → (∀ e ∈ m, Tree sentinels e.2) → Tree sentinels (.map m)
  | delete : sentinels = true → Tree sentinels .delete
  | serverTimestamp : sentinels = true → Tree sentinels .serverTimestamp
  | arrayUnion {xs} : sentinels = true → (∀ x ∈ xs, Tree sentinels x) →
      Tree sentinels (.arrayUnion xs)
  | arrayRemove {xs} : sentinels = true → (∀ x ∈ xs, Tree sentinels x) →
      Tree sentinels (.arrayRemove xs)
  | incrementInt {i} : sentinels = true → Tree sentinels (.incrementInt i)
  | incrementDouble {d} : sentinels = true → Tree sentinels (.incrementDouble d)

mutual
/-- The Dart object of a native value. -/
def toDart : FieldValue → Object
  | .null => .null
  | .boolean b => .bool b
  | .integer i => .int i
  | .double d => .double d
  | .string s => .string s
  | .blob b => .uint8List b
  | .timestamp s n => .timestamp s n.toInt64
  | .geoPoint a b => .geoPoint a b
  | .reference p => .reference p
  | .array vs => .list (toDarts vs)
  | .map m => .map (toMembers m)
  | .delete => .delete
  | .serverTimestamp => .serverTimestamp
  | .arrayUnion vs => .arrayUnion (toDarts vs)
  | .arrayRemove vs => .arrayRemove (toDarts vs)
  | .incrementInt i => .incrementInt i
  | .incrementDouble d => .incrementDouble d

def toDarts : List FieldValue → List Object
  | [] => []
  | v :: vs => toDart v :: toDarts vs

def toMembers : List (Bytes × FieldValue) → List (Object × Object)
  | [] => []
  | (k, v) :: m => (.string k, toDart v) :: toMembers m
end

/-- Every integer in the item is within int64. -/
inductive IntsWithin : Item → Prop
  | int {neg w n} : n < 2 ^ 63 → IntsWithin (.int neg w n)
  | str {text s} : IntsWithin (.str text s)
  | array {len xs} : (∀ x ∈ xs, IntsWithin x) → IntsWithin (.array len xs)
  | map {len es} : (∀ e ∈ es, IntsWithin e.2) → IntsWithin (.map len es)
  | tag {w t x} : IntsWithin x → IntsWithin (.tag w t x)
  | prim {w n} : IntsWithin (.prim w n)

theorem toDarts_eq_map (vs : List FieldValue) : toDarts vs = vs.map toDart := by
  induction vs with
  | nil => rfl
  | cons v vs ih => rw [toDarts, ih, List.map_cons]

theorem toMembers_eq_map (m : MapFieldValue) :
    toMembers m = m.map fun e => (.string e.1, toDart e.2) := by
  induction m with
  | nil => rfl
  | cons e m ih => rw [toMembers, ih, List.map_cons]

theorem within_array {len : Option Width} {xs : List Item} :
    IntsWithin (.array len xs) ↔ ∀ x ∈ xs, IntsWithin x := by
  constructor
  · intro h
    cases h with
    | array h => exact h
  · exact .array

/-- Of a list that starts with two texts only what follows counts. -/
theorem entry_within {len : Option Width} {op path : Str} {x : Item} :
    IntsWithin (.array len [.str true op, .str true path, x]) ↔ IntsWithin x := by
  rw [within_array]
  constructor
  · intro h
    exact h x (by simp)
  · intro h y hy
    simp only [List.mem_cons, List.not_mem_nil, or_false] at hy
    rcases hy with rfl | rfl | rfl
    · exact .str
    · exact .str
    · exact h

theorem within_map {len : Option Width} {es : List (Item × Item)} :
    IntsWithin (.map len es) ↔ ∀ e ∈ es, IntsWithin e.2 := by
  constructor
  · intro h
    cases h with
    | map h => exact h
  · exact .map

theorem within_tag {w : Width} {t : Nat} {x : Item} :
    IntsWithin (.tag w t x) ↔ IntsWithin x := by
  constructor
  · intro h
    cases h with
    | tag h => exact h
  · exact .tag

theorem within_int {neg : Bool} {w : Width} {n : Nat} :
    IntsWithin (.int neg w n) ↔ n < 2 ^ 63 := by
  constructor
  · intro h
    cases h with
    | int h => exact h
  · exact .int

/-- Lists are equal trees when their elements are, one by one. -/
theorem pointwise_iff {xs ys : List Object} :
    (xs.length = ys.length ∧
      ∀ (i : Nat) (x y : Object), xs[i]? = some x → ys[i]? = some y → SameTree x y) ↔
      List.Forall₂ SameTree xs ys := by
  rw [List.forall₂_iff_get]
  constructor
  · rintro ⟨hl, h⟩
    refine ⟨hl, fun i hx hy => h i _ _ ?_ ?_⟩
    · simp [List.getElem?_eq_getElem hx]
    · simp [List.getElem?_eq_getElem hy]
  · rintro ⟨hl, h⟩
    refine ⟨hl, fun i x y hx hy => ?_⟩
    obtain ⟨hi, rfl⟩ := List.getElem?_eq_some_iff.mp hx
    obtain ⟨hj, rfl⟩ := List.getElem?_eq_some_iff.mp hy
    exact h i hi hj

theorem same_list {xs ys : List Object} :
    SameTree (.list xs) (.list ys) ↔ List.Forall₂ SameTree xs ys := by
  rw [← pointwise_iff]
  constructor
  · intro h
    cases h with
    | number hx _ => cases hx
    | list hl h => exact ⟨hl, h⟩
  · exact fun h => .list h.1 h.2

theorem same_arrayUnion {xs ys : List Object} :
    SameTree (.arrayUnion xs) (.arrayUnion ys) ↔ List.Forall₂ SameTree xs ys := by
  rw [← pointwise_iff]
  constructor
  · intro h
    cases h with
    | number hx _ => cases hx
    | arrayUnion hl h => exact ⟨hl, h⟩
  · exact fun h => .arrayUnion h.1 h.2

theorem same_arrayRemove {xs ys : List Object} :
    SameTree (.arrayRemove xs) (.arrayRemove ys) ↔ List.Forall₂ SameTree xs ys := by
  rw [← pointwise_iff]
  constructor
  · intro h
    cases h with
    | number hx _ => cases hx
    | arrayRemove hl h => exact ⟨hl, h⟩
  · exact fun h => .arrayRemove h.1 h.2

/-- Maps with the same keys in the same order are equal trees when their
values are, one by one. -/
theorem same_members {m n : List (Object × Object)} (hk : m.map Prod.fst = n.map Prod.fst)
    (hd : (m.map Prod.fst).Nodup) :
    SameTree (.map m) (.map n) ↔ List.Forall₂ (fun e e' => SameTree e.2 e'.2) m n := by
  constructor
  · intro h
    cases h with
    | number hx _ => cases hx
    | map _ _ _ h =>
      have hl : m.length = n.length := by simpa using congrArg List.length hk
      refine List.forall₂_iff_get.mpr ⟨hl, fun i hi hj => ?_⟩
      have hkey : (m.get ⟨i, hi⟩).1 = (n.get ⟨i, hj⟩).1 := by
        have := congrArg (fun l => l[i]?) hk
        simpa [List.getElem?_map, List.getElem?_eq_getElem hi, List.getElem?_eq_getElem hj] using this
      refine h (m.get ⟨i, hi⟩).1 _ _ (List.get_mem m _) ?_
      rw [hkey]
      exact List.get_mem n _
  · intro h
    refine .map hd (hk ▸ hd) (by simp [hk]) fun k x y hx hy => ?_
    induction h with
    | nil => cases hx
    | @cons e e' m n he _ ih =>
      simp only [List.map_cons, List.cons.injEq] at hk
      simp only [List.map_cons, List.nodup_cons] at hd
      rcases List.mem_cons.mp hx with rfl | hx
      · rcases List.mem_cons.mp hy with rfl | hy
        · exact he
        · have hmem := List.mem_map_of_mem (f := Prod.fst) hy
          rw [← hk.2] at hmem
          exact absurd hmem hd.1
      · rcases List.mem_cons.mp hy with rfl | hy
        · rw [hk.1] at hd
          exact absurd (List.mem_map_of_mem (f := Prod.fst) hx) hd.1
        · exact ih hk.2 hd.2 hx hy

end Firestore
