import FirebaseFfi.Firestore.DartCodec

namespace Firestore
open Cbor Dart

/-- A value with a Firestore mapping. So is every element and value in it, and
every key of a map in it has a text. -/
inductive Storable (toString : Object → Option Bytes) : Object → Prop
  | null : Storable toString .null
  | bool {b} : Storable toString (.bool b)
  | int {i} : Storable toString (.int i)
  | double {d} : Storable toString (.double d)
  | string {s} : Storable toString (.string s)
  | uint8List {b} : Storable toString (.uint8List b)
  | timestamp {s n} : Storable toString (.timestamp s n)
  | geoPoint {a b} : Storable toString (.geoPoint a b)
  | reference {p} : Storable toString (.reference p)
  | delete : Storable toString .delete
  | serverTimestamp : Storable toString .serverTimestamp
  | incrementInt {i} : Storable toString (.incrementInt i)
  | incrementDouble {d} : Storable toString (.incrementDouble d)
  | arrayUnion {xs} : (∀ x ∈ xs, Storable toString x) → Storable toString (.arrayUnion xs)
  | arrayRemove {xs} : (∀ x ∈ xs, Storable toString x) → Storable toString (.arrayRemove xs)
  | list {xs} : (∀ x ∈ xs, Storable toString x) → Storable toString (.list xs)
  | map {es} : (∀ e ∈ es, interpolate toString e.1 ≠ none) → (∀ e ∈ es, Storable toString e.2) →
      Storable toString (.map es)

section Encodes

variable {toString : Object → Option Bytes}

theorem encodeElements_ok {xs : List Object}
    (ih : ∀ x ∈ xs, (∃ c, encodeFirestoreValue toString x = .ok c) ↔ Storable toString x) :
    (∃ cs, encodeElements toString xs = .ok cs) ↔ ∀ x ∈ xs, Storable toString x := by
  rw [encodeElements_eq_mapM, Machine.mapM_total]
  exact forall₂_congr ih

theorem encodeMembers_ok {es : List (Object × Object)}
    (ih : ∀ e ∈ es, (∃ c, encodeFirestoreValue toString e.2 = .ok c) ↔ Storable toString e.2)
    (out : List (Bytes × Dart.CborValue)) :
    (∃ m, encodeMembers toString out es = .ok m) ↔
      (∀ e ∈ es, interpolate toString e.1 ≠ none) ∧ ∀ e ∈ es, Storable toString e.2 := by
  induction es generalizing out with
  | nil => exact iff_of_true ⟨out, rfl⟩ (by simp)
  | cons e es ihes =>
    have htail := ihes fun e he => ih e (List.mem_cons_of_mem _ he)
    rw [List.forall_mem_cons, List.forall_mem_cons, ← ih e (by simp)]
    rw [encodeMembers]
    cases hk : interpolate toString e.1 with
    | none =>
      refine iff_of_false ?_ fun h => h.1.1 rfl
      rintro ⟨m, h⟩
      cases h
    | some k =>
      constructor
      · rintro ⟨m, h⟩
        obtain ⟨c, hc, h⟩ := bind_ok h
        obtain ⟨hks, hvs⟩ := (htail _).mp ⟨m, h⟩
        exact ⟨⟨by simp, hks⟩, ⟨c, hc⟩, hvs⟩
      · rintro ⟨⟨_, hks⟩, ⟨c, hc⟩, hvs⟩
        obtain ⟨m, hm⟩ := (htail (setEntry out k c)).mpr ⟨hks, hvs⟩
        refine ⟨m, ?_⟩
        dsimp only
        rw [hc]
        exact hm

/-- encodeFirestoreValue succeeds on exactly the values with a mapping. -/
theorem encodeFirestoreValue_ok (v : Object) :
    (∃ c, encodeFirestoreValue toString v = .ok c) ↔ Storable toString v := by
  -- Elements and values are smaller than the object around them.
  induction hn : sizeOf v using Nat.strong_induction_on generalizing v with
  | _ n ih =>
    subst hn
    have helements : ∀ xs : List Object, (∀ x ∈ xs, sizeOf x < sizeOf v) →
        ((∃ cs, encodeElements toString xs = .ok cs) ↔ ∀ x ∈ xs, Storable toString x) :=
      fun xs hlt => encodeElements_ok fun x hx => ih _ (hlt x hx) x rfl
    cases v with
    | list xs =>
      rw [encodeFirestoreValue, map_ok, helements xs fun x hx => by
        have := List.sizeOf_lt_of_mem hx
        simp only [Object.list.sizeOf_spec]
        omega]
      exact ⟨.list, fun h => by cases h; assumption⟩
    | arrayUnion xs =>
      rw [encodeFirestoreValue, map_ok, helements xs fun x hx => by
        have := List.sizeOf_lt_of_mem hx
        simp only [Object.arrayUnion.sizeOf_spec]
        omega]
      exact ⟨.arrayUnion, fun h => by cases h; assumption⟩
    | arrayRemove xs =>
      rw [encodeFirestoreValue, map_ok, helements xs fun x hx => by
        have := List.sizeOf_lt_of_mem hx
        simp only [Object.arrayRemove.sizeOf_spec]
        omega]
      exact ⟨.arrayRemove, fun h => by cases h; assumption⟩
    | map es =>
      have hlt : ∀ e ∈ es, sizeOf e.2 < sizeOf (Object.map es) := by
        rintro ⟨k, x⟩ he
        have := List.sizeOf_lt_of_mem he
        simp only [Prod.mk.sizeOf_spec] at this
        simp only [Object.map.sizeOf_spec]
        omega
      rw [encodeFirestoreValue, map_ok,
        encodeMembers_ok (fun e he => ih _ (hlt e he) e.2 rfl) []]
      exact ⟨fun h => .map h.1 h.2, fun h => by cases h; constructor <;> assumption⟩
    | other id =>
      refine iff_of_false ?_ fun h => by cases h
      rintro ⟨c, h⟩
      cases h
    | _ => exact iff_of_true ⟨_, rfl⟩ (by constructor)

end Encodes

end Firestore
