import FirebaseFfi.Dart.Snapshot
import FirebaseFfi.Machine.Traverse

namespace Dart
open Cbor

section Encode

variable (package : CborPackage)

/-- An entry of a map literal whose keys are compared by the package. -/
def setMember (m : List (CborValue × CborValue)) (key value : CborValue) :
    List (CborValue × CborValue) :=
  if m.any (fun e => package.equal e.1 key) then
    m.map fun e => if package.equal e.1 key then (e.1, value) else e
  else m ++ [(key, value)]

mutual
def encodeVariantValue : Object → Except Thrown CborValue
  | .null => .ok .null
  | .bool b => .ok (.bool b)
  | .int i => .ok (.int i.toInt)
  | .double d => .ok (.float d)
  | .string s => .ok (.string s)
  | .uint8List b => .ok (.bytes b)
  | .list xs => do return .list (← encodeVariants xs)
  | .map es => do return .map (← encodeVariantMembers [] es)
  | _ => .error .argumentError

def encodeVariants : List Object → Except Thrown (List CborValue)
  | [] => .ok []
  | x :: xs => do
    let c ← encodeVariantValue x
    let cs ← encodeVariants xs
    return c :: cs

/-- Members after those in `out`. -/
def encodeVariantMembers (out : List (CborValue × CborValue)) :
    List (Object × Object) → Except Thrown (List (CborValue × CborValue))
  | [] => .ok out
  | (key, x) :: es => do
    let k ← encodeVariantValue key
    let c ← encodeVariantValue x
    encodeVariantMembers (setMember package out k c) es
end

def encodeVariant (v : Object) : Except Thrown Bytes := do
  return package.encode (← encodeVariantValue package v)

end Encode

/-- A value with a CBOR representation, and every value in it with one too. -/
inductive Encodable : Object → Prop
  | null : Encodable .null
  | bool {b} : Encodable (.bool b)
  | int {i} : Encodable (.int i)
  | double {d} : Encodable (.double d)
  | string {s} : Encodable (.string s)
  | uint8List {b} : Encodable (.uint8List b)
  | list {xs} : (∀ x ∈ xs, Encodable x) → Encodable (.list xs)
  | map {es} : (∀ e ∈ es, Encodable e.1) → (∀ e ∈ es, Encodable e.2) → Encodable (.map es)

section Encodes

variable {package : CborPackage}

theorem encodeVariants_eq_mapM (xs : List Object) :
    encodeVariants package xs = xs.mapM (encodeVariantValue package) := by
  induction xs with
  | nil => rfl
  | cons x xs ih => rw [encodeVariants, List.mapM_cons, ih]

theorem encodeVariants_ok {xs : List Object}
    (ih : ∀ x ∈ xs, (∃ c, encodeVariantValue package x = .ok c) ↔ Encodable x) :
    (∃ cs, encodeVariants package xs = .ok cs) ↔ ∀ x ∈ xs, Encodable x := by
  rw [encodeVariants_eq_mapM, Machine.mapM_total]
  exact forall₂_congr ih

theorem encodeVariantMembers_ok {es : List (Object × Object)}
    (hk : ∀ e ∈ es, (∃ c, encodeVariantValue package e.1 = .ok c) ↔ Encodable e.1)
    (hv : ∀ e ∈ es, (∃ c, encodeVariantValue package e.2 = .ok c) ↔ Encodable e.2)
    (out : List (CborValue × CborValue)) :
    (∃ m, encodeVariantMembers package out es = .ok m) ↔
      (∀ e ∈ es, Encodable e.1) ∧ ∀ e ∈ es, Encodable e.2 := by
  induction es generalizing out with
  | nil => exact iff_of_true ⟨out, rfl⟩ (by simp)
  | cons e es ih =>
    have htail := ih (fun e he => hk e (List.mem_cons_of_mem _ he))
      fun e he => hv e (List.mem_cons_of_mem _ he)
    rw [List.forall_mem_cons, List.forall_mem_cons, ← hk e (by simp), ← hv e (by simp)]
    constructor
    · rintro ⟨m, h⟩
      obtain ⟨k, hk, h⟩ := bind_ok h
      obtain ⟨c, hc, h⟩ := bind_ok h
      obtain ⟨hks, hvs⟩ := (htail _).mp ⟨m, h⟩
      exact ⟨⟨⟨k, hk⟩, hks⟩, ⟨c, hc⟩, hvs⟩
    · rintro ⟨⟨⟨k, hk⟩, hks⟩, ⟨c, hc⟩, hvs⟩
      obtain ⟨m, hm⟩ := (htail (setMember package out k c)).mpr ⟨hks, hvs⟩
      refine ⟨m, ?_⟩
      rw [encodeVariantMembers, hk, hc]
      exact hm

/-- encodeVariantValue succeeds on exactly the values it has a form for. -/
theorem encodeVariantValue_ok (v : Object) :
    (∃ c, encodeVariantValue package v = .ok c) ↔ Encodable v := by
  -- Elements, keys and values are smaller than the object around them.
  induction hn : sizeOf v using Nat.strong_induction_on generalizing v with
  | _ n ih =>
    subst hn
    cases v with
    | null => exact iff_of_true ⟨_, rfl⟩ .null
    | bool => exact iff_of_true ⟨_, rfl⟩ .bool
    | int => exact iff_of_true ⟨_, rfl⟩ .int
    | double => exact iff_of_true ⟨_, rfl⟩ .double
    | string => exact iff_of_true ⟨_, rfl⟩ .string
    | uint8List => exact iff_of_true ⟨_, rfl⟩ .uint8List
    | list xs =>
      have hlt : ∀ x ∈ xs, sizeOf x < sizeOf (Object.list xs) := by
        intro x hx
        have := List.sizeOf_lt_of_mem hx
        simp only [Object.list.sizeOf_spec]
        omega
      have hxs : (∃ cs, encodeVariants package xs = .ok cs) ↔ ∀ x ∈ xs, Encodable x :=
        encodeVariants_ok fun x hx => ih _ (hlt x hx) x rfl
      rw [encodeVariantValue, map_ok, hxs]
      constructor
      · exact .list
      · intro h
        cases h
        assumption
    | map es =>
      have hlt : ∀ e ∈ es, sizeOf e.1 < sizeOf (Object.map es) ∧
          sizeOf e.2 < sizeOf (Object.map es) := by
        rintro ⟨k, x⟩ he
        have hlt := List.sizeOf_lt_of_mem he
        simp only [Prod.mk.sizeOf_spec] at hlt
        simp only [Object.map.sizeOf_spec]
        omega
      have hes := encodeVariantMembers_ok (fun e he => ih _ (hlt e he).1 e.1 rfl)
        (fun e he => ih _ (hlt e he).2 e.2 rfl) []
      rw [encodeVariantValue, map_ok, hes]
      constructor
      · intro h
        exact .map h.1 h.2
      · intro h
        cases h
        constructor <;> assumption
    | _ =>
      refine iff_of_false ?_ fun h => by cases h
      rintro ⟨c, h⟩
      cases h

theorem encodeVariant_ok (v : Object) :
    (∃ b, encodeVariant package v = .ok b) ↔ Encodable v := by
  rw [encodeVariant, map_ok]
  apply encodeVariantValue_ok

end Encodes

end Dart
