import FirebaseFfi.Dart.Variant
import FirebaseFfi.Database.DbQuery
import FirebaseFfi.Firebase.VariantReads

namespace Database
open Cbor Tinycbor Dart
open Firebase (Variant VariantMap Less readVariant readEntries parseVariant parseVariant_item)
open Firestore (map_entries)

def QuerySpec.empty : QuerySpec := ⟨[], by simp⟩

/-- `emplace` keeps the value of a key that is already there. -/
def QuerySpec.emplace (spec : QuerySpec) (key : Bytes) (value : Variant) : QuerySpec :=
  if h : key ∈ spec.entries.map Prod.fst then spec
  else {
    entries := spec.entries ++ [(key, value)]
    distinct := by
      rw [List.map_append, List.nodup_append]
      refine ⟨spec.distinct, by simp, ?_⟩
      intro a ha b hb hab
      obtain rfl : b = key := by simpa using hb
      exact h (hab ▸ ha) }

/-- A key is copied from what `string_value()` points at. -/
def stringKeyed : QuerySpec → VariantMap → Option QuerySpec
  | out, [] => some out
  | out, (.string key, value) :: es => stringKeyed (out.emplace (cString key) value) es
  | _, _ :: _ => none

def parseVariantMap (less : Less) (cbor : Bytes) : Option QuerySpec :=
  match parseVariant less cbor with
  | .ok (.map es) => stringKeyed .empty es
  | _ => none

/-- The map that is encoded. -/
def DbQuery.toObject (q : DbQuery) : Object :=
  .map (q.spec.map fun e => (.string e.1.name, e.2))

section Delivery

variable (package : CborPackage) (less : Less)

/-- The value is delivered as `w` by some encoding that the package may emit. -/
def Conveys (v : Object) (w : Variant) : Prop :=
  ∃ c x, encodeVariantValue package v = .ok c ∧ Emits c x ∧ x.WF ∧ readVariant less x = .ok w

/-- The spec that ApplyQuerySpec receives for a query. No bytes are sent for a
query without entries, and nothing is applied then. -/
def Reaches (q : DbQuery) (spec : QuerySpec) : Prop :=
  if q.spec = [] then spec = .empty
  else ∃ c x, encodeVariantValue package q.toObject = .ok c ∧ Emits c x ∧ x.WF ∧
    parseVariantMap less x.bytes = some spec

/-- The package tells strings apart by their text. -/
def EqualTexts : Prop := ∀ a b, package.equal (.string a) (.string b) = decide (a = b)

variable {package less}

theorem setMember_fresh (heq : EqualTexts package) {out : List (Dart.CborValue × Dart.CborValue)}
    {k : Bytes} {c : Dart.CborValue} (h : ∀ d ∈ out, ∃ s, d.1 = .string s ∧ s ≠ k) :
    setMember package out (.string k) c = out ++ [(.string k, c)] := by
  rw [setMember, if_neg]
  intro hany
  obtain ⟨d, hd, hequal⟩ := List.any_eq_true.mp hany
  obtain ⟨s, hs, hne⟩ := h d hd
  rw [hs, heq, decide_eq_true_eq] at hequal
  exact hne hequal

/-- Members with distinct names are encoded one by one. -/
theorem members_encoded (heq : EqualTexts package) {es : List (SpecKey × Object)}
    {out ces : List (Dart.CborValue × Dart.CborValue)} (hd : (es.map Prod.fst).Nodup)
    (hout : ∀ d ∈ out, ∃ j : SpecKey, d.1 = .string j.name ∧ j ∉ es.map Prod.fst)
    (h : encodeVariantMembers package out (es.map fun e => (.string e.1.name, e.2)) = .ok ces) :
    ∃ ces', ces = out ++ ces' ∧ List.Forall₂ (fun e c =>
      c.1 = .string e.1.name ∧ encodeVariantValue package e.2 = .ok c.2) es ces' := by
  induction es generalizing out with
  | nil =>
    cases h
    exact ⟨[], by simp, .nil⟩
  | cons e es ih =>
    obtain ⟨j, v⟩ := e
    obtain ⟨hj, hd⟩ := List.nodup_cons.mp hd
    obtain ⟨k, hk, h⟩ := bind_ok h
    cases hk
    obtain ⟨c, hc, h⟩ := bind_ok h
    have hfresh : setMember package out (.string j.name) c = out ++ [(.string j.name, c)] := by
      apply setMember_fresh heq
      intro d hdmem
      obtain ⟨i, hi, hnot⟩ := hout d hdmem
      refine ⟨i.name, hi, fun hname => hnot ?_⟩
      rw [name_inj hname]
      exact List.mem_cons_self ..
    rw [hfresh] at h
    have hout' : ∀ d ∈ out ++ [(Dart.CborValue.string j.name, c)],
        ∃ i : SpecKey, d.1 = .string i.name ∧ i ∉ es.map Prod.fst := by
      intro d hdmem
      rcases List.mem_append.mp hdmem with hdmem | hdmem
      · obtain ⟨i, hi, hnot⟩ := hout d hdmem
        exact ⟨i, hi, fun hmem => hnot (List.mem_cons_of_mem _ hmem)⟩
      · rw [List.mem_singleton.mp hdmem]
        exact ⟨j, rfl, hj⟩
    obtain ⟨ces', rfl, hall⟩ := ih hd hout' h
    exact ⟨(.string j.name, c) :: ces', by simp, .cons ⟨rfl, hc⟩ hall⟩

/-- A key that is ordered with all the others is inserted. -/
theorem emplace_perm {map : VariantMap} {k v : Variant}
    (h : ∀ e ∈ map, less e.1 k = true ∨ less k e.1 = true) :
    (Firebase.emplace less map k v).Perm ((k, v) :: map) := by
  induction map with
  | nil => exact .refl _
  | cons e map ih =>
    unfold Firebase.emplace
    split
    · exact ((ih fun d hd => h d (List.mem_cons_of_mem _ hd)).cons e).trans (.swap _ _ _)
    · next hlt =>
      rw [if_pos ((h e (by simp)).resolve_left hlt)]

/-- An entry of the query and the entry that is read for it. -/
def Delivered (package : CborPackage) (less : Less) (d : SpecKey × Object) (e : Variant × Variant) :
    Prop := e.1 = .string d.1.name ∧ Conveys package less d.2 e.2

end Delivery

end Database
