import FirebaseFfi.Assoc.Assign
import FirebaseFfi.Dart.Snapshot

namespace Dart
open Assoc Cbor

/-- A plain `List<int>` of bytes. -/
def byteList (b : Bytes) : Object := .list (b.map fun byte => .int (.ofNat byte.toNat))

mutual
/-- The object that a value without tags is, as `toObject` gives it. A byte string is a
plain list, and a map of which a key comes twice has the value that comes last. -/
inductive Shows : CborValue → Object → Prop
  | null : Shows .null .null
  | bool {b} : Shows (.bool b) (.bool b)
  | int {i : Int64} : Shows (.int i.toInt) (.int i)
  | float {d} : Shows (.float d) (.double d)
  | string {s} : Shows (.string s) (.string s)
  | bytes {b} : Shows (.bytes b) (byteList b)
  | list {cs os} : ShowsAll cs os → Shows (.list cs) (.list os)
  | map {ces oes} : ShowsEntries ces oes →
      Shows (.map ces) (.map ((assignAll [] oes).map fun e => (.string e.1, e.2)))

inductive ShowsAll : List CborValue → List Object → Prop
  | nil : ShowsAll [] []
  | cons {c o cs os} : Shows c o → ShowsAll cs os → ShowsAll (c :: cs) (o :: os)

inductive ShowsEntries : List (CborValue × CborValue) → List (Bytes × Object) → Prop
  | nil : ShowsEntries [] []
  | cons {k c o ces oes} : Shows c o → ShowsEntries ces oes →
      ShowsEntries ((.string k, c) :: ces) ((k, o) :: oes)
end

section Pieces

variable {α : Type} {xs : List α}

theorem shows_list (item : α → Item) (object : α → Object)
    (h : ∀ x ∈ xs, Shows (cborDecode (item x)) (object x)) :
    ShowsAll (decodeAll (xs.map item)) (xs.map object) := by
  induction xs with
  | nil => exact .nil
  | cons x xs ih => exact .cons (h x List.mem_cons_self) (ih fun y hy => h y (List.mem_cons_of_mem _ hy))

theorem shows_entries (key : α → Item) (text : α → Bytes) (item : α → Item) (object : α → Object)
    (hkey : ∀ x ∈ xs, cborDecode (key x) = .string (text x))
    (h : ∀ x ∈ xs, Shows (cborDecode (item x)) (object x)) :
    ShowsEntries (decodeEntries (xs.map fun x => (key x, item x)))
      (xs.map fun x => (text x, object x)) := by
  induction xs with
  | nil => exact .nil
  | cons x xs ih =>
    have hrest := ih (fun y hy => hkey y (List.mem_cons_of_mem _ hy)) fun y hy =>
      h y (List.mem_cons_of_mem _ hy)
    rw [List.map_cons, decodeEntries, hkey x List.mem_cons_self]
    exact .cons (h x List.mem_cons_self) hrest

end Pieces

/-- What is assumed of the cbor package when a snapshot is decoded. It decodes
whole well-formed items only, each as RFC 8949 says, and toObject gives the object
a value is, if it gives one. -/
structure CborPackage.Documented (package : CborPackage) : Prop where
  decode : ∀ bytes c, package.decode bytes = .ok c → ∃ x : Item, x.WF ∧ x.bytes = bytes ∧
    c = cborDecode x
  toObject : ∀ c o object, Shows c o → package.toObject c = .ok object → object = o

theorem bytePackage_documented : bytePackage.Documented := by
  refine ⟨?_, ?_⟩
  · intro bytes c h
    simp only [bytePackage] at h
    split at h
    · next b =>
      split at h
      · next hb =>
        cases h
        subst hb
        exact ⟨.null, .prim (by decide) (by simp), rfl, rfl⟩
      · split at h
        · next hb =>
          cases h
          have hlt : b.toNat < Width.limit .tiny := UInt8.lt_iff_toNat_lt.mp hb
          refine ⟨.int false .tiny b.toNat, .int hlt, ?_, rfl⟩
          simp [Item.bytes, head, intMajor, Width.info, Width.size, be]
        · cases h
    · cases h
  · intro c o object hshow h
    cases hshow with
    | null =>
      cases h
      rfl
    | int =>
      simp only [bytePackage, Int64.ofInt_toInt] at h
      cases h
      rfl
    | _ => cases h

end Dart
