import FirebaseFfi.Cbor.Unique
import FirebaseFfi.Dart.Shown

namespace Dart
open Assoc Cbor

/-- The UTF-8 of some text. -/
def Utf8 (s : Bytes) : Prop := ∃ t : String, t.toUTF8.data.toList = s

/-- An item of the kinds that the native side writes, with texts that are UTF-8. -/
inductive Readable : Item → Prop
  | null : Readable .null
  | bool {b} : Readable (.bool b)
  | int {neg w n} : Readable (.int neg w n)
  | double {n} : Readable (.prim .eight n)
  | text {w s} : Utf8 s → Readable (.str true (.plain w s))
  | bytes {s} : Readable (.str false s)
  | array {len xs} : (∀ x ∈ xs, Readable x) → Readable (.array len xs)
  | map {len es} : (∀ e ∈ es, Readable e.1) → (∀ e ∈ es, Readable e.2) → Readable (.map len es)

/-- What is assumed of the cbor package where a payload has to be decoded: it
decodes such an item, when it is well-formed, to the object that it shows. -/
structure CborPackage.Reads (package : CborPackage) : Prop where
  reads : ∀ (x : Item) (o : Object), x.WF → Readable x → Shows (cborDecode x) o →
    package.decode x.bytes >>= package.toObject = .ok o

mutual
def objectOf : CborValue → Option Object
  | .null => some .null
  | .bool b => some (.bool b)
  | .int i => some (.int (Int64.ofInt i))
  | .float d => some (.double d)
  | .string s => some (.string s)
  | .bytes b => some (byteList b)
  | .list cs | .tagged _ (.list cs) => (objectsOf cs).map .list
  | .map ces => (membersOf ces).map fun oes =>
    .map ((assignAll [] oes).map fun e => (.string e.1, e.2))
  | _ => none

def objectsOf : List CborValue → Option (List Object)
  | [] => some []
  | c :: cs => (objectOf c).bind fun o => (objectsOf cs).map (o :: ·)

def membersOf : List (CborValue × CborValue) → Option (List (Bytes × Object))
  | [] => some []
  | (.string k, c) :: ces => (objectOf c).bind fun o => (membersOf ces).map ((k, o) :: ·)
  | _ :: _ => none
end

mutual
theorem Shows.objectOf_eq {c : CborValue} {o : Object} (h : Shows c o) : objectOf c = some o := by
  cases h with
  | int => simp [objectOf]
  | list hall => simp [objectOf, hall.objectsOf_eq]
  | map hall => simp [objectOf, hall.membersOf_eq]
  | _ => rfl

theorem ShowsAll.objectsOf_eq {cs : List CborValue} {os : List Object} (h : ShowsAll cs os) :
    objectsOf cs = some os := by
  cases h with
  | nil => rfl
  | cons ho hos => simp [objectsOf, ho.objectOf_eq, hos.objectsOf_eq]

theorem ShowsEntries.membersOf_eq {ces : List (CborValue × CborValue)} {oes : List (Bytes × Object)}
    (h : ShowsEntries ces oes) : membersOf ces = some oes := by
  cases h with
  | nil => rfl
  | cons ho hos => simp [membersOf, ho.objectOf_eq, hos.membersOf_eq]
end

open Classical in
/-- A package that decodes whole well-formed items, and nothing else. -/
noncomputable def itemPackage : CborPackage where
  decode bytes :=
    if h : ∃ x : Item, x.WF ∧ x.bytes = bytes then .ok (cborDecode h.choose) else .error .other
  encode _ := []
  toObject c := (objectOf c).elim (.error .other) .ok
  equal _ _ := false
  toString _ := none

theorem itemPackage_decode {x : Item} (hx : x.WF) :
    itemPackage.decode x.bytes = .ok (cborDecode x) := by
  have hex : ∃ y : Item, y.WF ∧ y.bytes = x.bytes := ⟨x, hx, rfl⟩
  obtain ⟨hwf, hbytes⟩ := hex.choose_spec
  have hsame : hex.choose = x := (hwf.unique hx (congrArg (· ++ []) hbytes)).1
  simp only [itemPackage, dif_pos hex, hsame]

theorem itemPackage_reads : itemPackage.Reads := by
  refine ⟨?_⟩
  intro x o hx _ hshows
  have hobject : itemPackage.toObject (cborDecode x) = .ok o := by
    simp only [itemPackage, hshows.objectOf_eq, Option.elim_some]
  rw [itemPackage_decode hx]
  exact hobject

/-- The same package, which can be run on the items that are known. -/
noncomputable def knownPackage (known : List Item) : CborPackage :=
  { itemPackage with
    decode := fun bytes =>
      match known.find? fun x => x.bytes = bytes with
      | some x => .ok (cborDecode x)
      | none => itemPackage.decode bytes }

theorem knownPackage_eq {known : List Item} (h : ∀ x ∈ known, x.WF) :
    knownPackage known = itemPackage := by
  have hdecode : (knownPackage known).decode = itemPackage.decode := by
    funext bytes
    simp only [knownPackage]
    split
    · next x hfind =>
      have hbytes : x.bytes = bytes := by simpa using List.find?_some hfind
      rw [← hbytes, itemPackage_decode (h x (List.mem_of_find?_eq_some hfind))]
    · rfl
  show { itemPackage with decode := (knownPackage known).decode } = itemPackage
  rw [hdecode]

end Dart
