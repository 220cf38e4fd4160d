import FirebaseFfi.Firestore.DartCodec

namespace Firestore
open Cbor Dart

/-- What `as num` accepts. -/
inductive Numeric : Object → Prop
  | int {i} : Numeric (.int i)
  | double {d} : Numeric (.double d)

/-- A number that `toInt` accepts, so neither an infinity nor a NaN. -/
inductive Integral : Object → Prop
  | int {i} : Integral (.int i)
  | double {d s q} : Ieee.double.datum d.toNat = .finite s q → Integral (.double d)

/-- A value without a first tag of the mapping. -/
def Plain (c : Dart.CborValue) : Prop :=
  ∀ t, c.firstTag = some t →
    t ≠ tagTimestamp ∧ t ≠ tagGeoPoint ∧ t ≠ tagReference ∧ isSentinelTag t = false

/-- A value that holds neither bytes nor other values. -/
inductive Leaf : Dart.CborValue → Prop
  | null : Leaf .null
  | undefined : Leaf .undefined
  | bool {b} : Leaf (.bool b)
  | simple {n} : Leaf (.simple n)
  | int {i} : Leaf (.int i)
  | float {d} : Leaf (.float d)
  | string {s} : Leaf (.string s)

section Legible

variable (package : CborPackage)

/-- A value that a document can hold. So is every element and value in it, every key of a
map in it has a text, and `toObject` gives an object wherever it is asked for one. -/
inductive Legible : Dart.CborValue → Prop
  | timestamp {c a b rest} : c.firstTag = some tagTimestamp →
      listObject package c = .ok (a :: b :: rest) → Integral a → Integral b → Legible c
  | geoPoint {c a b rest} : c.firstTag = some tagGeoPoint →
      listObject package c = .ok (a :: b :: rest) → Numeric a → Numeric b → Legible c
  | reference {c p} : c.firstTag = some tagReference → c.untagged = .string p → Legible c
  | bytes {c b} : Plain c → c.untagged = .bytes b → Legible c
  | list {c cs} : Plain c → c.untagged = .list cs → (∀ d ∈ cs, Legible d) → Legible c
  | map {c ces} : Plain c → c.untagged = .map ces → (∀ e ∈ ces, ∃ k, keyText package e.1 = .ok k) →
      (∀ e ∈ ces, Legible e.2) → Legible c
  | leaf {c o} : Plain c → Leaf c.untagged → package.toObject c = .ok o → Legible c

/-- What a plain value is read as. -/
inductive Read (c : Dart.CborValue) : Object → Prop
  | map {ces m} : c.untagged = .map ces → decodeMembers package [] ces = .ok m →
      Read c (.map (m.map fun e => (.string e.1, e.2)))
  | list {cs os} : c.untagged = .list cs → decodeElements package cs = .ok os → Read c (.list os)
  | bytes {b} : c.untagged = .bytes b → Read c (.uint8List b)
  | leaf {o} : Leaf c.untagged → package.toObject c = .ok o → Read c o

end Legible

section Decodes

variable {package : CborPackage} {c : Dart.CborValue} {o : Object}

section Tags

theorem untagged_self (h : c.firstTag = none) : c.untagged = c := by
  cases c with
  | tagged => cases h
  | _ => rfl

/-- No tag after the first is looked at. -/
theorem decodeValueAt_untagged (whole : Dart.CborValue) :
    ∀ v : Dart.CborValue,
      decodeValueAt package whole false v = decodeValueAt package whole true v.untagged
  | .tagged t v => by
    rw [decodeValueAt_inner, Dart.CborValue.untagged, decodeValueAt_untagged whole v]
  | .null | .undefined | .bool _ | .simple _ | .int _ | .float _ | .string _ | .bytes _ | .list _
  | .map _ => rfl

theorem decode_timestamp (h : c.firstTag = some tagTimestamp) :
    decodeFirestoreValue package c = timestampFrom package c := by
  cases c with
  | tagged t v =>
    cases h
    rw [decodeFirestoreValue_tagged, if_pos rfl]
  | _ => cases h

theorem decode_geoPoint (h : c.firstTag = some tagGeoPoint) :
    decodeFirestoreValue package c = geoPointFrom package c := by
  cases c with
  | tagged t v =>
    cases h
    rw [decodeFirestoreValue_tagged, if_neg (by decide), if_pos rfl]
  | _ => cases h

theorem decode_reference (h : c.firstTag = some tagReference) :
    decodeFirestoreValue package c = referenceFrom c := by
  cases c with
  | tagged t v =>
    cases h
    rw [decodeFirestoreValue_tagged, if_neg (by decide), if_neg (by decide), if_pos rfl]
  | _ => cases h

/-- A plain value is decoded as what is under its tags. -/
theorem decode_plain (h : Plain c) :
    decodeFirestoreValue package c = decodeValueAt package c true c.untagged := by
  cases hfirst : c.firstTag with
  | none => rw [untagged_self hfirst, decodeFirestoreValue]
  | some t =>
    obtain ⟨htimestamp, hgeoPoint, hreference, hsentinel⟩ := h t hfirst
    cases c with
    | tagged u v =>
      cases hfirst
      rw [decodeFirestoreValue_tagged, if_neg htimestamp, if_neg hgeoPoint, if_neg hreference,
        if_neg (by simp [hsentinel]), decodeValueAt_untagged, Dart.CborValue.untagged]
    | _ => cases hfirst

theorem decode_leaf (h : Plain c) (hleaf : Leaf c.untagged) :
    decodeFirestoreValue package c = package.toObject c := by
  rw [decode_plain h]
  generalize c.untagged = v at hleaf
  cases hleaf <;> rfl

end Tags

theorem Read.decoded (hplain : Plain c) (h : Read package c o) :
    decodeFirestoreValue package c = .ok o := by
  cases h with
  | map hc hm =>
    rw [decode_plain hplain, hc, decodeValueAt_map, hm]
    rfl
  | list hc hos =>
    rw [decode_plain hplain, hc, decodeValueAt_list, hos]
    rfl
  | bytes hc => rw [decode_plain hplain, hc, decodeValueAt_bytes]
  | leaf hleaf ho => rw [decode_leaf hplain hleaf, ho]

end Decodes

end Firestore
