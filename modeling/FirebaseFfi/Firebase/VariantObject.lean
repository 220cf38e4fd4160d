import FirebaseFfi.Cbor.Unique
import FirebaseFfi.Dart.Shown
import FirebaseFfi.Firebase.VariantRoundTrip
import FirebaseFfi.Firestore.DartCodec

namespace Firebase
open Assoc Cbor Dart Tinycbor

/-- The text of a key. -/
def keyText : Variant → Bytes
  | .string s => s
  | _ => []

mutual
/-- The Dart object that a value is. -/
def Variant.object : Variant → Object
  | .null => .null
  | .bool b => .bool b
  | .int64 i => .int i
  | .double d => .double d
  | .string s => .string s
  | .blob b => byteList b
  | .vector items => .list (objects items)
  | .map entries => .map (objectEntries entries)

def objects : List Variant → List Object
  | [] => []
  | v :: vs => v.object :: objects vs

def objectEntries : VariantMap → List (Object × Object)
  | [] => []
  | (k, v) :: es => (.string (keyText k), v.object) :: objectEntries es
end

mutual
/-- The Dart object that is left of a value when it comes over CBOR: a string goes
up to its first NUL, and the keys of a map that are equal then become one. -/
def Variant.shown : Variant → Object
  | .null => .null
  | .bool b => .bool b
  | .int64 i => .int i
  | .double d => .double d
  | .string s => .string (cString s)
  | .blob b => byteList b
  | .vector items => .list (shownAll items)
  | .map entries => .map ((assignAll [] (shownEntries entries)).map fun e => (.string e.1, e.2))

def shownAll : List Variant → List Object
  | [] => []
  | v :: vs => v.shown :: shownAll vs

def shownEntries : VariantMap → List (Bytes × Object)
  | [] => []
  | (k, v) :: es => (cString (keyText k), v.shown) :: shownEntries es
end

/-- No string or key holds a NUL. -/
inductive Variant.NulFree : Variant → Prop
  | null : NulFree .null
  | bool {b} : NulFree (.bool b)
  | int64 {i} : NulFree (.int64 i)
  | double {d} : NulFree (.double d)
  | string {s} : (0 : UInt8) ∉ s → NulFree (.string s)
  | blob {b} : NulFree (.blob b)
  | vector {xs} : (∀ x ∈ xs, NulFree x) → NulFree (.vector xs)
  | map {es} : (∀ e ∈ es, (0 : UInt8) ∉ keyText e.1) → (∀ e ∈ es, NulFree e.2) →
      NulFree (.map es)

theorem objects_eq_map (vs : List Variant) : objects vs = vs.map Variant.object := by
  induction vs with
  | nil => rfl
  | cons v vs ih => rw [objects, ih, List.map_cons]

theorem objectEntries_eq_map (es : VariantMap) :
    objectEntries es = es.map fun e => (.string (keyText e.1), e.2.object) := by
  induction es with
  | nil => rfl
  | cons e es ih => rw [objectEntries, ih, List.map_cons]

theorem shownAll_eq_map (vs : List Variant) : shownAll vs = vs.map Variant.shown := by
  induction vs with
  | nil => rfl
  | cons v vs ih => rw [shownAll, ih, List.map_cons]

theorem shownEntries_eq_map (es : VariantMap) :
    shownEntries es = es.map fun e => (cString (keyText e.1), e.2.shown) := by
  induction es with
  | nil => rfl
  | cons e es ih => rw [shownEntries, ih, List.map_cons]

section Tree

variable {less : Less} {v : Variant}

theorem Variant.Tree.shows (h : v.Tree less) : Shows (cborDecode (itemOf v)) v.shown := by
  induction h with
  | null => exact .null
  | @bool b => cases b <;> exact .bool
  | @int64 i =>
    rw [itemOf, Firestore.intItem_value]
    exact .int
  | @double d =>
    have hfloat : cborDecode (itemOf (.double d)) = .float d := by
      rw [itemOf, Firestore.doubleItem, cborDecode, primValue]
      simp [floatFormat]
    rw [hfloat]
    exact .float
  | string => exact .string
  | blob => exact .bytes
  | @vector xs hl hx ih =>
    rw [itemOf, itemsOf_eq_map, Variant.shown, shownAll_eq_map]
    exact .list (shows_list itemOf Variant.shown ih)
  | @map es hl hasc hk hv ih =>
    rw [itemOf, entriesOf_eq_map, Variant.shown, shownEntries_eq_map]
    have hkey : ∀ e ∈ es, cborDecode (keyItem e.1) = .string (cString (keyText e.1)) := by
      intro e he
      obtain ⟨s, hs, -⟩ := hk e he
      rw [hs]
      rfl
    exact .map (shows_entries _ _ (fun e => itemOf e.2) (fun e => e.2.shown) hkey ih)

theorem keys_nodup {es : VariantMap} (hasc : Ascending less es)
    (hk : ∀ e ∈ es, ∃ k, e.1 = .string k ∧ k.length ≤ Firestore.maxSize) :
    (es.map fun e => keyText e.1).Nodup := by
  rw [List.Nodup, List.pairwise_map]
  refine List.Pairwise.imp_of_mem ?_ hasc
  intro d e hd he hless heq
  obtain ⟨j, hj, -⟩ := hk d hd
  obtain ⟨k, hk, -⟩ := hk e he
  rw [hj, hk] at heq hless
  have hjk : j = k := heq
  rw [hjk] at hless
  cases hless.1.symm.trans hless.2

/-- Entries whose keys are left whole come over as they are. -/
theorem assignAll_shown {es : VariantMap} (hasc : Ascending less es)
    (hk : ∀ e ∈ es, ∃ k, e.1 = .string k ∧ k.length ≤ Firestore.maxSize)
    (hnul : ∀ e ∈ es, (0 : UInt8) ∉ keyText e.1) :
    assignAll [] (es.map fun e => (cString (keyText e.1), e.2.shown)) =
      es.map fun e => (keyText e.1, e.2.shown) := by
  have hsame : (es.map fun e => (cString (keyText e.1), e.2.shown)) =
      es.map fun e => (keyText e.1, e.2.shown) := by
    apply List.map_congr_left
    intro e he
    rw [cString_eq_self.mpr (hnul e he)]
  have hnodup : ((es.map fun e => (keyText e.1, e.2.shown)).map Prod.fst).Nodup := by
    rw [List.map_map]
    exact keys_nodup hasc hk
  rw [hsame, assignAll_new (by rwa [List.nil_append]), List.nil_append]

/-- If the entries come over as they were then no key holds a NUL. -/
theorem key_nulFree {es : VariantMap} {vs : Variant → Object}
    (h : (assignAll [] (es.map fun e => (cString (keyText e.1), e.2.shown))).map
      (fun e => (Object.string e.1, e.2)) = es.map fun e => (.string (keyText e.1), vs e.2))
    {e : Variant × Variant} (he : e ∈ es) : (0 : UInt8) ∉ keyText e.1 := by
  have hmem : (Object.string (keyText e.1), vs e.2) ∈
      es.map fun e => (Object.string (keyText e.1), vs e.2) := List.mem_map.mpr ⟨e, he, rfl⟩
  rw [← h] at hmem
  obtain ⟨d, hd, heq⟩ := List.mem_map.mp hmem
  rcases mem_assignAll hd with hd | hd
  · cases hd
  · obtain ⟨c, -, rfl⟩ := List.mem_map.mp hd
    obtain ⟨hkey, -⟩ := Prod.mk.inj heq
    rw [← Object.string.inj hkey]
    exact zero_not_mem_cString _

/-- A value comes over whole exactly when it holds no NUL. -/
theorem Variant.Tree.shown_eq (h : v.Tree less) : v.shown = v.object ↔ v.NulFree := by
  induction h with
  | null => exact iff_of_true rfl .null
  | bool => exact iff_of_true rfl .bool
  | int64 => exact iff_of_true rfl .int64
  | double => exact iff_of_true rfl .double
  | blob => exact iff_of_true rfl .blob
  | @string s hs =>
    constructor
    · intro h
      exact .string (cString_eq_self.mp (Object.string.inj h))
    · intro h
      cases h with
      | string hnul => rw [Variant.shown, Variant.object, cString_eq_self.mpr hnul]
  | @vector xs hl hx ih =>
    rw [Variant.shown, Variant.object, shownAll_eq_map, objects_eq_map, Object.list.injEq,
      List.map_inj_left]
    constructor
    · intro h
      exact .vector fun x hx => (ih x hx).mp (h x hx)
    · intro h
      cases h with
      | vector hall => exact fun x hx => (ih x hx).mpr (hall x hx)
  | @map es hl hasc hk hv ih =>
    rw [Variant.shown, Variant.object, shownEntries_eq_map, objectEntries_eq_map,
      Object.map.injEq]
    constructor
    · intro h
      have hnul := fun e he => key_nulFree (e := e) h he
      rw [assignAll_shown hasc hk hnul, List.map_map, List.map_inj_left] at h
      exact .map hnul fun e he => (ih e he).mp (Prod.mk.inj (h e he)).2
    · intro h
      cases h with
      | map hnul hall =>
        rw [assignAll_shown hasc hk hnul, List.map_map, List.map_inj_left]
        intro e he
        show (Object.string (keyText e.1), e.2.shown) = _
        rw [(ih e he).mpr (hall e he)]

/-- What is decoded from a value as it was posted, if anything is, is the value as
it comes over. -/
theorem Variant.Tree.decoded {package : CborPackage} (hp : package.Documented) (h : v.Tree less)
    {now : UInt64} {seq : Int64} {o : Object}
    (ho : decodeSnapshotValue package (fdbPostBuffer now seq ((serializeVariant v).getD [])) =
      .ok o) : o = v.shown := by
  have hne : (itemOf v).bytes ≠ [] := List.length_pos_iff.mp h.item_wf.length_pos
  rw [h.serialized, Option.getD_some, decodeSnapshotValue_post package now seq hne] at ho
  split at ho
  · next object hobject =>
    cases ho
    obtain ⟨c, hc, hto⟩ := bind_ok hobject
    obtain ⟨x, hx, hbytes, rfl⟩ := hp.decode _ c hc
    have hpart : ∃ rest, x.bytes ++ rest = (itemOf v).bytes ++ [] := by
      rw [hbytes, List.append_nil]
      unfold boundedPayload
      split
      · exact ⟨[], List.append_nil _⟩
      · exact ⟨_, List.take_append_drop _ _⟩
    obtain ⟨rest, hrest⟩ := hpart
    obtain ⟨rfl, -⟩ := hx.unique h.item_wf hrest
    exact hp.toObject _ _ _ h.shows hto
  · cases ho

end Tree

end Firebase
