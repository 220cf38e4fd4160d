import FirebaseFfi.Firebase.Variant

namespace Firebase
open Cbor Tinycbor
open Firestore (Writes writes_simple writes_int writes_double writes_text writes_blob writes_nothing
  writes_array writes_map arrayItem_bytes mapItem_bytes textItem maxSize)

theorem itemsOf_eq_map (vs : List Variant) : itemsOf vs = vs.map itemOf := by
  induction vs with
  | nil => rfl
  | cons v vs ih => rw [itemsOf, ih, List.map_cons]

def keyItem : Variant → Item
  | .string k => textItem (cString k)
  | _ => .null

theorem keyItem_string (k : Bytes) : keyItem (.string k) = textItem (cString k) := rfl

theorem entriesOf_eq_map (m : VariantMap) :
    entriesOf m = m.map fun e => (keyItem e.1, itemOf e.2) := by
  induction m with
  | nil => rfl
  | cons e m ih =>
    obtain ⟨k, v⟩ := e
    cases k with
    | string s => rw [entriesOf, ih, List.map_cons, keyItem]
    | _ =>
      rw [entriesOf, ih, List.map_cons, keyItem]
      all_goals
        intro s h
        cases h

theorem encodeKey_writes (k : Variant) : Writes (encodeKey k) (keyItem k).bytes 1 := by
  cases k with
  | string s => exact writes_text _
  | _ => exact writes_simple 22 (by decide)

/-- The value respects `max_size()` of the strings and containers in it. The keys
of a map are values of any kind. -/
inductive Variant.Sized : Variant → Prop
  | null : Sized .null
  | bool {b} : Sized (.bool b)
  | int64 {i} : Sized (.int64 i)
  | double {d} : Sized (.double d)
  | string {s} : s.length ≤ maxSize → Sized (.string s)
  | blob {b} : b.length ≤ maxSize → Sized (.blob b)
  | vector {xs} : xs.length ≤ maxSize → (∀ x ∈ xs, Sized x) → Sized (.vector xs)
  | map {es} : es.length ≤ maxSize → (∀ e ∈ es, Sized e.1) → (∀ e ∈ es, Sized e.2) →
      Sized (.map es)

theorem vector_writes {vs : List Variant} (h : ∀ v ∈ vs, Writes (encodeVariant v) (itemOf v).bytes 1) :
    Writes (encodeVector vs) (bytesAll (vs.map itemOf)) vs.length := by
  induction vs with
  | nil => exact writes_nothing
  | cons v vs ih =>
    have htail := ih fun w hw => h w (List.mem_cons_of_mem _ hw)
    have := (h v (by simp)).andThen htail
    rw [Nat.add_comm] at this
    exact this

theorem entries_writes {m : VariantMap} (h : ∀ e ∈ m, Writes (encodeVariant e.2) (itemOf e.2).bytes 1) :
    Writes (encodeEntries m) (bytesEntries (m.map fun e => (keyItem e.1, itemOf e.2)))
      (2 * m.length) := by
  induction m with
  | nil => exact writes_nothing
  | cons e m ih =>
    have htail := ih fun d hd => h d (List.mem_cons_of_mem _ hd)
    have := (encodeKey_writes e.1).andThen ((h e (by simp)).andThen htail)
    rw [← List.append_assoc, show 1 + (1 + 2 * m.length) = 2 * (m.length + 1) by omega] at this
    exact this

section Sized

variable {v : Variant}

/-- Every value goes out as its item, whole or not at all. -/
theorem Variant.Sized.writes (h : v.Sized) : Writes (encodeVariant v) (itemOf v).bytes 1 := by
  induction h with
  | null => exact writes_simple 22 (by decide)
  | @bool b => cases b <;> exact writes_simple _ (by decide)
  | int64 => exact writes_int _
  | double => exact writes_double _
  | string => exact writes_text _
  | blob => exact writes_blob _
  | @vector xs hl _ ih =>
    rw [itemOf, itemsOf_eq_map, arrayItem_bytes, List.length_map]
    exact (writes_array hl (vector_writes ih)).writes
  | @map es hl _ _ _ ih =>
    rw [itemOf, entriesOf_eq_map, mapItem_bytes, List.length_map]
    exact (writes_map hl (entries_writes ih)).writes

theorem head_length_le (m : Nat) (w : Width) (n : Nat) : (head m w n).length ≤ kHeader := by
  rw [head_length]
  cases w <;> simp [Width.size, kHeader]

theorem kHeader_le (v : Variant) : kHeader ≤ estimateVariantBytes v := by
  cases v <;> simp [estimateVariantBytes]

theorem text_length_le (s : Bytes) : (textItem s).bytes.length ≤ kHeader + s.length := by
  simp only [textItem, Item.bytes, List.length_append]
  exact Nat.add_le_add_right (head_length_le _ _ _) _

/-- The estimate is of the key itself, and what is written for one that is not a
string is a single byte. -/
theorem key_length_le (k : Variant) : (keyItem k).bytes.length ≤ estimateVariantBytes k := by
  cases k with
  | string s => exact text_length_le _
  | _ =>
    apply Nat.le_trans _ (kHeader_le _)
    exact head_length_le _ _ _

theorem vector_length_le {xs : List Variant}
    (h : ∀ x ∈ xs, (itemOf x).bytes.length ≤ estimateVariantBytes x) :
    (bytesAll (xs.map itemOf)).length ≤ estimateVector xs := by
  induction xs with
  | nil => exact Nat.le_refl 0
  | cons x xs ih =>
    have hx := h x (by simp)
    have hxs := ih fun y hy => h y (List.mem_cons_of_mem _ hy)
    simp only [List.map_cons, bytesAll, List.length_append, estimateVector]
    omega

theorem entries_length_le {es : VariantMap}
    (h : ∀ e ∈ es, (itemOf e.2).bytes.length ≤ estimateVariantBytes e.2) :
    (bytesEntries (es.map fun e => (keyItem e.1, itemOf e.2))).length ≤ estimateEntries es := by
  induction es with
  | nil => exact Nat.le_refl 0
  | cons e es ih =>
    have hk := key_length_le e.1
    have hv := h e (by simp)
    have hes := ih fun d hd => h d (List.mem_cons_of_mem _ hd)
    simp only [List.map_cons, bytesEntries, List.length_append, estimateEntries]
    omega

/-- The estimate never falls short. -/
theorem Variant.Sized.length_le (h : v.Sized) :
    (itemOf v).bytes.length ≤ estimateVariantBytes v := by
  induction h with
  | null => exact head_length_le _ _ _
  | @bool b => cases b <;> exact head_length_le _ _ _
  | @int64 i =>
    simp only [itemOf, Firestore.intItem, estimateVariantBytes]
    split <;> exact head_length_le _ _ _
  | double => exact head_length_le _ _ _
  | string => exact text_length_le _
  | @blob b =>
    simp only [itemOf, Firestore.blobItem, Item.bytes, List.length_append, estimateVariantBytes]
    exact Nat.add_le_add_right (head_length_le _ _ _) _
  | @vector xs _ _ ih =>
    rw [itemOf, itemsOf_eq_map, arrayItem_bytes, List.length_append, estimateVariantBytes]
    exact Nat.add_le_add (head_length_le _ _ _) (vector_length_le ih)
  | @map es _ _ _ _ ih =>
    rw [itemOf, entriesOf_eq_map, mapItem_bytes, List.length_append, estimateVariantBytes]
    exact Nat.add_le_add (head_length_le _ _ _) (entries_length_le ih)

theorem Variant.Sized.key_wf {k : Variant} (h : k.Sized) : (keyItem k).WF := by
  cases h with
  | @string s hs => exact Firestore.textItem_wf (Nat.le_trans (cString_length_le s) hs)
  | _ => exact Firestore.simple_wf (by decide)

theorem Variant.Sized.item_wf (h : v.Sized) : (itemOf v).WF := by
  induction h with
  | null => exact Firestore.simple_wf (by decide)
  | @bool b => cases b <;> exact Firestore.simple_wf (by decide)
  | int64 => exact Firestore.intItem_wf _
  | double => exact Firestore.doubleItem_wf _
  | @string s hs => exact Firestore.textItem_wf (Nat.le_trans (cString_length_le s) hs)
  | blob hb => exact Firestore.blobItem_wf hb
  | @vector xs hl hx ih =>
    rw [itemOf, itemsOf_eq_map]
    apply Firestore.arrayItem_wf (by simpa using hl)
    intro y hy
    obtain ⟨x, hmem, rfl⟩ := List.mem_map.mp hy
    exact ih x hmem
  | @map es hl hk _ _ ih =>
    rw [itemOf, entriesOf_eq_map]
    apply Firestore.mapItem_wf (by simpa using hl)
    · intro d hd
      obtain ⟨e, hmem, rfl⟩ := List.mem_map.mp hd
      exact (hk e hmem).key_wf
    · intro d hd
      obtain ⟨e, hmem, rfl⟩ := List.mem_map.mp hd
      exact ih e hmem

/-- The first buffer is long enough. -/
theorem Variant.Sized.serialized (h : v.Sized) : serializeVariant v = some (itemOf v).bytes := by
  obtain ⟨enc, henc, hbuffer⟩ := h.writes.init h.length_le
  rw [serializeVariant, serializeVariantLoop, henc]
  exact congrArg some hbuffer

end Sized

/-- With the bytes that EncodeVariant writes wherever there is room, the estimate
is room enough, and the first pass of SerializeVariant gives them. -/
theorem variant_estimated {v : Variant} (h : v.Sized) :
    ∃ bytes : Bytes,
      (∀ cap, bytes.length ≤ cap → ∃ enc, encodeVariant v (cborEncoderInit cap) = (true, enc) ∧
        cborEncoderGetBuffer enc = bytes) ∧
      (∀ cap, cap < bytes.length → (encodeVariant v (cborEncoderInit cap)).1 = false) ∧
      bytes.length ≤ estimateVariantBytes v ∧
      serializeVariantLoop v 1 (estimateVariantBytes v) = some bytes ∧
      serializeVariant v = some bytes := by
  refine ⟨_, fun cap => h.writes.init, ?_, h.length_le, ?_, h.serialized⟩
  · intro cap hcap
    apply h.writes.full
    · simp [Fits, cborEncoderInit]
    · simpa [Fits, cborEncoderInit] using hcap
  · obtain ⟨enc, henc, hbuffer⟩ := h.writes.init h.length_le
    rw [serializeVariantLoop, henc]
    exact congrArg some hbuffer

/-- A map with an integer and a vector for keys. -/
def oddKeys : Variant := .map [(.int64 7, .bool true), (.vector [.null, .string [0x61]], .double 0)]

theorem oddKeys_sized : oddKeys.Sized := by
  have hnull : Variant.Sized .null := .null
  have hstring : Variant.Sized (.string [0x61]) := .string (by simp [maxSize, sizeMax])
  have hvector : Variant.Sized (.vector [.null, .string [0x61]]) :=
    .vector (by simp [maxSize, sizeMax]) (by simp [hnull, hstring])
  refine .map (by simp [maxSize, sizeMax]) ?_ ?_
  · simp [hvector, Variant.Sized.int64]
  · simp [Variant.Sized.bool, Variant.Sized.double]

theorem oddKeys_estimated :
    ∃ bytes : Bytes,
      (∀ cap, bytes.length ≤ cap → ∃ enc, encodeVariant oddKeys (cborEncoderInit cap) = (true, enc) ∧
        cborEncoderGetBuffer enc = bytes) ∧
      (∀ cap, cap < bytes.length → (encodeVariant oddKeys (cborEncoderInit cap)).1 = false) ∧
      bytes.length ≤ estimateVariantBytes oddKeys ∧
      serializeVariantLoop oddKeys 1 (estimateVariantBytes oddKeys) = some bytes ∧
      serializeVariant oddKeys = some bytes :=
  variant_estimated oddKeys_sized

end Firebase
