import FirebaseFfi.Firestore.Encode

namespace Firestore
open Cbor Tinycbor

/-- `f` writes exactly `b` as `k` items where there is room, and fails where
there is not. An encoder that still has its buffer has room for nothing. -/
structure Writes (f : CborEncoder → Bool × CborEncoder) (b : Bytes) (k : Nat) : Prop where
  fits : ∀ enc, Fits enc b.length → f enc = (true, (enc.put b).spend k)
  full : ∀ enc, Fits enc 0 → ¬ Fits enc b.length → (f enc).1 = false

theorem writes_nothing : Writes (fun enc => (true, enc)) [] 0 :=
  ⟨fun enc _ => by simp, fun _ h hn => absurd h hn⟩

/-- Sequencing: the first failure decides, and the room needed adds up. -/
theorem Writes.andThen {f g : CborEncoder → Bool × CborEncoder} {a b : Bytes} {j k : Nat}
    (hf : Writes f a j) (hg : Writes g b k) :
    Writes (fun enc => andThen (f enc) g) (a ++ b) (j + k) := by
  refine ⟨?_, ?_⟩
  · intro enc h
    obtain ⟨ha, hb⟩ := (fits_add _ _ _).mp h
    simp only [Firestore.andThen, hf.fits enc ha, if_true]
    rw [hg.fits _ (by simpa using hb)]
    simp
  · intro enc h0 hn
    by_cases ha : Fits enc a.length
    · have hb : ¬ Fits (enc.put a) b.length := fun hb => hn ((fits_add _ _ _).mpr ⟨ha, hb⟩)
      have ha0 : Fits (enc.put a) 0 := ((fits_add enc a []).mp (by simpa using ha)).2
      simp only [Firestore.andThen, hf.fits enc ha, if_true]
      exact hg.full _ ha0 hb
    · have := hf.full enc h0 ha
      simp [Firestore.andThen, this]

/-- A buffer that is long enough comes to hold what is written, and that only. -/
theorem Writes.init {f : CborEncoder → Bool × CborEncoder} {b : Bytes} {k cap : Nat}
    (h : Writes f b k) (hcap : b.length ≤ cap) :
    ∃ enc, f (cborEncoderInit cap) = (true, enc) ∧ cborEncoderGetBuffer enc = b := by
  have hfits : Fits (cborEncoderInit cap) b.length := by simpa [Fits, cborEncoderInit] using hcap
  refine ⟨_, h.fits _ hfits, ?_⟩
  simp [cborEncoderGetBuffer, CborEncoder.put, CborEncoder.spend, cborEncoderInit]

/-- A number, tag aside: one item. -/
theorem writes_number (ui m : Nat) :
    Writes (fun enc => succeeded (encodeNumber enc ui m)) (head m (.shortest ui) ui) 1 := by
  refine ⟨fun enc h => by simp [succeeded, encodeNumber_fits h], fun enc _ h => ?_⟩
  simp [succeeded, (encodeNumber_full h).1]

theorem writes_tag (t : Nat) :
    Writes (fun enc => succeeded (cborEncodeTag enc t)) (head 6 (.shortest t) t) 0 := by
  refine ⟨fun enc h => ?_, fun enc _ h => ?_⟩
  · simp [succeeded, cborEncodeTag, encodeNumberNoUpdate, append_fits _ h]
  · simp [succeeded, cborEncodeTag, encodeNumberNoUpdate, (append_full _ h (head_ne_nil _ _ _)).1]

theorem writes_string (text : Bool) (s : Bytes) :
    Writes (fun enc => succeeded (encodeString enc text s)) (strBytes text s) 1 := by
  refine ⟨fun enc h => by simp [succeeded, encodeString_fits h], fun enc _ h => ?_⟩
  simp [succeeded, encodeString_full h]

theorem writes_text (s : Bytes) :
    Writes (fun enc => succeeded (cborEncodeTextString enc s)) (textItem s).bytes 1 :=
  writes_string true s

theorem writes_blob (b : Bytes) :
    Writes (fun enc => succeeded (cborEncodeByteString enc b)) (blobItem b).bytes 1 :=
  writes_string false b

theorem writes_int (i : Int64) :
    Writes (fun enc => succeeded (cborEncodeInt enc i)) (intItem i).bytes 1 := by
  unfold cborEncodeInt intItem
  by_cases h : i.toInt < 0
  · simp only [if_pos h]
    exact writes_number _ 1
  · simp only [if_neg h]
    exact writes_number _ 0

theorem writes_double (d : UInt64) :
    Writes (fun enc => succeeded (cborEncodeDouble enc d)) (doubleItem d).bytes 1 := by
  have hb : (doubleItem d).bytes = 0xfb :: be 8 d.toNat := rfl
  rw [hb]
  refine ⟨fun enc h => ?_, fun enc _ h => ?_⟩
  · change succeeded (appendToBuffer (enc.spend 1) _) = _
    rw [append_fits (enc.spend 1) h]
    simp [succeeded]
  · change (succeeded (appendToBuffer (enc.spend 1) _)).1 = _
    rw [succeeded, (append_full (enc.spend 1) h (by simp)).1]
    rfl

theorem writes_simple (n : Nat) (h : n < 24) :
    Writes (fun enc => succeeded (cborEncodeSimpleValue enc n)) (Item.prim .tiny n).bytes 1 := by
  have hw : Width.shortest n = .tiny := by simp [Width.shortest, h]
  have hn : ¬ (25 ≤ n ∧ n ≤ 31) := by omega
  simp only [cborEncodeSimpleValue, if_neg hn]
  have := writes_number n 7
  rw [hw] at this
  exact this

/-- A container of `n` items fails with its parent's write position untouched. -/
structure WritesContainer (f : CborEncoder → Bool × CborEncoder) (b : Bytes) : Prop where
  fits : ∀ enc, Fits enc b.length → f enc = (true, (enc.put b).spend 1)
  full : ∀ enc, ¬ Fits enc b.length → f enc = (false, enc.spend 1)

theorem WritesContainer.writes {f : CborEncoder → Bool × CborEncoder} {b : Bytes}
    (h : WritesContainer f b) : Writes f b 1 :=
  ⟨h.fits, fun enc _ hn => by rw [h.full enc hn]⟩

/-- One argument for both kinds of container: `create` either opens a child of
`count` items behind its head or fails for want of room. -/
theorem writes_container {create : CborEncoder → Created} {fill : CborEncoder → Bool × CborEncoder}
    {opening body : Bytes} {count : Nat} (hfill : Writes fill body count)
    (hopen : ∀ enc, Fits enc opening.length →
      create enc = ⟨none, enc.spend 1, child enc (count + 1) false opening⟩)
    (hfull : ∀ enc, ¬ Fits enc opening.length →
      (create enc).err = some .outOfMemory ∧ (create enc).parent = enc.spend 1) :
    WritesContainer (fun enc => encodeContainer (create enc) fill) (opening ++ body) := by
  have hspend : ∀ enc, ((child enc (count + 1) false opening).put body).spend count =
      child enc 1 false (opening ++ body) := by
    rintro ⟨sink, r, u⟩
    cases sink <;> simp [child, CborEncoder.put, CborEncoder.spend]
  refine ⟨?_, ?_⟩
  · intro enc h
    obtain ⟨ho, hb⟩ := (fits_add _ _ _).mp h
    have hchild : Fits (child enc (count + 1) false opening) body.length := (fits_child ..).mpr hb
    simp only [encodeContainer, hopen enc ho, Option.isSome_none, Bool.false_eq_true, if_false,
      hfill.fits _ hchild, Bool.not_true]
    rw [hspend, close_fits h ⟨1, rfl⟩ rfl]
    simp
  · intro enc hn
    by_cases ho : Fits enc opening.length
    · have hb : ¬ Fits (child enc (count + 1) false opening) body.length := fun hb =>
        hn ((fits_add _ _ _).mpr ⟨ho, (fits_child ..).mp hb⟩)
      have h0 : Fits (child enc (count + 1) false opening) 0 :=
        (fits_child ..).mpr ((fits_add enc opening []).mp (by simpa using ho)).2
      have hf := hfill.full _ h0 hb
      simp [encodeContainer, hopen enc ho, hf]
    · obtain ⟨he, hp⟩ := hfull enc ho
      simp [encodeContainer, he, hp]

theorem writes_array {fill : CborEncoder → Bool × CborEncoder} {body : Bytes} {n : Nat}
    (hn : n ≤ maxSize) (hfill : Writes fill body n) :
    WritesContainer (fun enc => encodeContainer (cborEncoderCreateArray enc (some n)) fill)
      (head 4 (.shortest n) n ++ body) :=
  writes_container hfill (fun _ h => createArray_fits (by unfold maxSize sizeMax at *; omega) h)
    (fun _ h => createArray_full h)

theorem writes_map {fill : CborEncoder → Bool × CborEncoder} {body : Bytes} {n : Nat}
    (hn : n ≤ maxSize) (hfill : Writes fill body (2 * n)) :
    WritesContainer (fun enc => encodeContainer (cborEncoderCreateMap enc (some n)) fill)
      (head 5 (.shortest n) n ++ body) :=
  writes_container hfill (fun _ h => createMap_fits hn h) (fun _ h => createMap_full hn h)

theorem arrayItem_bytes (xs : List Item) :
    (arrayItem xs).bytes = head 4 (.shortest xs.length) xs.length ++ bytesAll xs := by
  simp [arrayItem, Item.bytes, opening, closing]

theorem mapItem_bytes (es : List (Item × Item)) :
    (mapItem es).bytes = head 5 (.shortest es.length) es.length ++ bytesEntries es := by
  simp [mapItem, Item.bytes, opening, closing]

theorem pair_bytes (t : Nat) (x y : Item) :
    head 6 (.shortest t) t ++ (head 4 (.shortest 2) 2 ++ (x.bytes ++ y.bytes)) =
      (tagItem t (arrayItem [x, y])).bytes := by
  simp [tagItem, Item.bytes, arrayItem_bytes, bytesAll]

theorem writes_items {vs : List FieldValue}
    (h : ∀ v ∈ vs, Writes (encodeValue v) (valueBytes v) 1) :
    Writes (encodeItems vs) (bytesAll (itemsOf vs)) vs.length := by
  induction vs with
  | nil => exact writes_nothing
  | cons v vs ih =>
    have hv := h v (by simp)
    have htail := ih (fun w hw => h w (List.mem_cons_of_mem _ hw))
    have := hv.andThen htail
    rw [Nat.add_comm] at this
    exact this

theorem writes_entries {m : MapFieldValue}
    (h : ∀ e ∈ m, Writes (encodeValue e.2) (valueBytes e.2) 1) :
    Writes (encodeEntries m) (bytesEntries (entriesOf m)) (2 * m.length) := by
  induction m with
  | nil => exact writes_nothing
  | cons e m ih =>
    have hv := h e (by simp)
    have htail := ih (fun w hw => h w (List.mem_cons_of_mem _ hw))
    have := (writes_text e.1).andThen (hv.andThen htail)
    rw [← List.append_assoc, show 1 + (1 + 2 * m.length) = 2 * (m.length + 1) by omega] at this
    exact this

/-- Every value goes out as its item, whole or not at all. -/
theorem encodeValue_writes {v : FieldValue} (h : v.Sized) :
    Writes (encodeValue v) (valueBytes v) 1 := by
  induction h with
  | @boolean b => cases b <;> exact writes_simple _ (by decide)
  | integer => exact writes_int _
  | double => exact writes_double _
  | string => exact writes_text _
  | blob => exact writes_blob _
  | @timestamp s n =>
    have hpair := writes_array (n := 2) (by simp [maxSize, sizeMax])
      ((writes_int s).andThen (writes_int n.toInt64))
    have := (writes_tag tagTimestamp).andThen hpair.writes
    rw [pair_bytes] at this
    exact this
  | @geoPoint a b =>
    have hpair := writes_array (n := 2) (by simp [maxSize, sizeMax])
      ((writes_double a).andThen (writes_double b))
    have := (writes_tag tagGeoPoint).andThen hpair.writes
    rw [pair_bytes] at this
    exact this
  | @reference p =>
    exact (writes_tag tagReference).andThen (writes_text p)
  | @array xs hl hx ih =>
    rw [valueBytes, itemOf, arrayItem_bytes, itemsOf_length]
    exact (writes_array hl (writes_items ih)).writes
  | @map m hl hk hv ih =>
    rw [valueBytes, itemOf, mapItem_bytes, entriesOf_length]
    exact (writes_map hl (writes_entries ih)).writes
  | _ => exact writes_simple 22 (by decide)

/-- The bytes EncodeMap writes for a document when there is room. -/
def documentBytes (m : MapFieldValue) : Bytes := (itemOf (.map m)).bytes

/-- EncodeMap writes the document, or fails and leaves the encoder it was given
at the position it had, with nothing to show that room ran out. -/
theorem encodeMap_writes {m : MapFieldValue} (h : (FieldValue.map m).Sized) :
    WritesContainer (encodeMap m) (documentBytes m) := by
  cases h with
  | @map _ hl hk hv =>
    rw [documentBytes, itemOf, mapItem_bytes, entriesOf_length]
    exact writes_map hl (writes_entries (fun e he => encodeValue_writes (hv e he)))

end Firestore
