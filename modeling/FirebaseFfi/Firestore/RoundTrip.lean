import FirebaseFfi.Assoc.Assign
import FirebaseFfi.Firestore.DecodeReads
import FirebaseFfi.Firestore.EncodeRoom

namespace Firestore
open Cbor Tinycbor

/-- A value that is not a sentinel. The keys of a map are distinct, and a
reference names a document the SDK makes one for. -/
inductive FieldValue.Plain (document : Document) : FieldValue → Prop
  | null : Plain document .null
  | boolean {b} : Plain document (.boolean b)
  | integer {i} : Plain document (.integer i)
  | double {d} : Plain document (.double d)
  | string {s} : Plain document (.string s)
  | blob {b} : Plain document (.blob b)
  | timestamp {s n} : Plain document (.timestamp s n)
  | geoPoint {a b} : Plain document (.geoPoint a b)
  | reference {p} : document p → Plain document (.reference p)
  | array {xs} : (∀ x ∈ xs, Plain document x) → Plain document (.array xs)
  | map {m} : (m.map Prod.fst).Nodup → (∀ e ∈ m, Plain document e.2) → Plain document (.map m)

theorem intItem_reads (i : Int64) : readInt (intItem i) = .ok i := by
  have hlo := i.le_toInt
  have hhi := i.toInt_lt
  unfold intItem
  split
  · simp only [readInt]
    congr 1
    apply Int64.toInt_inj.mp
    rw [int64Of_toInt (by omega)]
    simp only [intValue, if_true]
    omega
  · simp only [readInt]
    congr 1
    apply Int64.toInt_inj.mp
    rw [int64Of_toInt (by omega)]
    simp only [intValue, Bool.false_eq_true, if_false]
    omega

theorem readItem_intItem (document : Document) (i : Int64) :
    readItem document (intItem i) = .ok (.integer i) := by
  have h := intItem_reads i
  obtain ⟨neg, w, n, hint⟩ : ∃ neg w n, intItem i = .int neg w n := by
    unfold intItem
    split
    · exact ⟨_, _, _, rfl⟩
    · exact ⟨_, _, _, rfl⟩
  rw [hint] at h ⊢
  simp only [readInt, Except.ok.injEq] at h
  rw [readItem, h]

theorem doubleItem_reads (d : UInt64) : readDouble (doubleItem d) = .ok d := by
  simp [doubleItem, readDouble]

theorem itemsOf_eq_map (vs : List FieldValue) : itemsOf vs = vs.map itemOf := by
  induction vs with
  | nil => rfl
  | cons v vs ih => rw [itemsOf, ih, List.map_cons]

theorem entriesOf_eq_map (m : MapFieldValue) :
    entriesOf m = m.map fun e => (textItem e.1, itemOf e.2) := by
  induction m with
  | nil => rfl
  | cons e m ih => rw [entriesOf, ih, List.map_cons]

theorem emplace_fresh {m : MapFieldValue} {k : Bytes} {v : FieldValue} (h : k ∉ m.map Prod.fst) :
    emplace m k v = m ++ [(k, v)] := by
  have hnone : ¬ m.any (fun e => e.1 = k) = true := by
    simp only [List.any_eq_true, decide_eq_true_eq, not_exists, not_and]
    intro e he hk
    exact h (hk ▸ List.mem_map_of_mem he)
  rw [emplace, if_neg hnone]

/-- Entries with distinct keys are read into the map they came from. -/
theorem readEntries_entriesOf {document : Document} (out : MapFieldValue) {m : MapFieldValue}
    (hd : ((out ++ m).map Prod.fst).Nodup)
    (hv : ∀ e ∈ m, readItem document (itemOf e.2) = .ok e.2) :
    readEntries document out (entriesOf m) = .ok (out ++ m) := by
  induction m generalizing out with
  | nil => simp [entriesOf, readEntries]
  | cons e m ih =>
    obtain ⟨k, v⟩ := e
    have hk : k ∉ out.map Prod.fst := Assoc.head_new (by simpa using hd)
    have hhead : readItem document (itemOf v) = .ok v := hv (k, v) (by simp)
    have htail := ih (out ++ [(k, v)]) (by simpa using hd)
      (fun e he => hv e (List.mem_cons_of_mem _ he))
    simp only [entriesOf, textItem, readEntries, Str.content, hhead]
    show readEntries document (emplace out k v) (entriesOf m) = _
    rw [emplace_fresh hk, htail]
    simp

theorem readItems_itemsOf {document : Document} {vs : List FieldValue}
    (hv : ∀ v ∈ vs, readItem document (itemOf v) = .ok v) :
    readItems document (itemsOf vs) = .ok vs := by
  induction vs with
  | nil => rfl
  | cons v vs ih =>
    rw [itemsOf, readItems, hv v (by simp), ih fun w hw => hv w (List.mem_cons_of_mem _ hw)]
    rfl

/-- The longest encoding the bounds below are stated for. It exceeds the
largest buffer by far and stays below what the parser counts. -/
def shortEnough (v : FieldValue) : Prop := (valueBytes v).length < 2 ^ 31

theorem shortEnough_element {xs : List FieldValue} (h : shortEnough (.array xs)) {x : FieldValue}
    (hx : x ∈ xs) : shortEnough x := by
  have hmem : itemOf x ∈ itemsOf xs := by
    rw [itemsOf_eq_map]
    exact List.mem_map_of_mem hx
  have hle := length_lt_bytesAll hmem
  simp only [shortEnough, valueBytes, itemOf, arrayItem_bytes, List.length_append] at h ⊢
  omega

theorem key_mem_flatten {es : List (Item × Item)} {k v : Item} (h : (k, v) ∈ es) :
    k ∈ flatten es := by
  induction es with
  | nil => cases h
  | cons d es ih =>
    rcases List.mem_cons.mp h with rfl | h
    · simp [flatten]
    · simp [flatten, ih h]

theorem shortEnough_entry {m : MapFieldValue} (h : shortEnough (.map m)) {e : Bytes × FieldValue}
    (he : e ∈ m) : shortEnough e.2 ∧ e.1.length < 2 ^ 31 := by
  have hmem : (textItem e.1, itemOf e.2) ∈ entriesOf m := by
    rw [entriesOf_eq_map]
    exact List.mem_map_of_mem (f := fun e => (textItem e.1, itemOf e.2)) he
  have hle : (itemOf e.2).bytes.length ≤ _ := length_le_bytesEntries hmem
  have hkey := length_lt_bytesAll (key_mem_flatten hmem)
  rw [bytesAll_flatten] at hkey
  simp only [textItem, Item.bytes, List.length_append] at hkey
  simp only [shortEnough, valueBytes, itemOf, mapItem_bytes, List.length_append] at h ⊢
  omega

/-- A plain value is stored as an item that is read as that value. -/
theorem FieldValue.Plain.stored {document : Document} {v : FieldValue} (h : v.Plain document)
    (hl : shortEnough v) : v.Sized ∧ readItem document (itemOf v) = .ok v := by
  have hmax : 2 ^ 31 ≤ maxSize := by simp [maxSize, sizeMax]
  induction h with
  | null => exact ⟨.null, rfl⟩
  | @boolean b => exact ⟨.boolean, by cases b <;> rfl⟩
  | integer => exact ⟨.integer, readItem_intItem _ _⟩
  | double =>
    refine ⟨.double, ?_⟩
    simp [itemOf, doubleItem, readItem, readPrim, primType, readDouble]
  | @string s =>
    simp only [shortEnough, valueBytes, itemOf, textItem, Item.bytes, List.length_append] at hl
    exact ⟨.string (by omega), rfl⟩
  | @blob b =>
    simp only [shortEnough, valueBytes, itemOf, blobItem, Item.bytes, List.length_append] at hl
    exact ⟨.blob (by omega), rfl⟩
  | @timestamp s n =>
    refine ⟨.timestamp, ?_⟩
    rw [itemOf, tagItem, arrayItem]
    exact readItem_timestamp (intItem_reads s) (intItem_reads n.toInt64)
  | @geoPoint a b =>
    refine ⟨.geoPoint, ?_⟩
    rw [itemOf, tagItem, arrayItem]
    exact readItem_geoPoint (doubleItem_reads a) (doubleItem_reads b)
  | @reference p hp =>
    simp only [shortEnough, valueBytes, itemOf, tagItem, textItem, Item.bytes,
      List.length_append] at hl
    refine ⟨.reference (by omega), ?_⟩
    simp [itemOf, tagItem, textItem, readItem, readPayload, tagReference, tagDelete,
      tagServerTimestamp, readReference, Str.content, hp]
  | @array xs hx ih =>
    have hall := fun x hmem => ih x hmem (shortEnough_element hl hmem)
    have hcount : xs.length < 2 ^ 31 := by
      have hwf : ∀ y ∈ itemsOf xs, y.WF := by
        intro y hy
        rw [itemsOf_eq_map] at hy
        obtain ⟨x, hmem, rfl⟩ := List.mem_map.mp hy
        exact (hall x hmem).1.item_wf
      have hle := length_le_bytesAll hwf
      simp only [shortEnough, valueBytes, itemOf, arrayItem_bytes, List.length_append] at hl
      rw [itemsOf_length] at hle
      omega
    refine ⟨.array (by omega) fun x hmem => (hall x hmem).1, ?_⟩
    have hsmall : tooMany false (some (.shortest (itemsOf xs).length)) (itemsOf xs).length = false :=
      tooMany_of_length (by rw [itemsOf_length]; exact hcount)
    rw [itemOf, arrayItem, readItem, hsmall, readItems_itemsOf fun x hmem => (hall x hmem).2]
    rfl
  | @map m hd hv ih =>
    have hall := fun e hmem => ih e hmem (shortEnough_entry hl hmem).1
    have hkeys := fun e hmem => (shortEnough_entry hl (e := e) hmem).2
    have hcount : m.length < 2 ^ 31 := by
      have hwf : ∀ y ∈ flatten (entriesOf m), y.WF := by
        rw [entriesOf_eq_map]
        apply Item.WF.flatten
        · intro d hd
          obtain ⟨e, hmem, rfl⟩ := List.mem_map.mp hd
          exact textItem_wf (by have := hkeys e hmem; omega)
        · intro d hd
          obtain ⟨e, hmem, rfl⟩ := List.mem_map.mp hd
          exact (hall e hmem).1.item_wf
      have hle := length_le_bytesAll hwf
      rw [flatten_length, entriesOf_length, bytesAll_flatten] at hle
      simp only [shortEnough, valueBytes, itemOf, mapItem_bytes, List.length_append] at hl
      omega
    refine ⟨.map (by omega) (fun e hmem => by have := hkeys e hmem; omega)
      fun e hmem => (hall e hmem).1, ?_⟩
    have hsmall : tooMany true (some (.shortest (entriesOf m).length)) (entriesOf m).length = false :=
      tooMany_of_length (by rw [entriesOf_length]; exact hcount)
    rw [itemOf, mapItem, readItem, hsmall,
      readEntries_entriesOf [] (by simpa using hd) fun e hmem => (hall e hmem).2]
    rfl

/-- The size of the largest buffer SerializeDocument tries. -/
def largestBuffer : Nat := 512 * 2 ^ 15

theorem encodeMap_room {m : MapFieldValue} (h : (FieldValue.map m).Sized) (cap : Nat) :
    if (documentBytes m).length ≤ cap then
      ∃ enc, encodeMap m (cborEncoderInit cap) = (true, enc) ∧
        cborEncoderGetBuffer enc = documentBytes m
    else ∃ enc, encodeMap m (cborEncoderInit cap) = (false, enc) := by
  have hw := encodeMap_writes h
  split
  · next hfit => exact hw.writes.init hfit
  · next hfull => exact ⟨_, hw.full _ (by simpa [Fits, cborEncoderInit] using hfull)⟩

/-- A loop whose last buffer is long enough returns the encoding. -/
theorem serializeDocumentLoop_fits {m : MapFieldValue} (h : (FieldValue.map m).Sized)
    {attempts cap : Nat} (hfit : (documentBytes m).length ≤ cap * 2 ^ attempts) :
    serializeDocumentLoop m (attempts + 1) cap = some (documentBytes m) := by
  induction attempts generalizing cap with
  | zero =>
    have hroom := encodeMap_room h cap
    rw [if_pos (by simpa using hfit)] at hroom
    obtain ⟨enc, henc, hbuf⟩ := hroom
    rw [serializeDocumentLoop, henc]
    simp [hbuf]
  | succ attempts ih =>
    have hroom := encodeMap_room h cap
    rw [serializeDocumentLoop]
    split at hroom
    · obtain ⟨enc, henc, hbuf⟩ := hroom
      simp [henc, hbuf]
    · obtain ⟨enc, henc⟩ := hroom
      simp only [henc]
      apply ih
      rw [Nat.mul_assoc, ← Nat.pow_succ']
      exact hfit

/-- A document of plain values that fits the largest buffer is serialized as
EncodeMap writes it into any buffer with room, and is parsed back from that. -/
theorem document_round_trip {document : Document} {m : MapFieldValue}
    (hm : (FieldValue.map m).Plain document) (hfit : (documentBytes m).length ≤ largestBuffer) :
    (∀ cap, (documentBytes m).length ≤ cap → ∃ enc,
      encodeMap m (cborEncoderInit cap) = (true, enc) ∧
        cborEncoderGetBuffer enc = documentBytes m) ∧
    serializeDocument m = some (documentBytes m) ∧
    parseDocumentCbor document (documentBytes m) = .ok m := by
  have hshort : shortEnough (.map m) := by
    have : (valueBytes (.map m)).length ≤ largestBuffer := hfit
    unfold shortEnough largestBuffer at *
    omega
  obtain ⟨hsized, hread⟩ := hm.stored hshort
  refine ⟨fun cap hcap => ?_, serializeDocumentLoop_fits hsized (by simpa [largestBuffer] using hfit),
    ?_⟩
  · have hroom := encodeMap_room hsized cap
    rwa [if_pos hcap] at hroom
  · have hparse := parseDocumentCbor_reads document [] hsized.item_wf
    have hdoc : readDocument document (some (.shortest (entriesOf m).length)) (entriesOf m) =
        .ok m := by
      simp only [itemOf, mapItem, readItem] at hread
      unfold readDocument
      split at hread
      · cases hread
      · next hs =>
        rw [if_neg hs]
        cases hr : readEntries document [] (entriesOf m) with
        | error e =>
          rw [hr] at hread
          cases hread
        | ok m' =>
          rw [hr] at hread
          cases hread
          rfl
    rw [hdoc, List.append_nil] at hparse
    exact hparse

/-- A document with an integer, a timestamp in an array and a reference. -/
def sampleDocument : MapFieldValue :=
  [([0x61], .integer (-5)), ([0x74], .array [.timestamp 7 8]), ([0x72], .reference [0x63, 0x2f, 0x64])]

theorem sampleDocument_plain : (FieldValue.map sampleDocument).Plain fun _ => true := by
  refine .map (by decide) fun e he => ?_
  simp only [sampleDocument, List.mem_cons, List.not_mem_nil, or_false] at he
  rcases he with rfl | rfl | rfl
  · exact .integer
  · refine .array fun x hx => ?_
    obtain rfl := List.mem_singleton.mp hx
    exact .timestamp
  · exact .reference rfl

theorem sampleDocument_round_trip :
    (∀ cap, (documentBytes sampleDocument).length ≤ cap → ∃ enc,
      encodeMap sampleDocument (cborEncoderInit cap) = (true, enc) ∧
        cborEncoderGetBuffer enc = documentBytes sampleDocument) ∧
    serializeDocument sampleDocument = some (documentBytes sampleDocument) ∧
    parseDocumentCbor (fun _ => true) (documentBytes sampleDocument) = .ok sampleDocument :=
  document_round_trip sampleDocument_plain (by decide)

end Firestore
