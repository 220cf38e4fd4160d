import FirebaseFfi.Firestore.QueryResult
import FirebaseFfi.Tinycbor.Streams
import Mathlib.Data.List.TakeWhile

namespace Firestore
open Cbor Tinycbor

/-- What an encoder of a buffer of `size` bytes holds after the bytes `b` were
appended to it one piece after another, whether or not they found room. -/
def sinkAt (size : Nat) (b : Bytes) : Sink :=
  if b.length ≤ size then .buffer b size else .counting (b.length - size)

theorem append_sinkAt (enc : CborEncoder) {size : Nat} {b : Bytes} (h : enc.sink = sinkAt size b)
    (d : Bytes) : (appendToBuffer enc d).2.sink = sinkAt size (b ++ d) := by
  unfold appendToBuffer
  by_cases hb : b.length ≤ size
  · simp only [h, sinkAt, if_pos hb]
    by_cases hd : size < b.length + d.length
    · have hn : ¬ b.length + d.length ≤ size := Nat.not_le.mpr hd
      simp only [if_pos hd, List.length_append, if_neg hn]
      congr 1
      omega
    · have hn : b.length + d.length ≤ size := Nat.not_lt.mp hd
      simp [if_neg hd, if_pos hn]
  · have hn : ¬ b.length + d.length ≤ size := by omega
    have hp : 0 < b.length - size + d.length := by omega
    simp only [h, sinkAt, if_neg hb, if_pos hp, List.length_append, if_neg hn]
    congr 1
    omega

theorem textStringz_sinkAt {enc : CborEncoder} {size : Nat} {b : Bytes}
    (h : enc.sink = sinkAt size b) (s : Bytes) :
    (cborEncodeTextStringz enc s).2.sink = sinkAt size (b ++ (textItem (cString s)).bytes) := by
  have hhead := append_sinkAt (saturatedDecrement enc) h
    (head 3 (.shortest (cString s).length) (cString s).length)
  have hs := append_sinkAt _ hhead (cString s)
  rw [List.append_assoc] at hs
  rw [cborEncodeTextStringz, cborEncodeTextString, encodeString_continues]
  exact hs

theorem createContainer_sinkAt {enc : CborEncoder} {size : Nat} {b : Bytes}
    (h : enc.sink = sinkAt size b) (m : Nat) :
    (createContainer enc none m).container.sink = sinkAt size (b ++ [openByte m]) :=
  append_sinkAt { sink := enc.sink, remaining := 0, unknownLength := true } h [openByte m]

theorem close_sinkAt {parent enc : CborEncoder} {size : Nat} {b : Bytes}
    (hu : enc.unknownLength = true) (h : enc.sink = sinkAt size b) :
    (cborEncoderCloseContainer parent enc).2.sink = sinkAt size (b ++ [breakByte]) := by
  simp only [cborEncoderCloseContainer, hu, if_true]
  exact append_sinkAt { parent with sink := enc.sink } h [breakByte]

theorem fits_sinkAt {enc : CborEncoder} {size : Nat} {b : Bytes} (h : enc.sink = sinkAt size b)
    (n : Nat) : Fits enc n ↔ b.length + n ≤ size := by
  unfold Fits sinkAt at *
  by_cases hb : b.length ≤ size
  · simp [h, hb]
  · simp only [h, if_neg hb, false_iff]
    omega

/-- A document's data that does not fit where it falls is left out, and the
bytes after it take its place. -/
def keptData (size : Nat) (b : Bytes) (doc : DocumentSnapshot) : Bytes :=
  if b.length + (documentBytes doc.data).length ≤ size then documentBytes doc.data else []

theorem encodeMap_sinkAt {enc : CborEncoder} {size : Nat} {b : Bytes}
    (h : enc.sink = sinkAt size b) (doc : DocumentSnapshot) :
    (encodeMap doc.data enc).2.sink = sinkAt size (b ++ keptData size b doc) := by
  have hw := encodeMap_writes doc.data_sized
  by_cases hf : Fits enc (documentBytes doc.data).length
  · have hb := (fits_sinkAt h _).mp hf
    have hlen : b.length ≤ size := by omega
    rw [hw.fits enc hf]
    simp only [CborEncoder.spend, CborEncoder.put, h, sinkAt, if_pos hlen, keptData, if_pos hb,
      List.length_append]
  · have hb : ¬ b.length + (documentBytes doc.data).length ≤ size :=
      fun hb => hf ((fits_sinkAt h _).mpr hb)
    rw [hw.full enc hf]
    simpa [keptData, hb, CborEncoder.spend] using h

theorem encodeMap_unknownLength (m : MapFieldValue) (h : (FieldValue.map m).Sized)
    (enc : CborEncoder) : (encodeMap m enc).2.unknownLength = enc.unknownLength := by
  by_cases hf : Fits enc (documentBytes m).length
  · rw [(encodeMap_writes h).fits enc hf]
    simp [CborEncoder.spend]
  · rw [(encodeMap_writes h).full enc hf]
    rfl

/-- The bytes of an entry up to its data. -/
def entryHead (doc : DocumentSnapshot) : Bytes :=
  [openByte 5] ++ (textItem keyId).bytes ++ (textItem doc.id).bytes ++ (textItem keyPath).bytes ++
    (textItem doc.path).bytes ++ (textItem keyData).bytes

def layoutEntry (size : Nat) (b : Bytes) (doc : DocumentSnapshot) : Bytes :=
  b ++ entryHead doc ++ keptData size (b ++ entryHead doc) doc ++ [breakByte]

/-- Everything one attempt appends, given the size of its buffer. -/
def layout (size : Nat) (docs : List DocumentSnapshot) : Bytes :=
  docs.foldl (layoutEntry size) [openByte 4] ++ [breakByte]

theorem encodeEntry_sinkAt {array : CborEncoder} {size : Nat} {b : Bytes}
    (h : array.sink = sinkAt size b) (doc : DocumentSnapshot) :
    (encodeEntry array doc).sink = sinkAt size (layoutEntry size b doc) := by
  have h0 := createContainer_sinkAt h 5
  have h1 := textStringz_sinkAt h0 keyId
  have h2 := textStringz_sinkAt h1 doc.id
  have h3 := textStringz_sinkAt h2 keyPath
  have h4 := textStringz_sinkAt h3 doc.path
  have h5 := textStringz_sinkAt h4 keyData
  rw [cString_eq_self.mpr doc.id_nul] at h2 h3 h4 h5
  rw [cString_eq_self.mpr doc.path_nul] at h4 h5
  rw [show cString keyId = keyId by decide] at h1 h2 h3 h4 h5
  rw [show cString keyPath = keyPath by decide] at h3 h4 h5
  rw [show cString keyData = keyData by decide] at h5
  have hb : b ++ [openByte 5] ++ (textItem keyId).bytes ++ (textItem doc.id).bytes ++
      (textItem keyPath).bytes ++ (textItem doc.path).bytes ++ (textItem keyData).bytes =
      b ++ entryHead doc := by simp [entryHead]
  rw [hb] at h5
  refine close_sinkAt ?_ (encodeMap_sinkAt h5 doc)
  rw [encodeMap_unknownLength _ doc.data_sized]
  simp only [(streams_textStringz _).unknownLength]
  exact append_unknownLength _ _

theorem encodeEntries_sinkAt {array : CborEncoder} {size : Nat} {b : Bytes}
    (h : array.sink = sinkAt size b) (docs : List DocumentSnapshot) :
    (docs.foldl encodeEntry array).sink = sinkAt size (docs.foldl (layoutEntry size) b) := by
  induction docs generalizing array b with
  | nil => exact h
  | cons doc docs ih => exact ih (encodeEntry_sinkAt h doc)

theorem close_unknownLength {parent enc : CborEncoder} (hu : enc.unknownLength = true) :
    (cborEncoderCloseContainer parent enc).2.unknownLength = parent.unknownLength := by
  simp only [cborEncoderCloseContainer, hu, if_true]
  exact append_unknownLength _ _

/-- The whole attempt appends its layout, and keeps it when it has room. -/
theorem encodeResult_sinkAt (docs : List DocumentSnapshot) (size : Nat) :
    (encodeResult docs size).sink = sinkAt size (layout size docs) := by
  have h0 : (cborEncoderInit size).sink = sinkAt size [] := by simp [cborEncoderInit, sinkAt]
  have hc := createContainer_sinkAt h0 4
  have hu : (docs.foldl encodeEntry
      (cborEncoderCreateArray (cborEncoderInit size) none).container).unknownLength = true := by
    have hinit := create_unknownLength (cborEncoderInit size) 4
    rw [← cborEncoderCreateArray] at hinit
    generalize (cborEncoderCreateArray (cborEncoderInit size) none).container = array at hinit
    induction docs generalizing array with
    | nil => exact hinit
    | cons doc docs ih =>
      apply ih
      rw [encodeEntry, close_unknownLength]
      · exact hinit
      · rw [encodeMap_unknownLength _ doc.data_sized]
        simp only [(streams_textStringz _).unknownLength]
        exact append_unknownLength _ _
  exact close_sinkAt hu (encodeEntries_sinkAt hc docs)

/-- The lengths a layout is made of. -/
def headSize (doc : DocumentSnapshot) : Nat := (entryHead doc).length

def dataSize (doc : DocumentSnapshot) : Nat := (documentBytes doc.data).length

/-- Where an entry ends that starts at `p` in a buffer of `size` bytes: its
data is left out when it would not fit. -/
def entryEnd (size p : Nat) (doc : DocumentSnapshot) : Nat :=
  let q := p + headSize doc
  (if q + dataSize doc ≤ size then q + dataSize doc else q) + 1

def layoutSize (size : Nat) (docs : List DocumentSnapshot) : Nat :=
  docs.foldl (entryEnd size) 1 + 1

/-- The length of the complete result. -/
def resultSize (docs : List DocumentSnapshot) : Nat :=
  (docs.map fun doc => headSize doc + dataSize doc + 1).sum + 2

/-- Buffers are tried from `size` on, each twice as long as the layout that did
not fit the one before. In the first that holds its layout nothing is left out. -/
def ResultFits (docs : List DocumentSnapshot) : Nat → Nat → Prop
  | 0, _ => True
  | attempts + 1, size =>
    if layoutSize size docs ≤ size then resultSize docs ≤ size
    else ResultFits docs attempts (2 * layoutSize size docs)

theorem layoutEntry_length (size : Nat) (b : Bytes) (doc : DocumentSnapshot) :
    (layoutEntry size b doc).length = entryEnd size b.length doc := by
  simp only [layoutEntry, keptData, entryEnd, headSize, dataSize, List.length_append]
  split
  · next h => simp [h]
  · next h => simp [h]

theorem layout_length (size : Nat) (docs : List DocumentSnapshot) :
    (layout size docs).length = layoutSize size docs := by
  have hfold : ∀ b, (docs.foldl (layoutEntry size) b).length =
      docs.foldl (entryEnd size) b.length := by
    induction docs with
    | nil => intro b; rfl
    | cons doc docs ih =>
      intro b
      rw [List.foldl_cons, List.foldl_cons, ih, layoutEntry_length]
  simp [layout, layoutSize, hfold]

theorem entryItem_bytes (doc : DocumentSnapshot) :
    (entryItem doc).bytes = entryHead doc ++ documentBytes doc.data ++ [breakByte] := by
  simp [entryItem, Item.bytes, opening, closing, bytesEntries, entryHead, documentBytes]

theorem resultItem_bytes (docs : List DocumentSnapshot) :
    (resultItem docs).bytes = openByte 4 :: (bytesAll (docs.map entryItem) ++ [breakByte]) := by
  simp [resultItem, Item.bytes, opening, closing]

theorem resultItem_length (docs : List DocumentSnapshot) :
    (resultItem docs).bytes.length = resultSize docs := by
  have hall : (bytesAll (docs.map entryItem)).length =
      (docs.map fun doc => headSize doc + dataSize doc + 1).sum := by
    induction docs with
    | nil => rfl
    | cons doc docs ih =>
      simp only [List.map_cons, bytesAll, List.length_append, ih, List.sum_cons, entryItem_bytes,
        headSize, dataSize, List.length_cons, List.length_nil]
  simp [resultItem_bytes, hall, resultSize]

/-- A buffer long enough for the complete result keeps every document's data. -/
theorem layout_complete {size : Nat} {docs : List DocumentSnapshot}
    (h : resultSize docs ≤ size) : layout size docs = (resultItem docs).bytes := by
  have hfold : ∀ b, b.length + (docs.map fun doc => headSize doc + dataSize doc + 1).sum ≤ size →
      docs.foldl (layoutEntry size) b = b ++ bytesAll (docs.map entryItem) := by
    clear h
    induction docs with
    | nil => intro b _; simp [bytesAll]
    | cons doc docs ih =>
      intro b hb
      simp only [List.map_cons, List.sum_cons] at hb
      have hkept : keptData size (b ++ entryHead doc) doc = documentBytes doc.data := by
        rw [keptData, if_pos]
        simp only [headSize, dataSize, List.length_append] at *
        omega
      have hentry : layoutEntry size b doc = b ++ (entryItem doc).bytes := by
        simp [layoutEntry, hkept, entryItem_bytes]
      have hlen : (b ++ (entryItem doc).bytes).length = b.length + (headSize doc + dataSize doc + 1) := by
        simp only [entryItem_bytes, headSize, dataSize, List.length_append, List.length_cons,
          List.length_nil]
      rw [List.foldl_cons, hentry, ih _ (by rw [hlen]; omega)]
      simp [bytesAll, List.append_assoc]
  have hsize := h
  unfold resultSize at hsize
  rw [layout, hfold [openByte 4] (by simp only [List.length_cons, List.length_nil]; omega),
    resultItem_bytes]
  simp

/-- Every attempt either returns its layout or grows to twice its length. -/
theorem serializeQueryResultLoop_succ (docs : List DocumentSnapshot) (attempts size : Nat) :
    serializeQueryResultLoop docs (attempts + 1) size =
      if layoutSize size docs ≤ size then some (layout size docs)
      else serializeQueryResultLoop docs attempts (2 * layoutSize size docs) := by
  have hsink := encodeResult_sinkAt docs size
  have hlen := layout_length size docs
  rw [serializeQueryResultLoop]
  by_cases h : layoutSize size docs ≤ size
  · simp [cborEncoderGetExtraBytesNeeded, cborEncoderGetBuffer, hsink, sinkAt, hlen, h]
  · have hne : layoutSize size docs - size ≠ 0 := by omega
    have hcap : (size + (layoutSize size docs - size)) * 2 = 2 * layoutSize size docs := by omega
    simp [cborEncoderGetExtraBytesNeeded, hsink, sinkAt, hlen, h, hne, hcap]

theorem serializeQueryResultLoop_complete (docs : List DocumentSnapshot) (attempts size : Nat) :
    (∀ out, serializeQueryResultLoop docs attempts size = some out → out = (resultItem docs).bytes) ↔
      ResultFits docs attempts size := by
  induction attempts generalizing size with
  | zero => simp [serializeQueryResultLoop, ResultFits]
  | succ attempts ih =>
    rw [serializeQueryResultLoop_succ, ResultFits]
    by_cases h : layoutSize size docs ≤ size
    · simp only [if_pos h, Option.some.injEq, forall_eq']
      constructor
      · intro he
        rw [← resultItem_length, ← he, layout_length]
        exact h
      · exact layout_complete
    · simp only [if_neg h]
      exact ih _

/-- A query result is complete exactly when the first buffer that holds the
layout, with the data left out that does not fit, holds the whole result. -/
theorem query_result_complete (docs : List DocumentSnapshot) :
    (∀ out, serializeQueryResult docs = some out →
      (resultItem docs).WF ∧ out = (resultItem docs).bytes) ↔ ResultFits docs 12 4096 := by
  rw [← serializeQueryResultLoop_complete]
  exact ⟨fun h out ho => (h out ho).2, fun h out ho => ⟨resultItem_wf docs, h out ho⟩⟩

def zeros (n : Nat) : Bytes := List.replicate n 0

@[simp] theorem zeros_length (n : Nat) : (zeros n).length = n := List.length_replicate

/-- One document whose only field, a blob of 5000 bytes, does not fit the first
buffer. Without it the rest does. -/
def largeBlob : DocumentSnapshot where
  id := [0x64]
  path := [0x63, 0x2f, 0x64]
  data := [([0x62], .blob (zeros 5000))]
  id_nul := by decide
  path_nul := by decide
  id_size := by simp [maxSize, sizeMax]
  path_size := by simp [maxSize, sizeMax]
  data_sized := by
    refine .map (by simp [maxSize, sizeMax]) (by simp [maxSize, sizeMax]) ?_
    simp only [List.mem_singleton, forall_eq]
    exact .blob (by simp [maxSize, sizeMax])

theorem largeBlob_headSize : headSize largeBlob = 20 := by decide

theorem largeBlob_dataSize : dataSize largeBlob = 5006 := by
  simp [dataSize, documentBytes, largeBlob, itemOf, entriesOf, mapItem, textItem, blobItem,
    Item.bytes, bytesEntries, opening, closing, Width.shortest, Width.size, head_length]

theorem query_result_drops_data :
    ¬ ∀ docs out, serializeQueryResult docs = some out →
      (resultItem docs).WF ∧ out = (resultItem docs).bytes := by
  intro h
  have hall : ∀ out, serializeQueryResult [largeBlob] = some out →
      out = (resultItem [largeBlob]).bytes := fun out ho => (h _ out ho).2
  simp only [serializeQueryResult, serializeQueryResultLoop_complete] at hall
  simp [ResultFits, layoutSize, entryEnd, resultSize, largeBlob_headSize,
    largeBlob_dataSize] at hall

end Firestore
