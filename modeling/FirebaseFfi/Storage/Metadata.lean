import FirebaseFfi.Dart.Reads
import FirebaseFfi.Dart.Value
import FirebaseFfi.Firestore.EncodeRoom
import FirebaseFfi.Tinycbor.Streams

namespace Storage
open Cbor Dart Tinycbor
open Firestore (succeeded andThen maxSize textItem intItem textItem_wf intItem_wf)

/-- What the SDK knows about an object. A text is a C string, or null, and the
custom entries are a std::map, or null. -/
structure Metadata where
  bucket : Option Bytes
  name : Option Bytes
  path : Option Bytes
  contentType : Option Bytes
  cacheControl : Option Bytes
  contentDisposition : Option Bytes
  contentEncoding : Option Bytes
  contentLanguage : Option Bytes
  md5Hash : Option Bytes
  sizeBytes : Int64
  creationTime : Int64
  updatedTime : Int64
  generation : Int64
  metadataGeneration : Int64
  customMetadata : Option (List (Bytes × Bytes))

/-- Null and the empty text are absence. -/
def encodeTextField (map : CborEncoder) (key : Bytes) (value : Option Bytes) : Bool × CborEncoder :=
  match value with
  | none => (true, map)
  | some value =>
    if (cString value).isEmpty then (true, map)
    else andThen (succeeded (cborEncodeTextStringz map key)) fun map =>
      succeeded (cborEncodeTextStringz map value)

def encodeIntField (map : CborEncoder) (key : Bytes) (value : Int64) : Bool × CborEncoder :=
  andThen (succeeded (cborEncodeTextStringz map key)) fun map => succeeded (cborEncodeInt map value)

/-- The body of the loop over the custom entries. -/
def encodeCustomEntry (inner : CborEncoder) (kv : Bytes × Bytes) : CborEncoder :=
  let inner := (cborEncodeTextStringz inner kv.1).2
  (cborEncodeTextStringz inner kv.2).2

/-- The custom entries, under one key. -/
def encodeCustom (map : CborEncoder) (custom : List (Bytes × Bytes)) : CborEncoder :=
  let map := (cborEncodeTextStringz map (ascii "custom")).2
  let created := cborEncoderCreateMap map none
  let inner := custom.foldl encodeCustomEntry created.container
  (cborEncoderCloseContainer created.parent inner).2

/-- One pass. No result is looked at. -/
def encodeMetadata (m : Metadata) (out : CborEncoder) : Bool × CborEncoder :=
  let created := cborEncoderCreateMap out none
  let map := created.container
  let map := (encodeTextField map (ascii "bucket") m.bucket).2
  let map := (encodeTextField map (ascii "name") m.name).2
  let map := (encodeTextField map (ascii "path") m.path).2
  let map := (encodeTextField map (ascii "contentType") m.contentType).2
  let map := (encodeTextField map (ascii "cacheControl") m.cacheControl).2
  let map := (encodeTextField map (ascii "contentDisposition") m.contentDisposition).2
  let map := (encodeTextField map (ascii "contentEncoding") m.contentEncoding).2
  let map := (encodeTextField map (ascii "contentLanguage") m.contentLanguage).2
  let map := (encodeTextField map (ascii "md5Hash") m.md5Hash).2
  let map := (encodeIntField map (ascii "sizeBytes") m.sizeBytes).2
  let map := (encodeIntField map (ascii "creationTime") m.creationTime).2
  let map := (encodeIntField map (ascii "updatedTime") m.updatedTime).2
  let map := (encodeIntField map (ascii "generation") m.generation).2
  let map := (encodeIntField map (ascii "metadataGeneration") m.metadataGeneration).2
  let map := match m.customMetadata with
    | some custom => if custom.isEmpty then map else encodeCustom map custom
    | none => map
  (true, (cborEncoderCloseContainer created.parent map).2)

/-- The bytes that one attempt in a buffer of this capacity finds no room for. -/
def extraBytes (m : Metadata) (capacity : Nat) : Nat :=
  cborEncoderGetExtraBytesNeeded (encodeMetadata m (cborEncoderInit capacity)).2

def serializeMetadataLoop (m : Metadata) : Nat → Nat → Option Bytes
  | 0, _ => none
  | attempts + 1, capacity =>
    let extra := extraBytes m capacity
    if extra = 0 then some (cborEncoderGetBuffer (encodeMetadata m (cborEncoderInit capacity)).2)
    else serializeMetadataLoop m attempts ((capacity + extra) * 2)

def serializeMetadata (m : Metadata) : Option Bytes := serializeMetadataLoop m 8 512

/-- What is written under a key. -/
inductive Field
  | text (s : Bytes)
  | int (i : Int64)
  | custom (entries : List (Bytes × Bytes))

/-- A text that is neither null nor empty. -/
def present (value : Option Bytes) : Option Bytes := value.filter fun s => !s.isEmpty

namespace Metadata

variable (m : Metadata)

def custom : List (Bytes × Bytes) := m.customMetadata.getD []

/-- The fields in the order they are written, with those that are absent. -/
def fields : List (Bytes × Option Field) :=
  [(ascii "bucket", (present m.bucket).map .text), (ascii "name", (present m.name).map .text),
    (ascii "path", (present m.path).map .text),
    (ascii "contentType", (present m.contentType).map .text),
    (ascii "cacheControl", (present m.cacheControl).map .text),
    (ascii "contentDisposition", (present m.contentDisposition).map .text),
    (ascii "contentEncoding", (present m.contentEncoding).map .text),
    (ascii "contentLanguage", (present m.contentLanguage).map .text),
    (ascii "md5Hash", (present m.md5Hash).map .text), (ascii "sizeBytes", some (.int m.sizeBytes)),
    (ascii "creationTime", some (.int m.creationTime)),
    (ascii "updatedTime", some (.int m.updatedTime)),
    (ascii "generation", some (.int m.generation)),
    (ascii "metadataGeneration", some (.int m.metadataGeneration)),
    (ascii "custom", if m.custom.isEmpty then none else some (.custom m.custom))]

end Metadata

/-- UTF-8 without NUL, no longer than a C++ string can be. -/
structure Text (s : Bytes) : Prop where
  utf8 : Utf8 s
  nul : (0 : UInt8) ∉ s
  size : s.length ≤ maxSize

inductive Field.Valid : Field → Prop
  | text {s} : Text s → Valid (.text s)
  | int {i} : Valid (.int i)
  | custom {es} : (es.map Prod.fst).Nodup → (∀ e ∈ es, Text e.1 ∧ Text e.2) → Valid (.custom es)

/-- The texts are valid, the custom keys differ, and Dart has the times. -/
structure Metadata.Valid (m : Metadata) : Prop where
  fields : ∀ f ∈ m.fields, ∀ x ∈ f.2, x.Valid
  creationTime : |m.creationTime.toInt| ≤ maxMillisecondsSinceEpoch
  updatedTime : |m.updatedTime.toInt| ≤ maxMillisecondsSinceEpoch

def customItem (entries : List (Bytes × Bytes)) : Item :=
  .map none (entries.map fun e => (textItem e.1, textItem e.2))

/-- The item a field is written as. -/
def Field.item : Field → Item
  | .text s => textItem s
  | .int i => intItem i
  | .custom entries => customItem entries

/-- A field that is absent is left out. -/
def writtenField (f : Bytes × Option Field) : Option (Bytes × Field) := f.2.map fun x => (f.1, x)

def Metadata.written (m : Metadata) : List (Bytes × Field) := m.fields.filterMap writtenField

def metadataItem (m : Metadata) : Item :=
  .map none (m.written.map fun f => (textItem f.1, f.2.item))

section Keys

theorem Text.cString_eq {s : Bytes} (h : Text s) : cString s = s := cString_eq_self.mpr h.nul

def fieldNames : List String :=
  ["bucket", "name", "path", "contentType", "cacheControl", "contentDisposition",
    "contentEncoding", "contentLanguage", "md5Hash", "sizeBytes", "creationTime", "updatedTime",
    "generation", "metadataGeneration", "custom"]

theorem fields_keys (m : Metadata) : m.fields.map Prod.fst = fieldNames.map ascii := rfl

theorem fields_nodup (m : Metadata) : (m.fields.map Prod.fst).Nodup := by
  rw [fields_keys]
  decide

theorem ascii_text {names : List String}
    (h : ∀ name ∈ names, name.toUTF8.data.toList = ascii name ∧ (0 : UInt8) ∉ ascii name ∧
      (ascii name).length ≤ maxSize) : ∀ name ∈ names, Text (ascii name) := by
  intro name hname
  obtain ⟨hutf8, hnul, hsize⟩ := h name hname
  exact ⟨⟨name, hutf8⟩, hnul, hsize⟩

/-- A key is valid as a value is. -/
theorem fields_text (m : Metadata) : ∀ f ∈ m.fields, Text f.1 := by
  have hnames : ∀ name ∈ fieldNames, Text (ascii name) := ascii_text (by decide)
  intro f hf
  have hkey := List.mem_map_of_mem (f := Prod.fst) hf
  rw [fields_keys] at hkey
  obtain ⟨name, hname, heq⟩ := List.mem_map.mp hkey
  rw [← heq]
  exact hnames name hname

end Keys

section Encodes

variable {m : Metadata}

/-- The bytes of a field under its key, and nothing for one that is absent. -/
def fieldBytes (f : Bytes × Option Field) : Bytes :=
  match f.2 with
  | some x => (textItem f.1).bytes ++ x.item.bytes
  | none => []

/-- One step of the encoder, given the field. -/
def encodeField (map : CborEncoder) (f : Bytes × Option Field) : CborEncoder :=
  match f.2 with
  | some (.text s) => (encodeTextField map f.1 (some s)).2
  | some (.int i) => (encodeIntField map f.1 i).2
  | some (.custom entries) => encodeCustom map entries
  | none => map

theorem streams_text {s : Bytes} (h : Text s) :
    Streams (fun enc => (cborEncodeTextStringz enc s).2) (textItem s).bytes := by
  have := streams_textStringz s
  rwa [h.cString_eq] at this

theorem text_room {s : Bytes} (h : Text s) (enc : CborEncoder)
    (hfits : Fits enc (textItem s).bytes.length) : (cborEncodeTextStringz enc s).1.isNone = true := by
  have : encodeString enc true s = _ := encodeString_fits hfits
  rw [cborEncodeTextStringz, h.cString_eq, cborEncodeTextString, this]
  rfl

/-- A value under its key. When the key finds no room the value is not tried. -/
theorem streams_under {key b : Bytes} (hkey : Text key) {g : CborEncoder → Option CborError × CborEncoder}
    (hg : Streams (fun enc => (g enc).2) b) :
    Streams (fun enc => (andThen (succeeded (cborEncodeTextStringz enc key)) fun enc =>
      succeeded (g enc)).2) ((textItem key).bytes ++ b) := by
  have h := (streams_text hkey).unless hg (text_room hkey)
  have hsame : ∀ enc, (andThen (succeeded (cborEncodeTextStringz enc key)) fun enc =>
      succeeded (g enc)).2 = if (cborEncodeTextStringz enc key).1.isNone then
        (g (cborEncodeTextStringz enc key).2).2 else (cborEncodeTextStringz enc key).2 := by
    intro enc
    exact apply_ite Prod.snd _ _ _
  simpa only [hsame] using h

theorem streams_intItem (i : Int64) : Streams (fun enc => (cborEncodeInt enc i).2) (intItem i).bytes := by
  have h := streams_int i
  unfold intItem
  split
  · next hneg =>
    rw [if_pos hneg] at h
    exact h
  · next hneg =>
    rw [if_neg hneg] at h
    exact h

theorem streams_customEntry {e : Bytes × Bytes} (hkey : Text e.1) (hvalue : Text e.2) :
    Streams (fun inner => encodeCustomEntry inner e) ((textItem e.1).bytes ++ (textItem e.2).bytes) :=
  (streams_text hkey).next (streams_text hvalue)

theorem bytesEntries_map {α : Type} (key value : α → Item) (xs : List α) :
    bytesEntries (xs.map fun x => (key x, value x)) =
      xs.flatMap fun x => (key x).bytes ++ (value x).bytes := by
  induction xs with
  | nil => rfl
  | cons x xs ih => rw [List.map_cons, bytesEntries, ih, List.flatMap_cons]

/-- The nested map too is written whole or its loss shows at the end. -/
theorem streams_custom {es : List (Bytes × Bytes)} (hkey : Text (ascii "custom"))
    (h : ∀ e ∈ es, Text e.1 ∧ Text e.2) :
    Streams (fun map => encodeCustom map es)
      ((textItem (ascii "custom")).bytes ++ (customItem es).bytes) := by
  have hentries := Streams.fold fun e he => streams_customEntry (h e he).1 (h e he).2
  rw [← bytesEntries_map] at hentries
  exact (streams_text hkey).next (hentries.container 5)

/-- A text is not empty, and the custom entries are under their key. -/
def Placed (f : Bytes × Option Field) : Prop :=
  f.2 ≠ some (.text []) ∧ ∀ es, f.2 = some (.custom es) → f.1 = ascii "custom"

theorem placed_text (key : Bytes) (value : Option Bytes) :
    Placed (key, (present value).map .text) := by
  cases value with
  | none => exact ⟨nofun, nofun⟩
  | some s =>
    cases s with
    | nil => exact ⟨nofun, nofun⟩
    | cons b s =>
      refine ⟨?_, nofun⟩
      intro h
      cases h

theorem placed_int (key : Bytes) (i : Int64) : Placed (key, some (.int i)) := ⟨nofun, nofun⟩

theorem placed_custom (es : List (Bytes × Bytes)) :
    Placed (ascii "custom", if es.isEmpty then none else some (.custom es)) := by
  refine ⟨?_, fun _ _ => rfl⟩
  cases es <;> nofun

theorem fields_placed (m : Metadata) : ∀ f ∈ m.fields, Placed f := by
  simpa [Metadata.fields, placed_text, placed_int] using placed_custom m.custom

theorem streams_field {f : Bytes × Option Field} (hkey : Text f.1) (hvalid : ∀ x ∈ f.2, x.Valid)
    (hplaced : Placed f) : Streams (fun map => encodeField map f) (fieldBytes f) := by
  obtain ⟨key, field⟩ := f
  obtain ⟨htext, hcustom⟩ := hplaced
  cases field with
  | none => exact streams_nothing
  | some x =>
    cases hvalid x rfl with
    | @text s hs =>
      have hne : (cString s).isEmpty = false := by
        rw [hs.cString_eq]
        cases s with
        | nil => exact absurd rfl htext
        | cons => rfl
      simp only [encodeField, encodeTextField, hne, Bool.false_eq_true, if_false]
      exact streams_under hkey (streams_text hs)
    | int => exact streams_under hkey (streams_intItem _)
    | custom _ hes =>
      obtain rfl := hcustom _ rfl
      exact streams_custom hkey hes

theorem encodeField_text (map : CborEncoder) (key : Bytes) (value : Option Bytes) :
    encodeField map (key, (present value).map .text) = (encodeTextField map key value).2 := by
  cases value with
  | none => rfl
  | some s => cases s <;> rfl

/-- One step per field, within the one map. -/
theorem encodeMetadata_fields (m : Metadata) (out : CborEncoder) :
    (encodeMetadata m out).2 = (cborEncoderCloseContainer (createContainer out none 5).parent
      (m.fields.foldl encodeField (createContainer out none 5).container)).2 := by
  have hcustom : ∀ map, encodeField map (ascii "custom",
      if m.custom.isEmpty then none else some (.custom m.custom)) =
      match m.customMetadata with
      | some custom => if custom.isEmpty then map else encodeCustom map custom
      | none => map := by
    intro map
    rw [Metadata.custom]
    cases m.customMetadata with
    | none => rfl
    | some custom => cases custom <;> rfl
  simp only [Metadata.fields, List.foldl_cons, List.foldl_nil, encodeField_text, hcustom]
  rfl

theorem written_bytes (fields : List (Bytes × Option Field)) :
    bytesEntries ((fields.filterMap writtenField).map fun f => (textItem f.1, f.2.item)) =
      fields.flatMap fieldBytes := by
  rw [bytesEntries_map]
  induction fields with
  | nil => rfl
  | cons f fields ih =>
    obtain ⟨key, field⟩ := f
    cases field with
    | none => exact ih
    | some x =>
      have hhead : ((key, some x) :: fields).filterMap writtenField =
          (key, x) :: fields.filterMap writtenField := rfl
      rw [hhead, List.flatMap_cons, ih]
      rfl

/-- An attempt writes the whole map or loses some of it, at whatever step. -/
theorem Metadata.Valid.streams (h : m.Valid) :
    Streams (fun out => (encodeMetadata m out).2) (metadataItem m).bytes := by
  have hfields := Streams.fold fun f hf =>
    streams_field (fields_text m f hf) (h.fields f hf) (fields_placed m f hf)
  rw [← written_bytes] at hfields
  have hwhole := hfields.container 5
  simp only [← encodeMetadata_fields] at hwhole
  exact hwhole

theorem Metadata.Valid.extraBytes_eq_zero (h : m.Valid) (capacity : Nat) :
    extraBytes m capacity = 0 ↔ (metadataItem m).bytes.length ≤ capacity :=
  h.streams.init capacity

/-- Whichever attempt succeeds, what it gives is the whole map. -/
theorem Metadata.Valid.serialized (h : m.Valid) {out : Bytes} (hout : serializeMetadata m = some out) :
    out = (metadataItem m).bytes := by
  have hloop : ∀ attempts capacity, serializeMetadataLoop m attempts capacity = some out →
      out = (metadataItem m).bytes := by
    intro attempts
    induction attempts with
    | zero => exact fun _ hnone => nomatch hnone
    | succ attempts ih =>
      intro capacity hsome
      rw [serializeMetadataLoop] at hsome
      split at hsome
      · next hzero =>
        rw [← Option.some.inj hsome]
        exact h.streams.buffer ((h.extraBytes_eq_zero capacity).mp hzero)
      · exact ih _ hsome
  exact hloop 8 512 hout

end Encodes

section WellFormed

theorem Field.Valid.item_wf {x : Field} (h : x.Valid) : x.item.WF := by
  cases h with
  | text hs => exact textItem_wf hs.size
  | int => exact intItem_wf _
  | custom _ hes =>
    refine .map nofun ?_ ?_
    · intro e he
      obtain ⟨d, hd, rfl⟩ := List.mem_map.mp he
      exact textItem_wf (hes d hd).1.size
    · intro e he
      obtain ⟨d, hd, rfl⟩ := List.mem_map.mp he
      exact textItem_wf (hes d hd).2.size

variable {m : Metadata}

/-- What is written comes of a field. -/
theorem Metadata.Valid.of_written (h : m.Valid) {e : Bytes × Field} (he : e ∈ m.written) :
    Text e.1 ∧ e.2.Valid := by
  obtain ⟨f, hf, hsome⟩ := List.mem_filterMap.mp he
  obtain ⟨x, hx, rfl⟩ := Option.map_eq_some_iff.mp hsome
  exact ⟨fields_text m f hf, h.fields f hf x hx⟩

theorem Metadata.Valid.item_wf (h : m.Valid) : (metadataItem m).WF := by
  refine .map nofun ?_ ?_
  · intro e he
    obtain ⟨f, hf, rfl⟩ := List.mem_map.mp he
    exact textItem_wf (h.of_written hf).1.size
  · intro e he
    obtain ⟨f, hf, rfl⟩ := List.mem_map.mp he
    exact (h.of_written hf).2.item_wf

end WellFormed

end Storage
