import FirebaseFfi.Calls.Handlers
import FirebaseFfi.Dart.Value
import FirebaseFfi.Firestore.DartReads
import FirebaseFfi.Storage.Metadata

namespace Storage
open Assoc Cbor Dart Tinycbor
open Calls (textKeys mapOrEmpty)
open Firestore (setEntry setEntry_fresh textItem intItem_value)

structure StorageMetadata where
  raw : List (Bytes × Object)
  bucket : Option Bytes
  name : Option Bytes
  path : Option Bytes
  contentType : Option Bytes
  cacheControl : Option Bytes
  contentDisposition : Option Bytes
  contentEncoding : Option Bytes
  contentLanguage : Option Bytes
  md5Hash : Option Bytes
  sizeBytes : Int64
  creationTime : Option DateTime
  updatedTime : Option DateTime
  generation : Int64
  metadataGeneration : Int64
  custom : List (Bytes × Bytes)

section FromMap

variable (package : CborPackage) (m : List (Bytes × Object))

/-- `m[key]` -/
def valueAt (key : Bytes) : Object := (m.lookup key).getD .null

/-- `m[key] as String?` -/
def stringAt (key : Bytes) : Except Thrown (Option Bytes) :=
  match valueAt m key with
  | .null => .ok none
  | .string s => .ok (some s)
  | _ => .error .other

/-- `(m[key] as int?) ?? 0` -/
def intAt (key : Bytes) : Except Thrown Int64 :=
  match valueAt m key with
  | .null => .ok 0
  | .int i => .ok i
  | _ => .error .other

/-- `at(key)`. The SDK's 0 is a time that is not set. -/
def timeAt (key : Bytes) : Except Thrown (Option DateTime) :=
  match valueAt m key with
  | .int v => if v = 0 then .ok none else do return some (← DateTime.fromMillisecondsSinceEpoch v true)
  | _ => .ok none

/-- `{for (final e in entries) '${e.key}': '${e.value}'}`, after the entries in `out`. -/
def textEntries (out : List (Bytes × Bytes)) :
    List (Object × Object) → Except Thrown (List (Bytes × Bytes))
  | [] => .ok out
  | (key, value) :: es => do
    let k ← interpolated package key
    let v ← interpolated package value
    textEntries (setEntry out k v) es

def fromMap : Except Thrown StorageMetadata := do
  let bucket ← stringAt m (ascii "bucket")
  let name ← stringAt m (ascii "name")
  let path ← stringAt m (ascii "path")
  let contentType ← stringAt m (ascii "contentType")
  let cacheControl ← stringAt m (ascii "cacheControl")
  let contentDisposition ← stringAt m (ascii "contentDisposition")
  let contentEncoding ← stringAt m (ascii "contentEncoding")
  let contentLanguage ← stringAt m (ascii "contentLanguage")
  let md5Hash ← stringAt m (ascii "md5Hash")
  let sizeBytes ← intAt m (ascii "sizeBytes")
  let creationTime ← timeAt m (ascii "creationTime")
  let updatedTime ← timeAt m (ascii "updatedTime")
  let generation ← intAt m (ascii "generation")
  let metadataGeneration ← intAt m (ascii "metadataGeneration")
  let custom ← textEntries package [] (← mapOrEmpty (valueAt m (ascii "custom")))
  return ⟨m, bucket, name, path, contentType, cacheControl, contentDisposition, contentEncoding,
    contentLanguage, md5Hash, sizeBytes, creationTime, updatedTime, generation, metadataGeneration,
    custom⟩

end FromMap

/-- `_decodeMetadata` -/
def decodeMetadata (package : CborPackage) (cbor : Bytes) : Except Thrown StorageMetadata := do
  let decoded ← package.decode cbor >>= package.toObject
  match decoded with
  | .map entries => do fromMap package (← textKeys package [] entries)
  | _ => .error .other

/-- A time in milliseconds is this instant, and zero is none. -/
def TimeIs (ms : Int64) (time : Option DateTime) : Prop :=
  if ms = 0 then time = none
  else ∃ t, time = some t ∧ t.microsecondsSinceEpoch.toInt = ms.toInt * 1000 ∧ t.isUtc = true

/-- What is read is what the SDK has: the texts that are not empty, the numbers,
the times and every custom entry. -/
structure Recovers (m : Metadata) (r : StorageMetadata) : Prop where
  bucket : r.bucket = present m.bucket
  name : r.name = present m.name
  path : r.path = present m.path
  contentType : r.contentType = present m.contentType
  cacheControl : r.cacheControl = present m.cacheControl
  contentDisposition : r.contentDisposition = present m.contentDisposition
  contentEncoding : r.contentEncoding = present m.contentEncoding
  contentLanguage : r.contentLanguage = present m.contentLanguage
  md5Hash : r.md5Hash = present m.md5Hash
  sizeBytes : r.sizeBytes = m.sizeBytes
  creationTime : TimeIs m.creationTime r.creationTime
  updatedTime : TimeIs m.updatedTime r.updatedTime
  generation : r.generation = m.generation
  metadataGeneration : r.metadataGeneration = m.metadataGeneration
  custom : r.custom = m.custom

/-- The object a field is decoded as. -/
def Field.object : Field → Object
  | .text s => .string s
  | .int i => .int i
  | .custom entries => .map (entries.map fun e => (.string e.1, .string e.2))

def Metadata.objects (m : Metadata) : List (Bytes × Object) :=
  m.written.map fun f => (f.1, f.2.object)

section Shown

theorem written_sublist (fields : List (Bytes × Option Field)) :
    ((fields.filterMap writtenField).map Prod.fst).Sublist (fields.map Prod.fst) := by
  induction fields with
  | nil => exact .slnil
  | cons f fields ih =>
    obtain ⟨key, field⟩ := f
    cases field with
    | none => exact ih.cons _
    | some x => exact ih.cons_cons _

theorem objects_nodup (m : Metadata) : (m.objects.map Prod.fst).Nodup := by
  have hkeys : m.objects.map Prod.fst = m.written.map Prod.fst := by
    rw [Metadata.objects, List.map_map]
    rfl
  rw [hkeys]
  exact (written_sublist m.fields).nodup (fields_nodup m)

/-- Keys that differ all stay. -/
theorem assignAll_distinct {es : List (Bytes × Object)} (h : (es.map Prod.fst).Nodup) :
    assignAll [] es = es := assignAll_new (by simpa using h)

variable {m : Metadata}

theorem Field.Valid.shows {x : Field} (h : x.Valid) : Shows (cborDecode x.item) x.object := by
  cases h with
  | text => exact .string
  | int =>
    rw [Field.item, intItem_value]
    exact .int
  | @custom es hnodup _ =>
    have hshows : Shows (cborDecode (customItem es)) _ :=
      .map (shows_entries (fun e => textItem e.1) Prod.fst (fun e => textItem e.2) (fun e => .string e.2)
        (fun _ _ => rfl) fun _ _ => .string)
    have hkeys : (es.map fun e => (e.1, Object.string e.2)).map Prod.fst = es.map Prod.fst := by
      rw [List.map_map]
      rfl
    rw [assignAll_distinct (by rwa [hkeys]), List.map_map] at hshows
    exact hshows

theorem Metadata.Valid.shows (h : m.Valid) :
    Shows (cborDecode (metadataItem m)) (.map (m.objects.map fun e => (.string e.1, e.2))) := by
  have hshows : Shows (cborDecode (metadataItem m)) _ :=
    .map (shows_entries (fun f => textItem f.1) Prod.fst (fun f => f.2.item) (fun f => f.2.object)
      (fun _ _ => rfl) fun f hf => (h.of_written hf).2.shows)
  change Shows _ (.map ((assignAll [] m.objects).map _)) at hshows
  rwa [assignAll_distinct (objects_nodup m)] at hshows

theorem Field.Valid.readable {x : Field} (h : x.Valid) : Readable x.item := by
  cases h with
  | text hs => exact .text hs.utf8
  | int =>
    rw [Field.item, Firestore.intItem]
    split <;> exact .int
  | custom _ hes =>
    refine .map ?_ ?_
    · intro e he
      obtain ⟨d, hd, rfl⟩ := List.mem_map.mp he
      exact .text (hes d hd).1.utf8
    · intro e he
      obtain ⟨d, hd, rfl⟩ := List.mem_map.mp he
      exact .text (hes d hd).2.utf8

theorem Metadata.Valid.readable (h : m.Valid) : Readable (metadataItem m) := by
  refine .map ?_ ?_
  · intro e he
    obtain ⟨f, hf, rfl⟩ := List.mem_map.mp he
    exact .text (h.of_written hf).1.utf8
  · intro e he
    obtain ⟨f, hf, rfl⟩ := List.mem_map.mp he
    exact (h.of_written hf).2.readable

end Shown

section Reads

theorem lookup_written {fields : List (Bytes × Option Field)} (hnodup : (fields.map Prod.fst).Nodup)
    (key : Bytes) : (fields.filterMap writtenField).lookup key = (fields.lookup key).join := by
  induction fields with
  | nil => rfl
  | cons f fields ih =>
    obtain ⟨k, field⟩ := f
    obtain ⟨hk, hnodup⟩ := List.nodup_cons.mp hnodup
    have hrest := ih hnodup
    by_cases hkey : key = k
    · subst hkey
      cases field with
      | none =>
        have habsent : fields.lookup key = none := by
          apply List.lookup_eq_none_iff.mpr
          intro e he
          have hmem : e.1 ∈ fields.map Prod.fst := List.mem_map_of_mem he
          have hne : key ≠ e.1 := fun heq => hk (heq ▸ hmem)
          simpa using hne
        rw [habsent] at hrest
        rw [List.lookup_cons_self]
        exact hrest
      | some x =>
        rw [List.lookup_cons_self]
        exact List.lookup_cons_self
    · have hne : (key == k) = false := by simpa using hkey
      rw [List.lookup_cons, hne]
      cases field with
      | none => exact hrest
      | some x =>
        have hhead : ((k, some x) :: fields).filterMap writtenField =
            (k, x) :: fields.filterMap writtenField := rfl
        rw [hhead, List.lookup_cons, hne]
        exact hrest

theorem lookup_objects (m : Metadata) (key : Bytes) :
    m.objects.lookup key = (m.fields.lookup key).join.map Field.object := by
  rw [← lookup_written (fields_nodup m), Metadata.objects, Metadata.written]
  induction m.fields.filterMap writtenField with
  | nil => rfl
  | cons f written ih =>
    rw [List.map_cons, List.lookup_cons, List.lookup_cons]
    cases key == f.1 with
    | true => rfl
    | false => exact ih

variable {m : Metadata}

theorem valueAt_objects {key : Bytes} {field : Option Field} (h : m.fields.lookup key = some field) :
    valueAt m.objects key = (field.map Field.object).getD .null := by
  rw [valueAt, lookup_objects, h]
  rfl

theorem stringAt_objects (key : Bytes) (value : Option Bytes)
    (h : m.fields.lookup key = some ((present value).map .text)) :
    stringAt m.objects key = .ok (present value) := by
  rw [stringAt, valueAt_objects h]
  cases present value <;> rfl

theorem intAt_objects (key : Bytes) (i : Int64)
    (h : m.fields.lookup key = some (some (.int i))) :
    intAt m.objects key = .ok i := by
  rw [intAt, valueAt_objects h]
  rfl

/-- Milliseconds that Dart has as a DateTime are exact in microseconds. -/
theorem timeAt_objects (key : Bytes) {ms : Int64}
    (h : m.fields.lookup key = some (some (.int ms))) (hrange : |ms.toInt| ≤ maxMillisecondsSinceEpoch) :
    ∃ time, timeAt m.objects key = .ok time ∧ TimeIs ms time := by
  have hvalue : valueAt m.objects key = .int ms := valueAt_objects h
  simp only [timeAt, hvalue, TimeIs]
  by_cases hzero : ms = 0
  · simp only [hzero, if_true]
    exact ⟨none, rfl, rfl⟩
  · have hbounds := abs_le.mp hrange
    simp only [maxMillisecondsSinceEpoch] at hbounds
    have hexact : (Int64.ofInt (ms.toInt * 1000)).toInt = ms.toInt * 1000 := by
      apply Int64.toInt_ofInt_of_le <;> omega
    have hus : |(Int64.ofInt (ms.toInt * 1000)).toInt| ≤ maxMicrosecondsSinceEpoch := by
      rw [hexact, abs_le, maxMicrosecondsSinceEpoch]
      omega
    simp only [if_neg hzero, DateTime.fromMillisecondsSinceEpoch, if_pos hrange,
      DateTime.fromMicrosecondsSinceEpoch, dif_pos hus]
    exact ⟨_, rfl, _, rfl, hexact, rfl⟩

variable (package : CborPackage)

theorem textKeys_strings {es : List (Bytes × Object)} (out : List (Bytes × Object))
    (hnodup : ((out ++ es).map Prod.fst).Nodup) :
    textKeys package out (es.map fun e => (.string e.1, e.2)) = .ok (out ++ es) := by
  induction es generalizing out with
  | nil => simp [textKeys]
  | cons e es ih =>
    have hfresh : e.1 ∉ out.map Prod.fst := head_new (by simpa using hnodup)
    have hstep : textKeys package out ((e :: es).map fun e => (.string e.1, e.2)) =
        textKeys package (setEntry out e.1 e.2) (es.map fun e => (.string e.1, e.2)) := rfl
    rw [hstep, setEntry_fresh hfresh, ih _ (by simpa using hnodup)]
    simp

theorem textEntries_strings {es : List (Bytes × Bytes)} (out : List (Bytes × Bytes))
    (hnodup : ((out ++ es).map Prod.fst).Nodup) :
    textEntries package out (es.map fun e => (.string e.1, .string e.2)) = .ok (out ++ es) := by
  induction es generalizing out with
  | nil => simp [textEntries]
  | cons e es ih =>
    have hfresh : e.1 ∉ out.map Prod.fst := head_new (by simpa using hnodup)
    have hstep : textEntries package out ((e :: es).map fun e => (.string e.1, .string e.2)) =
        textEntries package (setEntry out e.1 e.2) (es.map fun e => (.string e.1, .string e.2)) := rfl
    rw [hstep, setEntry_fresh hfresh, ih _ (by simpa using hnodup)]
    simp

theorem custom_objects (h : m.Valid) :
    (mapOrEmpty (valueAt m.objects (ascii "custom")) >>= textEntries package []) = .ok m.custom := by
  have hlookup : m.fields.lookup (ascii "custom") =
      some (if m.custom.isEmpty then none else some (.custom m.custom)) := rfl
  rw [valueAt_objects hlookup]
  by_cases hempty : m.custom = []
  · rw [hempty]
    rfl
  · have hne : m.custom.isEmpty = false := by simpa using hempty
    have hfield : (ascii "custom", some (Field.custom m.custom)) ∈ m.fields := by
      simp [Metadata.fields, hempty]
    cases h.fields _ hfield _ rfl with
    | custom hnodup _ =>
      simp only [hne, Bool.false_eq_true, if_false]
      exact textEntries_strings package [] hnodup

theorem fromMap_recovers (h : m.Valid) :
    ∃ r, fromMap package m.objects = .ok r ∧ Recovers m r := by
  obtain ⟨created, hcreated, hcreation⟩ := timeAt_objects (ascii "creationTime") rfl h.creationTime
  obtain ⟨updated, hupdated, hupdate⟩ := timeAt_objects (ascii "updatedTime") rfl h.updatedTime
  obtain ⟨entries, hentries, hcustom⟩ := bind_ok (custom_objects package h)
  rw [fromMap, stringAt_objects (ascii "bucket") m.bucket rfl,
    stringAt_objects (ascii "name") m.name rfl, stringAt_objects (ascii "path") m.path rfl,
    stringAt_objects (ascii "contentType") m.contentType rfl,
    stringAt_objects (ascii "cacheControl") m.cacheControl rfl,
    stringAt_objects (ascii "contentDisposition") m.contentDisposition rfl,
    stringAt_objects (ascii "contentEncoding") m.contentEncoding rfl,
    stringAt_objects (ascii "contentLanguage") m.contentLanguage rfl,
    stringAt_objects (ascii "md5Hash") m.md5Hash rfl,
    intAt_objects (ascii "sizeBytes") m.sizeBytes rfl, hcreated, hupdated,
    intAt_objects (ascii "generation") m.generation rfl,
    intAt_objects (ascii "metadataGeneration") m.metadataGeneration rfl, hentries]
  simp only [ok_bind, hcustom]
  exact ⟨_, rfl, rfl, rfl, rfl, rfl, rfl, rfl, rfl, rfl, rfl, rfl, hcreation, hupdate, rfl, rfl, rfl⟩

theorem Metadata.Valid.decoded {package : CborPackage} (hp : package.Reads) (h : m.Valid) :
    ∃ r, decodeMetadata package (metadataItem m).bytes = .ok r ∧ Recovers m r := by
  have hreads := hp.reads _ _ h.item_wf h.readable h.shows
  have hkeys : textKeys package [] (m.objects.map fun e => (.string e.1, e.2)) = .ok m.objects :=
    textKeys_strings package [] (objects_nodup m)
  rw [decodeMetadata, hreads, ok_bind]
  simp only [hkeys, ok_bind]
  exact fromMap_recovers package h

end Reads

/-- An attempt succeeds if there is room for everything. What is given by the one
that does is a single map, and it is read back as what the SDK has. -/
theorem metadata_read_back {package : CborPackage} (hp : package.Reads) {m : Metadata}
    (h : m.Valid) :
    ∃ entries : List (Item × Item), (Item.map none entries).WF ∧
      (∀ capacity, extraBytes m capacity = 0 ↔
        (Item.map none entries).bytes.length ≤ capacity) ∧
      ∀ out, serializeMetadata m = some out → out = (Item.map none entries).bytes ∧
        ∃ r, decodeMetadata package out = .ok r ∧ Recovers m r := by
  refine ⟨_, h.item_wf, h.extraBytes_eq_zero, ?_⟩
  intro out hout
  have heq := h.serialized hout
  refine ⟨heq, ?_⟩
  rw [heq]
  exact h.decoded hp

/-- An object of one byte with a name, and one custom entry. -/
def oneByte : Metadata where
  bucket := some (ascii "b")
  name := some (ascii "n")
  path := some []
  contentType := none
  cacheControl := none
  contentDisposition := none
  contentEncoding := none
  contentLanguage := none
  md5Hash := none
  sizeBytes := 1
  creationTime := 1500
  updatedTime := 0
  generation := -1
  metadataGeneration := 1
  customMetadata := some [(ascii "k", ascii "")]

theorem oneByte_valid : oneByte.Valid where
  fields := by
    have htext : ∀ name ∈ ["b", "n", "k", ""], Text (ascii name) := ascii_text (by decide)
    have hcustom : (Field.custom [(ascii "k", ascii "")]).Valid :=
      .custom (by simp) (by simp [htext])
    have hb : (Field.text (ascii "b")).Valid := .text (htext "b" (by simp))
    have hn : (Field.text (ascii "n")).Valid := .text (htext "n" (by simp))
    simp only [Metadata.fields, List.forall_mem_cons]
    refine ⟨?_, ?_, ?_, ?_, ?_, ?_, ?_, ?_, ?_, ?_, ?_, ?_, ?_, ?_, ?_, ?_⟩
    all_goals
      intro x hx
      cases hx
    exacts [hb, hn, .int, .int, .int, .int, .int, hcustom]
  creationTime := by decide
  updatedTime := by decide

theorem oneByte_read_back : ∃ out, serializeMetadata oneByte = some out ∧
    ∃ r, decodeMetadata itemPackage out = .ok r ∧ Recovers oneByte r := by
  have hout : serializeMetadata oneByte = some (metadataItem oneByte).bytes := by decide
  obtain ⟨_, -, -, hback⟩ := metadata_read_back itemPackage_reads oneByte_valid
  exact ⟨_, hout, (hback _ hout).2⟩

end Storage
