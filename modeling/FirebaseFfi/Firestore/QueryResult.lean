import FirebaseFfi.Firestore.EncodeRoom

namespace Firestore
open Cbor Tinycbor

/-- A document of a query result, with what the SDK promises of it: the id and
the path are C strings, and nothing exceeds the size of a C++ container. -/
structure DocumentSnapshot where
  id : Bytes
  path : Bytes
  data : MapFieldValue
  id_nul : (0 : UInt8) ∉ id
  path_nul : (0 : UInt8) ∉ path
  id_size : id.length ≤ maxSize
  path_size : path.length ≤ maxSize
  data_sized : (FieldValue.map data).Sized

/-- The keys of an entry, "id", "path" and "data". -/
def keyId : Bytes := [0x69, 0x64]
def keyPath : Bytes := [0x70, 0x61, 0x74, 0x68]
def keyData : Bytes := [0x64, 0x61, 0x74, 0x61]

/-- The body of the loop over `snap.documents()`. No result is looked at. -/
def encodeEntry (array : CborEncoder) (doc : DocumentSnapshot) : CborEncoder :=
  let created := cborEncoderCreateMap array none
  let entry := (cborEncodeTextStringz created.container keyId).2
  let entry := (cborEncodeTextStringz entry doc.id).2
  let entry := (cborEncodeTextStringz entry keyPath).2
  let entry := (cborEncodeTextStringz entry doc.path).2
  let entry := (cborEncodeTextStringz entry keyData).2
  let entry := (encodeMap doc.data entry).2
  (cborEncoderCloseContainer created.parent entry).2

def encodeResult (docs : List DocumentSnapshot) (size : Nat) : CborEncoder :=
  let created := cborEncoderCreateArray (cborEncoderInit size) none
  let array := docs.foldl encodeEntry created.container
  (cborEncoderCloseContainer created.parent array).2

def serializeQueryResultLoop (docs : List DocumentSnapshot) : Nat → Nat → Option Bytes
  | 0, _ => none
  | attempts + 1, capacity =>
    let enc := encodeResult docs capacity
    let extra := cborEncoderGetExtraBytesNeeded enc
    if extra = 0 then some (cborEncoderGetBuffer enc)
    else serializeQueryResultLoop docs attempts ((capacity + extra) * 2)

def serializeQueryResult (docs : List DocumentSnapshot) : Option Bytes :=
  serializeQueryResultLoop docs 12 4096

/-- The complete result: one `{id, path, data}` map per document, in order. -/
def entryItem (doc : DocumentSnapshot) : Item :=
  .map none [(textItem keyId, textItem doc.id), (textItem keyPath, textItem doc.path),
    (textItem keyData, itemOf (.map doc.data))]

def resultItem (docs : List DocumentSnapshot) : Item := .array none (docs.map entryItem)

theorem entryItem_wf (doc : DocumentSnapshot) : (entryItem doc).WF := by
  have hi : (textItem keyId).WF := textItem_wf (by simp [keyId, maxSize, sizeMax])
  have hp : (textItem keyPath).WF := textItem_wf (by simp [keyPath, maxSize, sizeMax])
  have hd : (textItem keyData).WF := textItem_wf (by simp [keyData, maxSize, sizeMax])
  refine .map (by simp) ?_ ?_
  · simp [hi, hp, hd]
  · simp [textItem_wf doc.id_size, textItem_wf doc.path_size, doc.data_sized.item_wf]

/-- The complete result is well-formed. -/
theorem resultItem_wf (docs : List DocumentSnapshot) : (resultItem docs).WF := by
  refine .array (by simp) ?_
  intro x hx
  obtain ⟨doc, _, rfl⟩ := List.mem_map.mp hx
  exact entryItem_wf doc

end Firestore
