import FirebaseFfi.Calls.Handlers
import FirebaseFfi.Dart.Reads
import FirebaseFfi.Dart.SnapshotBuffer
import FirebaseFfi.Firestore.DartRoundTrip
import FirebaseFfi.Firestore.QueryResultLayout
import FirebaseFfi.Firestore.Snapshots

namespace Firestore
open Cbor Dart

/-- An item of the kinds that documents are written as, with texts that are UTF-8. -/
inductive DocumentItem : Item → Prop
  | null : DocumentItem .null
  | bool {b} : DocumentItem (.bool b)
  | int {neg w n} : DocumentItem (.int neg w n)
  | double {n} : DocumentItem (.prim .eight n)
  | text {w s} : Utf8 s → DocumentItem (.str true (.plain w s))
  | bytes {s} : DocumentItem (.str false s)
  | array {len xs} : (∀ x ∈ xs, DocumentItem x) → DocumentItem (.array len xs)
  | map {len es} : (∀ e ∈ es, DocumentItem e.1) → (∀ e ∈ es, DocumentItem e.2) →
      DocumentItem (.map len es)
  | tag {w t x} : t = tagTimestamp ∨ t = tagGeoPoint ∨ t = tagReference → DocumentItem x →
      DocumentItem (.tag w t x)

/-- What is assumed of the cbor package where a document has to be decoded: it
decodes such an item, when it is well-formed, and nothing but whole items, and it gives
the objects of what it has decoded. -/
structure DecodesDocuments (package : CborPackage) : Prop where
  objects : GivesObjects package
  decodes : ∀ x : Item, x.WF → DocumentItem x → package.decode x.bytes = .ok (cborDecode x)
  whole : ∀ bytes c, package.decode bytes = .ok c → ∃ x : Item, x.WF ∧ x.bytes = bytes

theorem itemPackage_decodes : DecodesDocuments itemPackage := by
  refine ⟨itemPackage_gives, fun x hx _ => itemPackage_decode hx, ?_⟩
  intro bytes c hdecode
  by_cases hex : ∃ y : Item, y.WF ∧ y.bytes = bytes
  · exact hex
  · simp only [itemPackage, dif_neg hex] at hdecode
    cases hdecode

/-- A value that a document of the database has. Its texts are UTF-8, and a map
has a key once. -/
inductive FieldValue.Stored : FieldValue → Prop
  | null : Stored .null
  | boolean {b} : Stored (.boolean b)
  | integer {i} : Stored (.integer i)
  | double {d} : Stored (.double d)
  | string {s} : Utf8 s → Stored (.string s)
  | blob {b} : Stored (.blob b)
  | timestamp {s n} : Stored (.timestamp s n)
  | geoPoint {a b} : Stored (.geoPoint a b)
  | reference {p} : Utf8 p → Stored (.reference p)
  | array {xs} : (∀ x ∈ xs, Stored x) → Stored (.array xs)
  | map {m} : (m.map Prod.fst).Nodup → (∀ e ∈ m, Utf8 e.1) → (∀ e ∈ m, Stored e.2) →
      Stored (.map m)

section Values

variable {v : FieldValue}

theorem FieldValue.Stored.plain (h : v.Stored) : v.Plain fun _ => true := by
  induction h with
  | null => exact .null
  | boolean => exact .boolean
  | integer => exact .integer
  | double => exact .double
  | string => exact .string
  | blob => exact .blob
  | timestamp => exact .timestamp
  | geoPoint => exact .geoPoint
  | reference => exact .reference rfl
  | array _ ih => exact .array ih
  | map hd _ _ ih => exact .map hd ih

theorem intItem_documentItem (i : Int64) : DocumentItem (intItem i) := by
  unfold intItem
  split
  · exact .int
  · exact .int

theorem FieldValue.Stored.documentItem (h : v.Stored) : DocumentItem (itemOf v) := by
  induction h with
  | null => exact .null
  | boolean => exact .bool
  | @integer i => exact intItem_documentItem i
  | double => exact .double
  | string hs => exact .text hs
  | blob => exact .bytes
  | @timestamp s n =>
    refine .tag (.inl rfl) (.array fun x hx => ?_)
    simp only [List.mem_cons, List.not_mem_nil, or_false] at hx
    rcases hx with rfl | rfl
    · exact intItem_documentItem s
    · exact intItem_documentItem n.toInt64
  | @geoPoint a b =>
    refine .tag (.inr (.inl rfl)) (.array fun x hx => ?_)
    simp only [List.mem_cons, List.not_mem_nil, or_false] at hx
    rcases hx with rfl | rfl
    · exact .double
    · exact .double
  | reference hp => exact .tag (.inr (.inr rfl)) (.text hp)
  | array _ ih =>
    rw [itemOf, arrayItem, itemsOf_eq_map]
    refine .array fun x hx => ?_
    obtain ⟨w, hw, rfl⟩ := List.mem_map.mp hx
    exact ih w hw
  | map _ hk _ ih =>
    rw [itemOf, mapItem, entriesOf_eq_map]
    refine .map ?_ ?_
    · intro e he
      obtain ⟨f, hf, rfl⟩ := List.mem_map.mp he
      exact .text (hk f hf)
    · intro e he
      obtain ⟨f, hf, rfl⟩ := List.mem_map.mp he
      exact ih f hf

end Values

/-- A document of a result, as the database has it. -/
structure DocumentSnapshot.Stored (doc : DocumentSnapshot) : Prop where
  id : Utf8 doc.id
  path : Utf8 doc.path
  data : (FieldValue.map doc.data).Stored

/-- The document as an application has it. -/
def DocumentSnapshot.shown (doc : DocumentSnapshot) : Calls.QueryDocument :=
  ⟨doc.id, doc.path, doc.data.map fun e => (e.1, toDart e.2)⟩

section Documents

variable {package : CborPackage}

theorem postDocument_drop (postedNs seq : Int64) (payload : Bytes) :
    (postDocument postedNs seq payload).drop snapshotHeaderBytes = payload := by
  rw [postDocument, ← fdbSnapshotHeader_length postedNs seq payload.length 0, List.drop_left]

theorem postDocument_length (postedNs seq : Int64) (payload : Bytes) :
    (postDocument postedNs seq payload).length = snapshotHeaderBytes + payload.length := by
  simp [postDocument]

theorem seqOf_postDocument (postedNs seq : Int64) (payload : Bytes) :
    seqOf (postDocument postedNs seq payload) = .ok seq := header_seq ..

/-- The document that is posted is the one that is decoded. -/
theorem decodeDocument_post (h : DecodesDocuments package) (postedNs seq : Int64)
    {m : MapFieldValue} (hsized : (FieldValue.map m).Sized) (hm : (FieldValue.map m).Stored) :
    Calls.decodeDocument package (postDocument postedNs seq (documentBytes m)) =
      .ok (toDart (.map m)) := by
  have hpos := List.length_pos_iff.mpr (documentBytes_ne_nil m)
  have hdecode : package.decode (documentBytes m) = .ok (cborDecode (itemOf (.map m))) :=
    h.decodes _ hsized.item_wf hm.documentItem
  have hreturned : decodeFirestoreValue package (cborDecode (itemOf (.map m))) =
      .ok (toDart (.map m)) := hm.plain.returned h.objects
  rw [Calls.decodeDocument, postDocument_length, if_neg (by omega), if_neg (by omega),
    postDocument_drop, hdecode, ok_bind, hreturned, toDart]
  rfl

theorem decodeDocument_missing (postedNs seq : Int64) :
    Calls.decodeDocument package (postDocument postedNs seq []) = .ok .null := by
  rw [Calls.decodeDocument, postDocument_length, if_neg (by simp), if_pos (by simp)]

theorem entryItem_documentItem {doc : DocumentSnapshot} (h : doc.Stored) :
    DocumentItem (entryItem doc) := by
  have hkey : ∀ s ∈ [keyId, keyPath, keyData], Utf8 s := by
    simp only [List.forall_mem_cons]
    exact ⟨⟨"id", rfl⟩, ⟨"path", rfl⟩, ⟨"data", rfl⟩, by simp⟩
  refine .map ?_ ?_
  · simp only [List.forall_mem_cons]
    exact ⟨.text (hkey _ (by simp)), .text (hkey _ (by simp)), .text (hkey _ (by simp)), by simp⟩
  · simp only [List.forall_mem_cons]
    exact ⟨.text h.id, .text h.path, h.data.documentItem, by simp⟩

/-- An entry is decoded as a map of its three keys. -/
theorem entryItem_decoded (hobjects : GivesObjects package) {doc : DocumentSnapshot}
    (h : doc.Stored) :
    DecodedAs package (entryItem doc) (.map [(.string keyId, .string doc.id),
      (.string keyPath, .string doc.path), (.string keyData, toDart (.map doc.data))]) := by
  have hdata : decodeFirestoreValue package (cborDecode (itemOf (.map doc.data))) =
      .ok (toDart (.map doc.data)) := h.data.plain.returned hobjects
  have htext : ∀ s, decodeValueAt package (.string s) true (.string s) = .ok (.string s) :=
    fun s => decode_shown hobjects .string .string
  rw [DecodedAs, entryItem, cborDecode, decodeFirestoreValue, decodeValueAt_map]
  simp only [decodeEntries, decodeMembers, textItem_value]
  rw [decodeFirestoreValue] at hdata
  simp only [keyText_string hobjects, htext, hdata]
  rfl

/-- The data of a document has its keys once already. -/
theorem textKeys_stored {m : MapFieldValue} (out : List (Bytes × Object))
    (h : (out.map Prod.fst ++ m.map Prod.fst).Nodup) :
    Calls.textKeys package out (toMembers m) = .ok (out ++ m.map fun e => (e.1, toDart e.2)) := by
  induction m generalizing out with
  | nil => rw [toMembers, Calls.textKeys, List.map_nil, List.append_nil]
  | cons e m ih =>
    obtain ⟨k, v⟩ := e
    have hfresh : k ∉ out.map Prod.fst := Assoc.head_new h
    have hrest := ih (out ++ [(k, toDart v)]) (by simpa using h)
    rw [toMembers, Calls.textKeys]
    show Calls.textKeys package (setEntry out k (toDart v)) (toMembers m) = _
    rw [setEntry_fresh hfresh, hrest]
    simp

theorem queryDocument_shown {doc : DocumentSnapshot} (h : doc.Stored) :
    Calls.queryDocument package [(.string keyId, .string doc.id),
      (.string keyPath, .string doc.path), (.string keyData, toDart (.map doc.data))] =
        .ok doc.shown := by
  have hdata : (doc.data.map Prod.fst).Nodup := by
    cases h.data with
    | map hd _ _ => exact hd
  have hkeys : keyId ≠ keyPath ∧ keyId ≠ keyData ∧ keyPath ≠ keyData := by decide
  have htext : Calls.textKeys package [] (toMembers doc.data) =
      .ok ([] ++ doc.data.map fun e => (e.1, toDart e.2)) :=
    textKeys_stored [] (by simpa using hdata)
  simp only [Calls.queryDocument, Calls.entryAt, toDart, hkeys.1, hkeys.2.1, hkeys.2.2,
    if_true, if_false]
  show (Calls.textKeys package [] (toMembers doc.data) >>= _) = _
  rw [htext]
  rfl

theorem queryDocuments_shown {docs : List DocumentSnapshot} (h : ∀ d ∈ docs, d.Stored) :
    Calls.queryDocuments package (docs.map fun doc => .map [(.string keyId, .string doc.id),
      (.string keyPath, .string doc.path), (.string keyData, toDart (.map doc.data))]) =
        .ok (docs.map DocumentSnapshot.shown) := by
  induction docs with
  | nil => rfl
  | cons doc docs ih =>
    rw [List.map_cons, Calls.queryDocuments, queryDocument_shown (h doc List.mem_cons_self), ok_bind,
      ih fun d hd => h d (List.mem_cons_of_mem _ hd)]
    rfl

/-- A result that is posted whole is the one that is decoded. -/
theorem decodeQueryResult_post (h : DecodesDocuments package) (postedNs seq : Int64)
    {docs : List DocumentSnapshot} (hdocs : ∀ d ∈ docs, d.Stored) :
    Calls.decodeQueryResult package (postDocument postedNs seq (resultItem docs).bytes) =
      .ok (docs.map DocumentSnapshot.shown) := by
  have hpos := (resultItem_wf docs).length_pos
  have hitem : DocumentItem (resultItem docs) := by
    refine .array fun x hx => ?_
    obtain ⟨doc, hdoc, rfl⟩ := List.mem_map.mp hx
    exact entryItem_documentItem (hdocs doc hdoc)
  have hdecoded : decodeFirestoreValue package (cborDecode (resultItem docs)) =
      .ok (.list (docs.map fun doc => .map [(.string keyId, .string doc.id),
        (.string keyPath, .string doc.path), (.string keyData, toDart (.map doc.data))])) := by
    refine array_decoded ?_
    rw [List.forall₂_map_left_iff, List.forall₂_map_right_iff]
    exact List.forall₂_same.mpr fun doc hdoc => entryItem_decoded h.objects (hdocs doc hdoc)
  rw [Calls.decodeQueryResult, postDocument_length, if_neg (by omega), postDocument_drop,
    h.decodes _ (resultItem_wf docs) hitem, ok_bind, hdecoded, ok_bind]
  exact queryDocuments_shown hdocs

end Documents

section Truncated

variable {size : Nat} {docs : List DocumentSnapshot} {doc : DocumentSnapshot}

theorem entryHead_items (doc : DocumentSnapshot) : entryHead doc = openByte 5 :: bytesAll
    [textItem keyId, textItem doc.id, textItem keyPath, textItem doc.path, textItem keyData] := by
  simp [entryHead, bytesAll]

/-- An entry without its data ends after a key. No item does. -/
theorem entryHead_no_item {x : Item} (hx : x.WF) (r s : Bytes) :
    x.bytes ++ r ≠ entryHead doc ++ breakByte :: s := by
  intro h
  rw [entryHead_items] at h
  have hmajor : 5 = x.major := by
    obtain ⟨b, bs, hb, -, hm⟩ := hx.not_break r
    rw [h] at hb
    cases hb
    exact hm
  obtain ⟨len, es, rfl⟩ := major_map hmajor
  cases hx with
  | map hl hk hv =>
    have hhead : ∀ s : Bytes, s.length ≤ maxSize → (textItem s).WF := fun s hs => textItem_wf hs
    have htexts : ∀ x ∈ [textItem keyId, textItem doc.id, textItem keyPath, textItem doc.path,
        textItem keyData], x.WF := by
      simp only [List.forall_mem_cons]
      exact ⟨hhead _ (by decide), hhead _ doc.id_size, hhead _ (by decide), hhead _ doc.path_size,
        hhead _ (by decide), by simp⟩
    simp only [Item.bytes, List.append_assoc, ← bytesAll_flatten] at h
    have hopen : opening 5 len es.length ++ (bytesAll (flatten es) ++ (closing len ++ r)) =
        opening 5 none 0 ++ (bytesAll [textItem keyId, textItem doc.id, textItem keyPath,
          textItem doc.path, textItem keyData] ++ breakByte :: s) := h
    obtain ⟨rfl, -, hitems⟩ := opening_inj (by decide) hl (fun w hw => by cases hw) hopen
    have hitems : bytesAll (flatten es) ++ closing none ++ r = bytesAll [textItem keyId,
        textItem doc.id, textItem keyPath, textItem doc.path, textItem keyData] ++ closing none ++
          s := by
      rw [List.append_assoc, hitems, List.append_assoc]
      rfl
    obtain ⟨hsame, -⟩ := items_unique (fun x hx => (Item.WF.flatten hk hv x hx).unique)
      (Item.WF.flatten hk hv) htexts (fun hlen => by cases hlen) hitems
    have hlength := congrArg List.length hsame
    rw [flatten_length] at hlength
    simp only [List.length_cons, List.length_nil] at hlength
    omega

theorem foldl_layoutEntry (b : Bytes) :
    ∃ t, docs.foldl (layoutEntry size) b = b ++ t := by
  induction docs generalizing b with
  | nil => exact ⟨[], (List.append_nil b).symm⟩
  | cons doc docs ih =>
    obtain ⟨t, ht⟩ := ih (layoutEntry size b doc)
    refine ⟨entryHead doc ++ keptData size (b ++ entryHead doc) doc ++ [breakByte] ++ t, ?_⟩
    rw [List.foldl_cons, ht, layoutEntry]
    simp only [List.append_assoc]

/-- What reads as items up to the break has left no data out. -/
theorem layout_items {b r s : Bytes} {xs : List Item} (hxs : ∀ x ∈ xs, x.WF)
    (h : b ++ (bytesAll xs ++ breakByte :: r) =
      docs.foldl (layoutEntry size) b ++ breakByte :: s) :
    docs.foldl (layoutEntry size) b = b ++ bytesAll (docs.map entryItem) := by
  induction docs generalizing b xs with
  | nil => exact (List.append_nil b).symm
  | cons doc docs ih =>
    rw [List.foldl_cons] at h ⊢
    obtain ⟨t, ht⟩ : ∃ t, docs.foldl (layoutEntry size) (layoutEntry size b doc) =
        layoutEntry size b doc ++ t := foldl_layoutEntry _
    have htail := h
    rw [ht] at htail
    simp only [layoutEntry, List.append_assoc, List.append_cancel_left_eq] at htail
    cases xs with
    | nil =>
      rw [entryHead_items] at htail
      simp only [bytesAll, List.nil_append, List.cons_append, List.cons.injEq] at htail
      exact absurd htail.1 (by decide)
    | cons x xs =>
      have hx := hxs x List.mem_cons_self
      rw [bytesAll, List.append_assoc] at htail
      by_cases hkept : keptData size (b ++ entryHead doc) doc = []
      · rw [hkept] at htail
        exact absurd htail (entryHead_no_item hx _ _)
      · have hdata : keptData size (b ++ entryHead doc) doc = documentBytes doc.data := by
          unfold keptData at hkept ⊢
          split
          · rfl
          · next hlong => exact absurd (if_neg hlong) hkept
        have hentry : layoutEntry size b doc = b ++ (entryItem doc).bytes := by
          rw [layoutEntry, hdata, entryItem_bytes]
          simp only [List.append_assoc]
        have hsame : x.bytes ++ (bytesAll xs ++ breakByte :: r) =
            (entryItem doc).bytes ++ (t ++ breakByte :: s) := by
          rw [htail, hdata, entryItem_bytes]
          simp only [List.append_assoc]
        obtain ⟨rfl, hrest⟩ := hx.unique (entryItem_wf doc) hsame
        rw [hentry] at h ⊢
        rw [ih (fun y (hy : y ∈ xs) => hxs y (List.mem_cons_of_mem _ hy)) ?_]
        · simp only [List.map_cons, bytesAll, List.append_assoc]
        · rw [← h, bytesAll]
          simp only [List.append_assoc]

/-- A layout is a whole item only when it is the complete result. -/
theorem layout_whole {x : Item} (hx : x.WF) (h : x.bytes = layout size docs) :
    layout size docs = (resultItem docs).bytes := by
  obtain ⟨t, ht⟩ : ∃ t, docs.foldl (layoutEntry size) [openByte 4] = [openByte 4] ++ t :=
    foldl_layoutEntry _
  have hstart : layout size docs = openByte 4 :: (t ++ [breakByte]) := by
    rw [layout, ht]
    rfl
  have hmajor : 4 = x.major := by
    obtain ⟨b, bs, hb, -, hm⟩ := hx.not_break []
    rw [List.append_nil, h, hstart] at hb
    cases hb
    exact hm
  obtain ⟨len, xs, rfl⟩ := major_array hmajor
  cases hx with
  | array hl hxs =>
    have hopen : opening 4 len xs.length ++ (bytesAll xs ++ closing len) =
        opening 4 none 0 ++ (t ++ [breakByte]) := by
      rw [← List.append_assoc]
      exact h.trans hstart
    obtain ⟨rfl, -, hitems⟩ := opening_inj (by decide) hl (fun w hw => by cases hw) hopen
    have hread : [openByte 4] ++ (bytesAll xs ++ breakByte :: []) =
        docs.foldl (layoutEntry size) [openByte 4] ++ breakByte :: [] := by
      rw [ht, List.append_assoc, ← hitems]
      rfl
    have hfold := layout_items hxs hread
    rw [layout, hfold, resultItem_bytes]
    rfl

end Truncated

end Firestore
