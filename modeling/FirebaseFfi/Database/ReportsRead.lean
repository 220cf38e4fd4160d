import FirebaseFfi.Database.Reports

namespace Database
open Assoc Calls Cbor Dart Machine Tinycbor
open Firebase (Less Variant serializeVariant serializeVariantMap Ascending itemOf)
open Firestore (maxSize textItem)

/-- A C string of the SDK, in UTF-8. -/
structure CText (s : Bytes) : Prop where
  utf8 : Utf8 s
  whole : (0 : UInt8) ∉ s
  length : s.length ≤ maxSize

/-- `std::map` and `Variant::operator<` order the keys of an event alike. -/
def OrdersEvents (less : Less) : Prop :=
  [ascii "key", ascii "prev", ascii "type", ascii "value"].Pairwise fun a b =>
    less (.string a) (.string b) = true ∧ less (.string b) (.string a) = false

/-- A value of the SDK that goes over whole: a tree, with texts in UTF-8. -/
structure Posted (less : Less) (v : Variant) : Prop where
  tree : v.Tree less
  readable : Readable (itemOf v)
  length : (itemOf v).bytes.length < 2 ^ 32

/-- The map of an event, as it is written. -/
def eventVariant (call : ChildCall) (snap : DataSnapshot) : Variant :=
  .map ((childEvent call snap).map fun e => (.string e.1, e.2))

/-- What the SDK tells can be written, and read. -/
inductive Report.Arrives (less : Less) : Report → Prop
  | value {snap} : snap.Named → Posted less snap.value →
      (orderItem snap).bytes.length < 2 ^ 32 → Arrives less (.value snap)
  | child {call snap} : CText snap.key → (∀ previous ∈ call.previous, CText previous) →
      Posted less snap.value → (itemOf (eventVariant call snap)).bytes.length < 2 ^ 32 →
      Arrives less (.child call snap)
  | cancelled {error message} : CText (cancelledText error message) →
      (itemOf (.string (cancelledText error message))).bytes.length < 2 ^ 32 →
      Arrives less (.cancelled error message)

section Values

variable {package : CborPackage} {less : Less} {v : Variant}

theorem Posted.serialized (h : Posted less v) : serializeVariant v = some (itemOf v).bytes :=
  h.tree.serialized

theorem Posted.readBack (h : Posted less v) (postedNs seq : Int64) (order : Bytes)
    (ho : order.length < 2 ^ 32) :
    ReadBack (postSnapshot postedNs seq (itemOf v).bytes order) postedNs seq (itemOf v).bytes
      order :=
  postSnapshot_readBack postedNs seq (.inl (List.length_pos_iff.mp h.tree.item_wf.length_pos))
    h.length ho

/-- The value of a buffer is the one that was posted, as it comes over. -/
theorem Posted.decoded (h : Posted less v) (hp : package.Reads) {bytes order : Bytes}
    {postedNs seq : Int64} (hback : ReadBack bytes postedNs seq (itemOf v).bytes order) :
    decodeSnapshotValue package bytes = .ok v.shown := by
  have hne : (itemOf v).bytes ≠ [] := List.length_pos_iff.mp h.tree.item_wf.length_pos
  rw [hback.decodesValue, if_neg hne, decodedValue,
    hp.reads _ _ h.tree.item_wf h.readable h.tree.shows]

theorem CText.shown {s : Bytes} (h : CText s) : Variant.shown (.string s) = .string s := by
  rw [Variant.shown, cString_eq_self.mpr h.whole]

theorem CText.posted {s : Bytes} (h : CText s)
    (hlen : (itemOf (.string s)).bytes.length < 2 ^ 32) : Posted less (.string s) := by
  refine ⟨.string h.length, ?_, hlen⟩
  rw [itemOf, cString_eq_self.mpr h.whole]
  exact .text h.utf8

theorem order_decoded {snap : DataSnapshot} (hp : package.Reads) (h : snap.Named) {bytes : Bytes}
    {postedNs seq : Int64} {payload : Bytes}
    (hback : ReadBack bytes postedNs seq payload (orderItem snap).bytes) :
    decodeSnapshotOrder package bytes = .ok (some (childOrder snap)) := by
  have hne : (orderItem snap).bytes ≠ [] := List.length_pos_iff.mp h.item_wf.length_pos
  rw [hback.decodesOrder, if_neg hne, decodedOrder, hp.reads _ _ h.item_wf h.readable h.shows,
    ok_bind, h.decoded]

end Values

section Events

variable {less : Less} {call : ChildCall} {snap : DataSnapshot}

/-- The keys are copied in their order, each after the ones before it. -/
theorem event_emplaced (hless : OrdersEvents less) (call : ChildCall) (snap : DataSnapshot) :
    serializeVariantMap less (childEvent call snap) = serializeVariant (eventVariant call snap) := by
  obtain ⟨h₁, h₂, h₃, -⟩ := by simpa only [OrdersEvents, List.pairwise_cons] using hless
  have hkp := (h₁ (ascii "prev") (by simp)).1
  have hkt := (h₁ (ascii "type") (by simp)).1
  have hkv := (h₁ (ascii "value") (by simp)).1
  have hpt := (h₂ (ascii "type") (by simp)).1
  have hpv := (h₂ (ascii "value") (by simp)).1
  have htv := (h₃ (ascii "value") (by simp)).1
  simp only [serializeVariantMap, eventVariant, childEvent, List.foldl_cons, List.foldl_nil,
    Firebase.emplace, hkp, hkt, hkv, hpt, hpv, htv, if_true, List.map_cons, List.map_nil]

theorem previousKey_text (h : ∀ previous ∈ call.previous, CText previous) :
    ∀ previous ∈ call.previousKey, CText previous := by
  intro previous hmem
  exact h previous (Option.filter_eq_some_iff.mp hmem).1

theorem utf8_names : ∀ name ∈ [ascii "key", ascii "prev", ascii "type", ascii "value"],
    Utf8 name ∧ (0 : UInt8) ∉ name ∧ name.length ≤ maxSize := by
  have hutf8 : Utf8 (ascii "key") ∧ Utf8 (ascii "prev") ∧ Utf8 (ascii "type") ∧
      Utf8 (ascii "value") := ⟨⟨"key", rfl⟩, ⟨"prev", rfl⟩, ⟨"type", rfl⟩, ⟨"value", rfl⟩⟩
  obtain ⟨hkey, hprev, htype, hvalue⟩ := hutf8
  simp only [List.forall_mem_cons]
  refine ⟨⟨hkey, ?_⟩, ⟨hprev, ?_⟩, ⟨htype, ?_⟩, ⟨hvalue, ?_⟩, by simp⟩ <;>
    exact ⟨by decide, by decide⟩

/-- The previous key of an event, or null. -/
def previousVariant (call : ChildCall) : Variant :=
  match call.previousKey with
  | none => .null
  | some previous => .string previous

theorem event_entries (call : ChildCall) (snap : DataSnapshot) :
    childEvent call snap = [(ascii "key", .string snap.key), (ascii "prev", previousVariant call),
      (ascii "type", .int64 call.type), (ascii "value", snap.value)] := rfl

theorem previous_tree (h : ∀ previous ∈ call.previous, CText previous) :
    (previousVariant call).Tree less ∧ Readable (itemOf (previousVariant call)) := by
  have htext := previousKey_text h
  unfold previousVariant
  cases hprevious : call.previousKey with
  | none => exact ⟨.null, .null⟩
  | some previous =>
    have hp := htext previous hprevious
    refine ⟨.string hp.length, ?_⟩
    show Readable (textItem (cString previous))
    rw [cString_eq_self.mpr hp.whole]
    exact .text hp.utf8

theorem previous_shown (h : ∀ previous ∈ call.previous, CText previous) :
    (previousVariant call).shown = call.previousKey.elim .null .string := by
  have htext := previousKey_text h
  unfold previousVariant
  cases hprevious : call.previousKey with
  | none => rfl
  | some previous => exact (htext previous hprevious).shown

/-- The map of an event is a value like any other. -/
theorem event_posted (hless : OrdersEvents less) (hkey : CText snap.key)
    (hprevious : ∀ previous ∈ call.previous, CText previous) (hvalue : Posted less snap.value)
    (hlen : (itemOf (eventVariant call snap)).bytes.length < 2 ^ 32) :
    Posted less (eventVariant call snap) := by
  obtain ⟨hpt, hpr⟩ := @previous_tree less _ hprevious
  have hnames : ∀ d ∈ childEvent call snap, Utf8 d.1 ∧ (0 : UInt8) ∉ d.1 ∧
      d.1.length ≤ maxSize := fun d hd =>
    utf8_names d.1 (List.mem_map_of_mem (f := Prod.fst) hd)
  have hvalues : ∀ d ∈ childEvent call snap, d.2.Tree less ∧ Readable (itemOf d.2) := by
    simp only [event_entries, List.forall_mem_cons]
    refine ⟨⟨.string hkey.length, ?_⟩, ⟨hpt, hpr⟩, ⟨.int64, ?_⟩, ⟨hvalue.tree, hvalue.readable⟩,
      by simp⟩
    · show Readable (textItem (cString snap.key))
      rw [cString_eq_self.mpr hkey.whole]
      exact .text hkey.utf8
    · show Readable (Firestore.intItem call.type)
      unfold Firestore.intItem
      split <;> exact .int
  refine ⟨.map ?_ ?_ ?_ ?_, ?_, hlen⟩
  · exact (by decide : 4 ≤ maxSize)
  · rw [Ascending, List.pairwise_map]
    exact List.Pairwise.of_map (S := fun a b => less (.string a) (.string b) = true ∧
      less (.string b) (.string a) = false) Prod.fst (fun _ _ h => h) hless
  · intro e he
    obtain ⟨d, hd, rfl⟩ := List.mem_map.mp he
    exact ⟨d.1, rfl, (hnames d hd).2.2⟩
  · intro e he
    obtain ⟨d, hd, rfl⟩ := List.mem_map.mp he
    exact (hvalues d hd).1
  · rw [eventVariant, itemOf, Firebase.entriesOf_eq_map, List.map_map]
    refine .map ?_ ?_
    · intro e he
      obtain ⟨d, hd, rfl⟩ := List.mem_map.mp he
      show Readable (textItem (cString d.1))
      rw [cString_eq_self.mpr (hnames d hd).2.1]
      exact .text (hnames d hd).1
    · intro e he
      obtain ⟨d, hd, rfl⟩ := List.mem_map.mp he
      exact (hvalues d hd).2

/-- The object that a map of an event comes over as. -/
theorem event_shown (hkey : CText snap.key) (hprevious : ∀ previous ∈ call.previous, CText previous) :
    (eventVariant call snap).shown = .map [(.string (ascii "key"), .string snap.key),
      (.string (ascii "prev"), call.previousKey.elim .null .string),
      (.string (ascii "type"), .int call.type), (.string (ascii "value"), snap.value.shown)] := by
  have hwhole : ∀ s ∈ [ascii "key", ascii "prev", ascii "type", ascii "value"],
      cString s = s := fun s hs => cString_eq_self.mpr (utf8_names s hs).2.1
  simp only [List.forall_mem_cons] at hwhole
  obtain ⟨h₁, h₂, h₃, h₄, -⟩ := hwhole
  rw [eventVariant, event_entries]
  simp only [List.map_cons, List.map_nil, Variant.shown, Firebase.shownEntries, Firebase.keyText,
    h₁, h₂, h₃, h₄, previous_shown hprevious, cString_eq_self.mpr hkey.whole]
  rfl

end Events

section Messages

variable {package : CborPackage} {less : Less} {call : StreamCall} {bytes payload order : Bytes}
  {postedNs seq : Int64}

theorem magic_read (postedNs seq : Int64) (payload order : Bytes) :
    field 0 4 (postSnapshot postedNs seq payload order) = .ok fdbSnapshotMagic := by
  have hsplit : postSnapshot postedNs seq payload order = [] ++ (le 4 0xfdb50000 ++ (le 4 1 ++
      le 8 seq.toUInt64.toNat ++ le 8 postedNs.toUInt64.toNat ++ le 4 payload.length ++
        le 4 order.length ++ (payload ++ order))) := by
    simp [postSnapshot, fdbSnapshotHeader]
  rw [hsplit]
  exact field_append

/-- The handlers take a snapshot for one when its number is not negative. -/
theorem value_message (hback : ReadBack bytes postedNs seq payload order)
    (hmagic : field 0 4 bytes = .ok fdbSnapshotMagic) (hseq : 0 ≤ seq) {object : Object}
    {sub : Option DbChildOrder} (hvalue : decodeSnapshotValue package bytes = .ok object)
    (horder : decodeSnapshotOrder package bytes = .ok sub) (hkind : call.kind = .value) :
    call.message package bytes = .ok (.snapshot ⟨seq, object, postedNs, sub⟩) := by
  have hnot := Int64.not_lt.mpr hseq
  cases call with
  | onValue path =>
    simp only [StreamCall.message, onValueMessage, hmagic, ok_bind, hback.readsSeq,
      hback.readsPostedNs, hvalue, horder, hnot, if_false, ne_eq, not_true]
    rfl
  | onQueryValue path query =>
    simp only [StreamCall.message, listenWithMessage, ok_bind, hback.readsSeq, decodeValue,
      hback.readsPostedNs, hvalue, horder, hnot, if_false]
    rfl
  | onChildEvent path query => cases hkind

theorem child_message (hback : ReadBack bytes postedNs seq payload order) (hseq : 0 ≤ seq)
    {c : ChildCall} {snap : DataSnapshot} (hkey : CText snap.key)
    (hprevious : ∀ previous ∈ c.previous, CText previous)
    (hvalue : decodeSnapshotValue package bytes = .ok (eventVariant c snap).shown)
    (hkind : call.kind = .child) :
    call.message package bytes =
      .ok (.child ⟨c.event, snap.key, c.previousKey, snap.value.shown⟩) := by
  have hnot := Int64.not_lt.mpr hseq
  have htype : childEventOf c.type = c.event := by cases c <;> rfl
  have hdecoded : decodeChild package bytes =
      .ok ⟨c.event, snap.key, c.previousKey, snap.value.shown⟩ := by
    rw [event_shown hkey hprevious] at hvalue
    rw [decodeChild, hvalue, ← htype]
    cases c.previousKey <;> rfl
  cases call with
  | onValue path => cases hkind
  | onQueryValue path query => cases hkind
  | onChildEvent path query =>
    simp only [StreamCall.message, listenWithMessage, ok_bind, hback.readsSeq, hdecoded, hnot,
      if_false]
    rfl

theorem cancelled_message (hback : ReadBack bytes postedNs (-1) payload order)
    (hmagic : field 0 4 bytes = .ok fdbSnapshotMagic) {text : Bytes}
    (hvalue : decodeSnapshotValue package bytes = .ok (.string text)) :
    call.message package bytes = .ok (.error (match call with
      | .onValue _ => .state (ascii "database listener canceled: " ++ text)
      | _ => .database 1 text call.what)) := by
  have hneg : (-1 : Int64) < 0 := by decide
  cases call with
  | onValue path =>
    simp only [StreamCall.message, onValueMessage, hmagic, ok_bind, hback.readsSeq,
      hback.readsPostedNs, hvalue, hneg, if_true, ne_eq, not_true, if_false]
    rfl
  | onQueryValue path query =>
    simp only [StreamCall.message, listenWithMessage, ok_bind, hback.readsSeq, hvalue, hneg,
      if_true]
    rfl
  | onChildEvent path query =>
    simp only [StreamCall.message, listenWithMessage, ok_bind, hback.readsSeq, hvalue, hneg,
      if_true]
    rfl

/-- What the SDK tells a listener goes out in one buffer, and the handler of the
stream gets it back. -/
theorem Report.Arrives.read {r : Report} (h : r.Arrives less) (hp : package.Reads)
    (hless : OrdersEvents less) (hkind : ∀ kind ∈ r.kind, call.kind = kind) (hseq : 0 ≤ seq)
    (hmax : seq ≠ Int64.maxValue) (postedNs : Int64) :
    ∃ bytes, r.post less postedNs seq = ((r.told call seq postedNs).1, some bytes) ∧
      call.message package bytes = .ok (r.told call seq postedNs).2 := by
  have hnext : 0 ≤ seq + 1 := Int64.le_trans hseq (Int64.le_of_lt (lt_succ hmax))
  cases h with
  | @value snap hnamed hposted horder =>
    have hback := hposted.readBack postedNs (seq + 1) _ horder
    refine ⟨_, ?_, value_message hback (magic_read ..) hnext (hposted.decoded hp hback)
      (order_decoded hp hnamed hback) (hkind .value rfl)⟩
    rw [Report.post, valuePost, hposted.serialized, hnamed.serialized]
    rfl
  | @child c snap hkey hprevious hvalue hlen =>
    have hposted := event_posted hless hkey hprevious hvalue hlen
    have hback := hposted.readBack postedNs (seq + 1) [] (by decide)
    refine ⟨_, ?_, child_message hback hnext hkey hprevious (hposted.decoded hp hback)
      (hkind .child rfl)⟩
    rw [Report.post, childPost, event_emplaced hless, hposted.serialized]
    rfl
  | @cancelled error message htext hlen =>
    have hposted : Posted less _ := htext.posted hlen
    have hback := hposted.readBack postedNs (-1) [] (by decide)
    have hdecoded := hposted.decoded hp hback
    rw [htext.shown] at hdecoded
    refine ⟨_, ?_, cancelled_message hback (magic_read ..) hdecoded⟩
    rw [Report.post, cancelledPost, hposted.serialized]
    rfl

theorem told_nonneg {r : Report} (hseq : 0 ≤ seq) (hmax : seq ≠ Int64.maxValue)
    (postedNs : Int64) : 0 ≤ (r.told call seq postedNs).1 := by
  cases r with
  | cancelled => exact hseq
  | _ => exact Int64.le_trans hseq (Int64.le_of_lt (lt_succ hmax))

end Messages

section Sequences

variable {package : CborPackage} {less : Less} {call : StreamCall} {rs : List (Int64 × Report)}

/-- The buffers of a listener are handled as what its stream tells. -/
structure Conveyed (package : CborPackage) (less : Less) (call : StreamCall)
    (rs : List (Int64 × Report)) : Prop where
  seq : (postAll less rs).1 = (toldAll call rs).1
  nonneg : 0 ≤ (toldAll call rs).1
  items : (postAll less rs).2.filterMap (call.handled package) = (toldAll call rs).2

theorem Conveyed.nil : Conveyed package less call [] :=
  ⟨rfl, Int64.le_refl 0, rfl⟩

theorem Conveyed.snoc (h : Conveyed package less call rs) (hp : package.Reads)
    (hless : OrdersEvents less) {postedNs : Int64} {r : Report} (hr : r.Arrives less)
    (hkind : ∀ kind ∈ r.kind, call.kind = kind) (hmax : (postAll less rs).1 ≠ Int64.maxValue) :
    Conveyed package less call (rs ++ [(postedNs, r)]) := by
  rw [h.seq] at hmax
  obtain ⟨bytes, hpost, hmessage⟩ := hr.read hp hless hkind h.nonneg hmax postedNs
  have hhandled : call.handled package bytes = some (r.told call (toldAll call rs).1 postedNs).2 := by
    rw [StreamCall.handled, hmessage]
  refine ⟨?_, ?_, ?_⟩
  · rw [postAll_snoc, toldAll_snoc, h.seq, hpost]
  · rw [toldAll_snoc]
    exact told_nonneg h.nonneg hmax postedNs
  · rw [postAll_snoc, toldAll_snoc, h.seq, hpost, List.filterMap_append, h.items]
    simp [hhandled]

end Sequences

end Database
