import FirebaseFfi.Assoc.Emplace
import FirebaseFfi.Dart.Reads
import FirebaseFfi.Dart.SnapshotBuffer
import FirebaseFfi.Firebase.VariantSize

namespace Database
open Assoc Cbor Dart Tinycbor
open Firebase (Variant kHeader text_length_le head_length_le)
open Firestore (succeeded andThen encodeContainer Writes writes_text writes_simple writes_array
  arrayItem_bytes arrayItem textItem maxSize textItem_wf arrayItem_wf simple_wf writes_nothing)

/-- A snapshot of the SDK: its key and value, and its children in the order of
the query. -/
inductive DataSnapshot
  | node (key : Bytes) (value : Variant) (children : List DataSnapshot)

namespace DataSnapshot

def key : DataSnapshot → Bytes
  | .node key _ _ => key

def value : DataSnapshot → Variant
  | .node _ value _ => value

def children : DataSnapshot → List DataSnapshot
  | .node _ _ children => children

def hasChildren (snap : DataSnapshot) : Bool := !snap.children.isEmpty

end DataSnapshot

mutual
def encodeOrder : DataSnapshot → CborEncoder → Bool × CborEncoder
  | .node _ _ kids, enc =>
    encodeContainer (cborEncoderCreateArray enc (some kids.length)) (encodeOrderEntries kids)

def encodeOrderEntries : List DataSnapshot → CborEncoder → Bool × CborEncoder
  | [], array => (true, array)
  | child :: kids, array =>
    andThen
      (encodeContainer (cborEncoderCreateArray array (some 2)) fun entry =>
        andThen (succeeded (cborEncodeTextStringz entry child.key)) fun entry =>
          if child.hasChildren then encodeOrder child entry else succeeded (cborEncodeNull entry))
      (encodeOrderEntries kids)
end

mutual
def estimateOrderBytes : DataSnapshot → Nat
  | .node _ _ kids => kHeader + estimateOrderEntries kids

def estimateOrderEntries : List DataSnapshot → Nat
  | [] => 0
  | child :: kids =>
    kHeader + child.key.length + kHeader +
      (if child.hasChildren then estimateOrderBytes child else 0) + estimateOrderEntries kids
end

/-- One encode per attempt, the buffer doubled in between. -/
def serializeOrderLoop (snap : DataSnapshot) : Nat → Nat → Option Bytes
  | 0, _ => none
  | attempts + 1, cap =>
    match encodeOrder snap (cborEncoderInit cap) with
    | (true, enc) => some (cborEncoderGetBuffer enc)
    | (false, _) => serializeOrderLoop snap attempts (cap * 2)

def serializeOrder (snap : DataSnapshot) : Option Bytes :=
  serializeOrderLoop snap 16 (estimateOrderBytes snap)

mutual
/-- The order of a node's children, and of theirs. -/
def childOrder : DataSnapshot → DbChildOrder
  | .node _ _ kids => .mk (kids.map DataSnapshot.key) (subOrders kids)

/-- Of those that have children. -/
def subOrders : List DataSnapshot → List (Bytes × DbChildOrder)
  | [] => []
  | child :: kids =>
    if child.hasChildren then (child.key, childOrder child) :: subOrders kids else subOrders kids
end

mutual
/-- The item the order is written as. -/
def orderItem : DataSnapshot → Item
  | .node _ _ kids => arrayItem (orderItems kids)

def orderItems : List DataSnapshot → List Item
  | [] => []
  | child :: kids =>
    arrayItem [textItem (cString child.key), if child.hasChildren then orderItem child else .null] ::
      orderItems kids
end

mutual
/-- The object that item shows. -/
def orderObject : DataSnapshot → Object
  | .node _ _ kids => .list (orderObjects kids)

def orderObjects : List DataSnapshot → List Object
  | [] => []
  | child :: kids =>
    .list [.string (cString child.key), if child.hasChildren then orderObject child else .null] ::
      orderObjects kids
end

/-- The keys are UTF-8 without NUL, and distinct among siblings. -/
inductive DataSnapshot.Named : DataSnapshot → Prop
  | node {key value kids} : kids.length ≤ maxSize → (kids.map DataSnapshot.key).Nodup →
      (∀ kid ∈ kids, (0 : UInt8) ∉ kid.key ∧ Utf8 kid.key ∧ kid.key.length ≤ maxSize) →
      (∀ kid ∈ kids, Named kid) → Named (.node key value kids)

section Encodes

/-- What is written for one child. -/
def orderEntry (child : DataSnapshot) : Item :=
  arrayItem [textItem (cString child.key), if child.hasChildren then orderItem child else .null]

theorem orderItems_eq_map (kids : List DataSnapshot) : orderItems kids = kids.map orderEntry := by
  induction kids with
  | nil => rfl
  | cons child kids ih => rw [orderItems, ih, List.map_cons, orderEntry]

theorem entry_bytes (child : DataSnapshot) :
    (orderEntry child).bytes = head 4 (.shortest 2) 2 ++ ((textItem (cString child.key)).bytes ++
      (if child.hasChildren then orderItem child else .null).bytes) := by
  rw [orderEntry, arrayItem_bytes]
  simp [bytesAll]

theorem entries_write {kids : List DataSnapshot}
    (h : ∀ kid ∈ kids, Writes (encodeOrder kid) (orderItem kid).bytes 1) :
    Writes (encodeOrderEntries kids) (bytesAll (kids.map orderEntry)) kids.length := by
  induction kids with
  | nil => exact writes_nothing
  | cons child kids ih =>
    have hsub : Writes
        (fun entry => if child.hasChildren then encodeOrder child entry
          else succeeded (cborEncodeNull entry))
        (if child.hasChildren then orderItem child else Item.null).bytes 1 := by
      cases child.hasChildren with
      | true => exact h child (by simp)
      | false => exact writes_simple 22 (by decide)
    have hentry := writes_array (n := 2) (by simp [maxSize, sizeMax])
      ((writes_text (cString child.key)).andThen hsub)
    rw [← entry_bytes] at hentry
    have htail := ih fun kid hkid => h kid (List.mem_cons_of_mem _ hkid)
    have := hentry.writes.andThen htail
    rw [Nat.add_comm] at this
    exact this

variable {snap : DataSnapshot}

/-- The order goes out as its item, whole or not at all. -/
theorem DataSnapshot.Named.writes (h : snap.Named) :
    Writes (encodeOrder snap) (orderItem snap).bytes 1 := by
  induction h with
  | node hl _ _ _ ih =>
    rw [orderItem, orderItems_eq_map, arrayItem_bytes, List.length_map]
    exact (writes_array hl (entries_write ih)).writes

theorem entries_length {kids : List DataSnapshot}
    (h : ∀ kid ∈ kids, (orderItem kid).bytes.length ≤ estimateOrderBytes kid) :
    (bytesAll (kids.map orderEntry)).length ≤ estimateOrderEntries kids := by
  induction kids with
  | nil => exact Nat.le_refl 0
  | cons child kids ih =>
    have hkey := text_length_le (cString child.key)
    have hcut := cString_length_le child.key
    have hhead : (head 4 (.shortest 2) 2).length = 1 := by simp [Width.shortest, Width.size]
    have hsub := h child (by simp)
    have htail := ih fun kid hkid => h kid (List.mem_cons_of_mem _ hkid)
    have hnull : Item.null.bytes.length = 1 := rfl
    simp only [kHeader] at hkey
    simp only [List.map_cons, bytesAll, List.length_append, entry_bytes, estimateOrderEntries,
      hhead, kHeader]
    cases child.hasChildren with
    | true =>
      simp only [if_true]
      omega
    | false =>
      simp only [Bool.false_eq_true, if_false]
      omega

/-- The estimate never falls short. -/
theorem DataSnapshot.Named.length_le (h : snap.Named) :
    (orderItem snap).bytes.length ≤ estimateOrderBytes snap := by
  induction h with
  | node _ _ _ _ ih =>
    rw [orderItem, orderItems_eq_map, arrayItem_bytes, List.length_append, estimateOrderBytes]
    exact Nat.add_le_add (head_length_le _ _ _) (entries_length ih)

/-- The first buffer is long enough. -/
theorem DataSnapshot.Named.serialized (h : snap.Named) :
    serializeOrder snap = some (orderItem snap).bytes := by
  obtain ⟨enc, henc, hbuffer⟩ := h.writes.init h.length_le
  rw [serializeOrder, serializeOrderLoop, henc]
  exact congrArg some hbuffer

end Encodes

section Decodes

variable {snap : DataSnapshot}

theorem DataSnapshot.Named.item_wf (h : snap.Named) : (orderItem snap).WF := by
  induction h with
  | @node key value kids hl hnodup hk hkids ih =>
    rw [orderItem, orderItems_eq_map]
    apply arrayItem_wf (by simpa using hl)
    intro y hy
    obtain ⟨child, hchild, rfl⟩ := List.mem_map.mp hy
    obtain ⟨-, -, hlen⟩ := hk child hchild
    apply arrayItem_wf (by simp [maxSize, sizeMax])
    intro x hx
    simp only [List.mem_cons, List.not_mem_nil, or_false] at hx
    rcases hx with rfl | rfl
    · exact textItem_wf (Nat.le_trans (cString_length_le _) hlen)
    · split
      · exact ih child hchild
      · exact simple_wf (by decide)

theorem DataSnapshot.Named.readable (h : snap.Named) : Readable (orderItem snap) := by
  induction h with
  | @node key value kids hl hnodup hk hkids ih =>
    rw [orderItem, orderItems_eq_map]
    apply Readable.array
    intro y hy
    obtain ⟨child, hchild, rfl⟩ := List.mem_map.mp hy
    obtain ⟨hnul, htext, -⟩ := hk child hchild
    apply Readable.array
    intro x hx
    simp only [List.mem_cons, List.not_mem_nil, or_false] at hx
    rcases hx with rfl | rfl
    · exact .text (by rwa [cString_eq_self.mpr hnul])
    · split
      · exact ih child hchild
      · exact .null

theorem orderObjects_eq_map (kids : List DataSnapshot) :
    orderObjects kids = kids.map fun child =>
      .list [.string (cString child.key), if child.hasChildren then orderObject child else .null] := by
  induction kids with
  | nil => rfl
  | cons child kids ih => rw [orderObjects, ih, List.map_cons]

theorem DataSnapshot.Named.shows (h : snap.Named) :
    Shows (cborDecode (orderItem snap)) (orderObject snap) := by
  induction h with
  | @node key value kids _ _ _ _ ih =>
    rw [orderItem, orderItems_eq_map, orderObject, orderObjects_eq_map]
    apply Shows.list
    apply shows_list
    intro child hchild
    have hsub : Shows (cborDecode (if child.hasChildren then orderItem child else Item.null))
        (if child.hasChildren then orderObject child else .null) := by
      cases child.hasChildren with
      | true => exact ih child hchild
      | false => exact .null
    exact .list (.cons .string (.cons hsub .nil))

variable (toString : Object → Option Bytes)

theorem decodeOrderEntries_entry {sub : Object} {o : Option DbChildOrder}
    (hsub : decodeOrder toString sub = .ok o) (order : DbChildOrder) (key : Bytes)
    (entries : List Object) :
    decodeOrderEntries toString order (.list [.string key, sub] :: entries) =
      decodeOrderEntries toString (order.add key o) entries := by
  rw [decodeOrderEntries, hsub]
  rfl

/-- The loop goes on from the keys and orders it has. None of those orders is of
a child that is still to come. -/
theorem decodeOrderEntries_back {kids : List DataSnapshot} (keys : List Bytes)
    (orders : List (Bytes × DbChildOrder)) (hnodup : (kids.map DataSnapshot.key).Nodup)
    (hfresh : ∀ e ∈ orders, e.1 ∉ kids.map DataSnapshot.key)
    (hnul : ∀ kid ∈ kids, (0 : UInt8) ∉ kid.key)
    (ih : ∀ kid ∈ kids, decodeOrder toString (orderObject kid) = .ok (some (childOrder kid))) :
    decodeOrderEntries toString (.mk keys orders) (orderObjects kids) =
      .ok (.mk (keys ++ kids.map DataSnapshot.key) (orders ++ subOrders kids)) := by
  induction kids generalizing keys orders with
  | nil => simp [orderObjects, decodeOrderEntries, subOrders]
  | cons child kids ihkids =>
    rw [List.map_cons, List.nodup_cons] at hnodup
    have hkey : cString child.key = child.key := cString_eq_self.mpr (hnul child (by simp))
    have hrest : ∀ orders' : List (Bytes × DbChildOrder),
        (∀ e ∈ orders', e.1 ∉ kids.map DataSnapshot.key) →
        decodeOrderEntries toString (.mk (keys ++ [child.key]) orders') (orderObjects kids) =
          .ok (.mk (keys ++ [child.key] ++ kids.map DataSnapshot.key) (orders' ++ subOrders kids)) := by
      intro orders' hfresh'
      exact ihkids _ _ hnodup.2 hfresh' (fun kid hkid => hnul kid (List.mem_cons_of_mem _ hkid))
        fun kid hkid => ih kid (List.mem_cons_of_mem _ hkid)
    have htail : ∀ e ∈ orders, e.1 ∉ kids.map DataSnapshot.key := by
      intro e he hmem
      exact hfresh e he (List.mem_cons_of_mem _ hmem)
    rw [orderObjects, subOrders, hkey, List.map_cons]
    cases hchildren : child.hasChildren with
    | false =>
      have hnull : decodeOrder toString .null = .ok none := rfl
      have hadd : (DbChildOrder.mk keys orders).add child.key none =
          .mk (keys ++ [child.key]) orders := rfl
      simp only [Bool.false_eq_true, if_false]
      rw [decodeOrderEntries_entry toString hnull, hadd, hrest orders htail]
      simp
    | true =>
      have hassign : assign orders (child.key, childOrder child) = orders ++ [(child.key, childOrder child)] :=
        assign_fresh fun e he heq => hfresh e he (by simp [heq])
      have hall : ∀ e ∈ orders ++ [(child.key, childOrder child)], e.1 ∉ kids.map DataSnapshot.key := by
        intro e he
        rcases List.mem_append.mp he with he | he
        · exact htail e he
        · obtain rfl := List.mem_singleton.mp he
          exact hnodup.1
      have hadd : (DbChildOrder.mk keys orders).add child.key (some (childOrder child)) =
          .mk (keys ++ [child.key]) (orders ++ [(child.key, childOrder child)]) := by
        rw [← hassign]
        rfl
      simp only [if_true]
      rw [decodeOrderEntries_entry toString (ih child (by simp)), hadd, hrest _ hall]
      simp

/-- The order is read back as it is, at every level. -/
theorem DataSnapshot.Named.decoded (h : snap.Named) :
    decodeOrder toString (orderObject snap) = .ok (some (childOrder snap)) := by
  induction h with
  | @node key value kids hl hnodup hk hkids ih =>
    have hback := decodeOrderEntries_back toString [] [] hnodup (by simp)
      (fun kid hkid => (hk kid hkid).1) ih
    rw [orderObject, decodeOrder, hback]
    rfl

end Decodes

/-- A buffer with an order section of these bytes. -/
structure OrderSection (bytes order : Bytes) : Prop where
  within : snapshotHeaderBytes + valueLen bytes + orderLen bytes ≤ bytes.length
  region : orderRegion bytes = order

theorem orderSection_decoded {package : CborPackage} {bytes order : Bytes}
    (h : OrderSection bytes order) (hne : order ≠ []) :
    decodeSnapshotOrder package bytes = .ok (decodedOrder package order) := by
  have hwithin := h.within
  have hlen : orderLen bytes ≠ 0 := by
    intro hzero
    apply hne
    rw [← h.region, orderRegion, hzero, List.take_zero]
  rw [decodeSnapshotOrder_eq, if_neg (by omega), if_neg hlen, if_neg (by omega), h.region]

/-- As PostSnapshot makes one. -/
theorem postSnapshot_orderSection (postedNs seq : Int64) {payload order : Bytes} (hne : payload ≠ [])
    (hp : payload.length < 2 ^ 32) (ho : order.length < 2 ^ 32) :
    OrderSection (postSnapshot postedNs seq payload order) order := by
  have hback := postSnapshot_readBack postedNs seq (.inl hne) hp ho
  refine ⟨?_, hback.regions.2⟩
  have hvalueLen : valueLen (postSnapshot postedNs seq payload order) = payload.length := by
    rw [postSnapshot, header_valueLen, Nat.mod_eq_of_lt hp]
  have horderLen : orderLen (postSnapshot postedNs seq payload order) = order.length := by
    rw [postSnapshot, header_orderLen, Nat.mod_eq_of_lt ho]
  rw [hvalueLen, horderLen, postSnapshot]
  simp [Nat.add_assoc]

/-- With the bytes that EncodeOrder writes wherever there is room, the estimate is
room enough, SerializeOrder gives them, and any buffer that carries them is read
as the order of the snapshot. -/
theorem order_read_back {package : CborPackage} (hp : package.Reads) {snap : DataSnapshot}
    (h : snap.Named) :
    ∃ order : Bytes,
      (∀ cap, order.length ≤ cap → ∃ enc, encodeOrder snap (cborEncoderInit cap) = (true, enc) ∧
        cborEncoderGetBuffer enc = order) ∧
      order.length ≤ estimateOrderBytes snap ∧
      serializeOrder snap = some order ∧
      ∀ bytes, OrderSection bytes order →
        decodeSnapshotOrder package bytes = .ok (some (childOrder snap)) := by
  refine ⟨_, fun cap => h.writes.init, h.length_le, h.serialized, ?_⟩
  intro bytes hsection
  have hne : (orderItem snap).bytes ≠ [] := List.length_pos_iff.mp h.item_wf.length_pos
  have hreads := hp.reads _ _ h.item_wf h.readable h.shows
  rw [orderSection_decoded hsection hne, decodedOrder, hreads, ok_bind, h.decoded]

/-- A child with a child of its own, before one without. -/
def twoLevels : DataSnapshot :=
  .node [] .null [.node [0x62] .null [.node [0x63] (.bool true) []], .node [0x61] (.bool false) []]

theorem utf8_letter : Utf8 [0x61] ∧ Utf8 [0x62] ∧ Utf8 [0x63] :=
  ⟨⟨"a", rfl⟩, ⟨"b", rfl⟩, ⟨"c", rfl⟩⟩

theorem twoLevels_named : twoLevels.Named := by
  obtain ⟨ha, hb, hc⟩ := utf8_letter
  have hleaf : ∀ k b, (DataSnapshot.node k (.bool b) []).Named :=
    fun _ _ => .node (by simp) (by simp) (by simp) (by simp)
  have hinner : (DataSnapshot.node [0x62] .null [.node [0x63] (.bool true) []]).Named :=
    .node (by simp [maxSize, sizeMax]) (by simp) (by simp [DataSnapshot.key, hc, maxSize, sizeMax])
      (by simp [hleaf])
  exact .node (by simp [maxSize, sizeMax]) (by simp [DataSnapshot.key])
    (by simp [DataSnapshot.key, ha, hb, maxSize, sizeMax]) (by simp [hleaf, hinner])

theorem twoLevels_read_back :
    ∃ order : Bytes,
      (∀ cap, order.length ≤ cap → ∃ enc, encodeOrder twoLevels (cborEncoderInit cap) = (true, enc) ∧
        cborEncoderGetBuffer enc = order) ∧
      order.length ≤ estimateOrderBytes twoLevels ∧
      serializeOrder twoLevels = some order ∧
      ∀ bytes, OrderSection bytes order →
        decodeSnapshotOrder itemPackage bytes = .ok (some (childOrder twoLevels)) :=
  order_read_back itemPackage_reads twoLevels_named

end Database
