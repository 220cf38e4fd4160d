import FirebaseFfi.Database.ChildTree
import FirebaseFfi.Firebase.VariantObject

namespace Database
open Assoc Cbor Dart Tinycbor
open Firebase (Variant VariantMap keyText shownEntries_eq_map shownAll_eq_map)

def slash : UInt8 := 0x2f

/-- `_segments` of a path. -/
def segmentsOf (path : Bytes) : List Bytes := (path.splitOn slash).filter fun s => !s.isEmpty

/-- A snapshot of the plugin, with the segments of its reference. -/
structure FfiDataSnapshot where
  ref : List Bytes
  value : Object
  order : Option DbChildOrder

/-- `map[key]` of a key that the map contains. -/
def memberOf : List (Object × Object) → Bytes → Option Object
  | [], _ => none
  | (.string k, value) :: rest, key => if k = key then some value else memberOf rest key
  | _ :: rest, key => memberOf rest key

def asMap : Object → Option (List (Object × Object))
  | .map entries => some entries
  | _ => none

def refChild (ref : List Bytes) (path : Bytes) : List Bytes := ref ++ segmentsOf path

namespace FfiDataSnapshot

/-- `_order?.children[key]` -/
def orderIn (s : FfiDataSnapshot) (key : Bytes) : Option DbChildOrder :=
  s.order.bind fun order => order.children.lookup key

def childOf (s : FfiDataSnapshot) (key : Bytes) (value : Object) : FfiDataSnapshot :=
  ⟨refChild s.ref key, value, s.orderIn key⟩

/-- The keys of the order, or those of the map as text. -/
def keysIn (toString : Object → Option Bytes) (s : FfiDataSnapshot)
    (map : List (Object × Object)) : Except Thrown (List Bytes) :=
  match s.order with
  | some order => .ok order.keys
  | none => map.mapM fun e => keyOf toString e.1

def children (toString : Object → Option Bytes) (s : FfiDataSnapshot) :
    Except Thrown (List FfiDataSnapshot) :=
  match asMap s.value with
  | none => .ok []
  | some map => do
    let keys ← s.keysIn toString map
    return keys.filterMap fun key => (memberOf map key).map (s.childOf key)

/-- One turn of the loop over the segments. -/
def descend (s : FfiDataSnapshot) (segment : Bytes) : FfiDataSnapshot :=
  ⟨refChild s.ref segment,
    ((asMap s.value).bind fun map => memberOf map segment).getD .null, s.orderIn segment⟩

def child (s : FfiDataSnapshot) (path : Bytes) : FfiDataSnapshot :=
  (segmentsOf path).foldl descend s

end FfiDataSnapshot

namespace DataSnapshot

/-- The node at the end of a path of keys. -/
def find : DataSnapshot → List Bytes → Option DataSnapshot
  | snap, [] => some snap
  | snap, key :: keys =>
    (snap.children.find? fun kid => kid.key = key).bind fun kid => kid.find keys

/-- Its own order, of a node with children. -/
def subOrder (snap : DataSnapshot) : Option DbChildOrder :=
  if snap.hasChildren then some (childOrder snap) else none

end DataSnapshot

/-- The members of a list that are there, under their indices. -/
def listMembers (items : List Variant) : List (Bytes × Variant) :=
  items.zipIdx.filterMap fun e =>
    match e.1 with
    | .null => none
    | v => some (ascii (toString e.2), v)

/-- The key of a node: not empty, and without a slash or a NUL. -/
def PathKey (key : Bytes) : Prop := key ≠ [] ∧ slash ∉ key ∧ (0 : UInt8) ∉ key

/-- A snapshot as the SDK delivers it, with a map or a list of the values of its
children, or a leaf. -/
inductive DataSnapshot.Delivered : DataSnapshot → Prop
  | leaf {key value} : (∀ entries, value ≠ .map entries) → (∀ items, value ≠ .vector items) →
      Delivered (.node key value [])
  | map {key entries kids} :
      entries.Perm (kids.map fun kid => (Variant.string kid.key, kid.value)) →
      (kids.map DataSnapshot.key).Nodup → (∀ kid ∈ kids, PathKey kid.key) →
      (∀ kid ∈ kids, Delivered kid) → Delivered (.node key (.map entries) kids)
  | list {key items kids} :
      (listMembers items).Perm (kids.map fun kid => (kid.key, kid.value)) →
      (kids.map DataSnapshot.key).Nodup → (∀ kid ∈ kids, PathKey kid.key) →
      (∀ kid ∈ kids, Delivered kid) → Delivered (.node key (.vector items) kids)

/-- What is made of a snapshot that arrives, and of a child. -/
def FfiDataSnapshot.root (ref : List Bytes) (snap : DataSnapshot) : FfiDataSnapshot :=
  ⟨ref, snap.value.shown, some (childOrder snap)⟩

def FfiDataSnapshot.below (ref : List Bytes) (snap : DataSnapshot) : FfiDataSnapshot :=
  ⟨ref, snap.value.shown, snap.subOrder⟩

/-- The snapshot that stands for a node that is there, or that is not. -/
def landing (ref : List Bytes) : Option DataSnapshot → FfiDataSnapshot
  | some node => .below ref node
  | none => ⟨ref, .null, none⟩

/-- The snapshot that stands for what is at a path. -/
def standing (ref : List Bytes) (snap : DataSnapshot) : List Bytes → FfiDataSnapshot
  | [] => .root ref snap
  | key :: keys => landing (ref ++ key :: keys) (snap.find (key :: keys))

/-- The plugin's snapshot goes to the same nodes as the SDK's, at every depth:
from each to its children, in their order, and from the root along every path. -/
structure Mirrors (toString : Object → Option Bytes) (ref : List Bytes) (snap : DataSnapshot) :
    Prop where
  children : ∀ keys node, snap.find keys = some node →
    (standing ref snap keys).children toString =
      .ok (node.children.map fun kid => .below (ref ++ keys ++ [kid.key]) kid)
  child : ∀ path, (FfiDataSnapshot.root ref snap).child path = standing ref snap (segmentsOf path)

/-- No node with children is delivered as a list. -/
def DataSnapshot.Unlisted (snap : DataSnapshot) : Prop :=
  ∀ keys node, snap.find keys = some node → node.children ≠ [] →
    ∃ entries, node.value = .map entries

section Arrival

variable {less : Firebase.Less} {snap : DataSnapshot}

/-- The plugin's snapshot is made of what the two readers give of a buffer that
PostSnapshot makes of the SDK's. -/
theorem snapshot_arrives {package : CborPackage} (hp : package.Reads) (hnamed : snap.Named)
    (htree : snap.value.Tree less) (hreadable : Readable (Firebase.itemOf snap.value)) :
    ∃ value order, Firebase.serializeVariant snap.value = some value ∧
      serializeOrder snap = some order ∧ ∀ (postedNs seq : Int64) (ref : List Bytes),
        value.length < 2 ^ 32 → order.length < 2 ^ 32 → ∃ o sub,
          decodeSnapshotValue package (postSnapshot postedNs seq value order) = .ok o ∧
          decodeSnapshotOrder package (postSnapshot postedNs seq value order) = .ok sub ∧
          FfiDataSnapshot.root ref snap = ⟨ref, o, sub⟩ := by
  refine ⟨_, _, htree.serialized, hnamed.serialized, ?_⟩
  intro postedNs seq ref hv ho
  have hvalue : (Firebase.itemOf snap.value).bytes ≠ [] :=
    List.length_pos_iff.mp htree.item_wf.length_pos
  have horder : (orderItem snap).bytes ≠ [] := List.length_pos_iff.mp hnamed.item_wf.length_pos
  have hback := postSnapshot_readBack postedNs seq (.inl hvalue) hv ho
  refine ⟨_, _, ?_, ?_, rfl⟩
  · rw [hback.decodesValue, if_neg hvalue, decodedValue,
      hp.reads _ _ htree.item_wf hreadable htree.shows]
  · rw [hback.decodesOrder, if_neg horder, decodedOrder,
      hp.reads _ _ hnamed.item_wf hnamed.readable hnamed.shows, ok_bind, hnamed.decoded]

end Arrival

section Segments

theorem splitOn_slash {path s : Bytes} (h : s ∈ path.splitOn slash) : slash ∉ s := by
  induction path generalizing s with
  | nil =>
    rw [List.splitOn_nil, List.mem_singleton] at h
    simp [h]
  | cons b path ih =>
    rw [List.splitOn_cons_eq_if_modifyHead] at h
    split at h
    · rcases List.mem_cons.mp h with rfl | h
      · simp
      · exact ih h
    · next hb =>
      cases hsplit : path.splitOn slash with
      | nil => exact absurd hsplit (List.splitOn_ne_nil _ _)
      | cons t ts =>
        rw [hsplit] at h ih
        rw [List.modifyHead_cons] at h
        rcases List.mem_cons.mp h with rfl | h
        · have ht := ih (s := t) (by simp)
          have hne : slash ≠ b := fun heq => hb (by simp [heq])
          simp [hne, ht]
        · exact ih (List.mem_cons_of_mem _ h)

theorem mem_segmentsOf {path s : Bytes} (h : s ∈ segmentsOf path) : s ≠ [] ∧ slash ∉ s := by
  obtain ⟨hmem, hne⟩ := List.mem_filter.mp h
  exact ⟨by simpa using hne, splitOn_slash hmem⟩

theorem refChild_key (ref : List Bytes) {key : Bytes} (hne : key ≠ []) (hslash : slash ∉ key) :
    refChild ref key = ref ++ [key] := by
  rw [refChild, segmentsOf, List.splitOn_eq_singleton hslash]
  simp [hne]

end Segments

section Lookups

theorem memberOf_strings (es : List (Bytes × Object)) (key : Bytes) :
    memberOf (es.map fun e => (.string e.1, e.2)) key = es.lookup key := by
  induction es with
  | nil => rfl
  | cons e es ih =>
    obtain ⟨k, v⟩ := e
    rw [List.map_cons, memberOf, ih, List.lookup_cons]
    by_cases h : k = key
    · simp [h]
    · rw [if_neg h, beq_false_of_ne (Ne.symm h)]

theorem lookup_kids {β : Type} (g : DataSnapshot → β) (kids : List DataSnapshot) (key : Bytes) :
    (kids.map fun kid => (kid.key, g kid)).lookup key =
      (kids.find? fun kid => kid.key = key).map g := by
  induction kids with
  | nil => rfl
  | cons kid kids ih =>
    rw [List.map_cons, List.lookup_cons, List.find?_cons, ih]
    by_cases h : kid.key = key
    · simp [h]
    · rw [beq_false_of_ne (Ne.symm h)]
      simp [h]

theorem find_kid {kids : List DataSnapshot} (hnodup : (kids.map DataSnapshot.key).Nodup)
    {kid : DataSnapshot} (h : kid ∈ kids) : (kids.find? fun k => k.key = kid.key) = some kid := by
  have hmem : (kid.key, kid) ∈ kids.map fun k => (k.key, k) := List.mem_map.mpr ⟨kid, h, rfl⟩
  have hkeys : ((kids.map fun k => (k.key, k)).map Prod.fst).Nodup := by
    rwa [List.map_map]
  have := (lookup_mem hkeys).mpr hmem
  rw [lookup_kids] at this
  simpa using this

theorem lookup_subOrders {kids : List DataSnapshot} (hnodup : (kids.map DataSnapshot.key).Nodup)
    (key : Bytes) :
    (subOrders kids).lookup key = (kids.find? fun kid => kid.key = key).bind
      DataSnapshot.subOrder := by
  induction kids with
  | nil => rfl
  | cons kid kids ih =>
    obtain ⟨hfresh, hnodup⟩ := List.nodup_cons.mp hnodup
    have hrest := ih hnodup
    rw [subOrders, List.find?_cons]
    by_cases h : kid.key = key
    · have hnone : (kids.find? fun kid => kid.key = key) = none := by
        rw [List.find?_eq_none]
        intro other hother heq
        exact hfresh (List.mem_map.mpr ⟨other, hother, by simpa [h] using heq⟩)
      rw [hnone] at hrest
      cases hchildren : kid.hasChildren with
      | true => simp [h, DataSnapshot.subOrder, hchildren]
      | false => simpa [h, DataSnapshot.subOrder, hchildren] using hrest
    · cases kid.hasChildren with
      | true => simp [h, List.lookup_cons, beq_false_of_ne (Ne.symm h), hrest]
      | false => simp [h, hrest]

/-- The map of a node holds exactly the values of its children. -/
theorem memberOf_shown {entries : VariantMap} {kids : List DataSnapshot}
    (hperm : entries.Perm (kids.map fun kid => (Variant.string kid.key, kid.value)))
    (hnodup : (kids.map DataSnapshot.key).Nodup) (hkeys : ∀ kid ∈ kids, PathKey kid.key) :
    ∃ map, (Variant.map entries).shown = .map map ∧ ∀ key,
      memberOf map key = (kids.find? fun kid => kid.key = key).map fun kid => kid.value.shown := by
  have hshown : (entries.map fun e => (cString (keyText e.1), e.2.shown)).Perm
      (kids.map fun kid => (kid.key, kid.value.shown)) := by
    have hmap := hperm.map fun e => (cString (keyText e.1), e.2.shown)
    rw [List.map_map] at hmap
    refine hmap.trans (List.Perm.of_eq (List.map_congr_left ?_))
    intro kid hkid
    change (cString kid.key, kid.value.shown) = _
    rw [cString_eq_self.mpr (hkeys kid hkid).2.2]
  have hfst : ((kids.map fun kid => (kid.key, kid.value.shown)).map Prod.fst).Nodup := by
    rwa [List.map_map]
  have hnodup' := (hshown.map Prod.fst).nodup_iff.mpr hfst
  refine ⟨_, by rw [Variant.shown, shownEntries_eq_map, assignAll_new (by simpa using hnodup')], ?_⟩
  intro key
  rw [List.nil_append, memberOf_strings, ← lookup_kids]
  apply Option.ext
  intro o
  rw [lookup_mem hnodup', lookup_mem hfst, hshown.mem_iff]

end Lookups

/-- It has the node's value, and its order if there are children to order. -/
structure Stands (s : FfiDataSnapshot) (node : DataSnapshot) : Prop where
  value : s.value = node.value.shown
  order : s.order = some (childOrder node) ∨ (s.order = none ∧ node.children = [])

/-- A node that the plugin can walk. -/
def Walkable (node : DataSnapshot) : Prop :=
  node.children ≠ [] → ∃ entries, node.value = .map entries

section Node

variable {s : FfiDataSnapshot} {node : DataSnapshot}

theorem root_stands (ref : List Bytes) (snap : DataSnapshot) : Stands (.root ref snap) snap :=
  ⟨rfl, .inl rfl⟩

theorem below_stands (ref : List Bytes) (node : DataSnapshot) : Stands (.below ref node) node := by
  refine ⟨rfl, ?_⟩
  cases hchildren : node.hasChildren with
  | true => exact .inl (by simp [FfiDataSnapshot.below, DataSnapshot.subOrder, hchildren])
  | false =>
    refine .inr ⟨by simp [FfiDataSnapshot.below, DataSnapshot.subOrder, hchildren], ?_⟩
    simpa [DataSnapshot.hasChildren] using hchildren

theorem Stands.orderIn (h : Stands s node) (hnodup : (node.children.map DataSnapshot.key).Nodup)
    (key : Bytes) :
    s.orderIn key = (node.children.find? fun kid => kid.key = key).bind DataSnapshot.subOrder := by
  rw [FfiDataSnapshot.orderIn, ← lookup_subOrders hnodup]
  obtain ⟨k, v, kids⟩ := node
  rcases h.order with horder | ⟨horder, hnone⟩
  · rw [horder]
    rfl
  · obtain rfl : kids = [] := hnone
    rw [horder]
    rfl

theorem DataSnapshot.Delivered.nodup (h : node.Delivered) :
    (node.children.map DataSnapshot.key).Nodup := by
  cases h with
  | leaf => exact List.nodup_nil
  | map _ hnodup => exact hnodup
  | list _ hnodup => exact hnodup

theorem DataSnapshot.Delivered.kid (h : node.Delivered) {kid : DataSnapshot}
    (hkid : kid ∈ node.children) : PathKey kid.key ∧ kid.Delivered := by
  cases h with
  | leaf => cases hkid
  | map _ _ hkeys hkids => exact ⟨hkeys kid hkid, hkids kid hkid⟩
  | list _ _ hkeys hkids => exact ⟨hkeys kid hkid, hkids kid hkid⟩

theorem shown_asMap {v : Variant} (h : ∀ entries, v ≠ .map entries) : asMap v.shown = none := by
  cases v with
  | map entries => exact absurd rfl (h entries)
  | _ => rfl

/-- What the value has under a key is the value of the child with that key. -/
theorem Stands.member (h : Stands s node) (hd : node.Delivered) (hw : Walkable node)
    (key : Bytes) :
    ((asMap s.value).bind fun map => memberOf map key) =
      (node.children.find? fun kid => kid.key = key).map fun kid => kid.value.shown := by
  rw [h.value]
  cases hd with
  | leaf hmap _ =>
    rw [DataSnapshot.value, shown_asMap hmap]
    rfl
  | map hperm hnodup hkeys _ =>
    obtain ⟨map, hshown, hmember⟩ := memberOf_shown hperm hnodup hkeys
    rw [DataSnapshot.value, hshown]
    exact hmember key
  | @list _ items kids hperm hnodup hkeys _ =>
    cases kids with
    | nil => rfl
    | cons kid kids =>
      obtain ⟨entries, hentries⟩ := hw (by simp [DataSnapshot.children])
      cases hentries

/-- One segment down is where the SDK's child with that key is, or nowhere. -/
theorem Stands.descend (h : Stands s node) (hd : node.Delivered) (hw : Walkable node)
    {segment : Bytes} (hne : segment ≠ []) (hslash : slash ∉ segment) :
    s.descend segment =
      landing (s.ref ++ [segment]) (node.children.find? fun kid => kid.key = segment) := by
  rw [FfiDataSnapshot.descend, h.member hd hw, h.orderIn hd.nodup, refChild_key _ hne hslash]
  cases node.children.find? fun kid => kid.key = segment with
  | none => rfl
  | some kid => rfl

theorem children_nil (toString : Object → Option Bytes) (h : asMap s.value = none) :
    s.children toString = .ok [] := by
  rw [FfiDataSnapshot.children, h]

theorem Stands.empty {map : List (Object × Object)} (h : Stands s node) (hd : node.Delivered)
    (hnil : node.children = []) (hmap : asMap s.value = some map) : map = [] := by
  rw [h.value] at hmap
  cases hd with
  | leaf hleaf _ =>
    rw [DataSnapshot.value, shown_asMap hleaf] at hmap
    cases hmap
  | @map _ entries kids hperm _ _ _ =>
    obtain rfl : kids = [] := hnil
    obtain rfl : entries = [] := hperm.eq_nil
    cases hmap
    rfl
  | list _ _ _ _ => cases hmap

/-- The children are those of the SDK, in its order. -/
theorem Stands.children (toString : Object → Option Bytes) (h : Stands s node)
    (hd : node.Delivered) (hw : Walkable node) :
    s.children toString = .ok (node.children.map fun kid => .below (s.ref ++ [kid.key]) kid) := by
  have hmember := h.member hd hw
  have horderIn := h.orderIn hd.nodup
  have hkids := fun (kid : DataSnapshot) (hkid : kid ∈ node.children) => hd.kid hkid
  have hfind := fun (kid : DataSnapshot) (hkid : kid ∈ node.children) => find_kid hd.nodup hkid
  cases hmap : asMap s.value with
  | none =>
    have hnil : node.children = [] := by
      cases hchildren : node.children with
      | nil => rfl
      | cons kid kids =>
        have hfirst := hmember kid.key
        rw [hmap, hfind kid (by simp [hchildren])] at hfirst
        cases hfirst
    rw [children_nil toString hmap, hnil]
    rfl
  | some map =>
    rw [hmap] at hmember
    have hkeys : s.keysIn toString map = .ok (node.children.map DataSnapshot.key) := by
      rw [FfiDataSnapshot.keysIn]
      rcases h.order with horder | ⟨horder, hnil⟩
      · rw [horder]
        obtain ⟨k, v, kids⟩ := node
        rfl
      · rw [horder, h.empty hd hnil hmap, hnil]
        rfl
    have hall : (node.children.map DataSnapshot.key).filterMap
        (fun key => (memberOf map key).map (s.childOf key)) =
          node.children.map fun kid => .below (s.ref ++ [kid.key]) kid := by
      rw [List.filterMap_map, ← List.filterMap_eq_map]
      apply List.filterMap_congr
      intro kid hkid
      have hvalue : memberOf map kid.key = some kid.value.shown := by
        have hfirst := hmember kid.key
        rwa [hfind kid hkid] at hfirst
      obtain ⟨⟨hne, hslash, -⟩, -⟩ := hkids kid hkid
      simp only [Function.comp_apply, hvalue, Option.map_some, FfiDataSnapshot.childOf,
        refChild_key _ hne hslash, horderIn, hfind kid hkid]
      rfl
    rw [FfiDataSnapshot.children, hmap]
    simp only [hkeys, ok_bind, hall]
    rfl

end Node

section Walks

variable {snap : DataSnapshot}

theorem find_cons {key : Bytes} {keys : List Bytes} {kid : DataSnapshot}
    (h : (snap.children.find? fun k => k.key = key) = some kid) :
    snap.find (key :: keys) = kid.find keys := by
  rw [DataSnapshot.find, h]
  rfl

theorem DataSnapshot.Delivered.find (h : snap.Delivered) {keys : List Bytes} {node : DataSnapshot}
    (hnode : snap.find keys = some node) : node.Delivered := by
  induction keys generalizing snap with
  | nil =>
    obtain rfl := Option.some.inj hnode
    exact h
  | cons key keys ih =>
    obtain ⟨kid, hkid, hnode⟩ := Option.bind_eq_some_iff.mp hnode
    exact ih (h.kid (List.mem_of_find?_eq_some hkid)).2 hnode

theorem DataSnapshot.Unlisted.kid (h : snap.Unlisted) {key : Bytes} {kid : DataSnapshot}
    (hkid : (snap.children.find? fun k => k.key = key) = some kid) : kid.Unlisted := by
  intro keys node hnode
  exact h (key :: keys) node (by rw [find_cons hkid, hnode])

theorem DataSnapshot.Unlisted.of_kids
    (hvalue : snap.children ≠ [] → ∃ entries, snap.value = .map entries)
    (hkids : ∀ kid ∈ snap.children, kid.Unlisted) : snap.Unlisted := by
  intro keys node hnode hne
  cases keys with
  | nil =>
    obtain rfl := Option.some.inj hnode
    exact hvalue hne
  | cons key keys =>
    cases hkid : snap.children.find? fun k => k.key = key with
    | none =>
      rw [DataSnapshot.find, hkid] at hnode
      cases hnode
    | some kid =>
      rw [find_cons hkid] at hnode
      exact hkids kid (List.mem_of_find?_eq_some hkid) keys node hnode hne

theorem nowhere_descend (ref : List Bytes) {segments : List Bytes}
    (hsegments : ∀ s ∈ segments, s ≠ [] ∧ slash ∉ s) :
    segments.foldl FfiDataSnapshot.descend (landing ref none) = landing (ref ++ segments) none := by
  induction segments generalizing ref with
  | nil => simp
  | cons segment segments ih =>
    obtain ⟨hne, hslash⟩ := hsegments segment (by simp)
    have hstep : (landing ref none).descend segment = landing (ref ++ [segment]) none := by
      simp only [landing, FfiDataSnapshot.descend, refChild_key _ hne hslash]
      rfl
    rw [List.foldl_cons, hstep, ih _ fun s hs => hsegments s (List.mem_cons_of_mem _ hs)]
    simp

/-- The loop over the segments goes where the SDK does. -/
theorem walk_find {s : FfiDataSnapshot} (h : Stands s snap) (hd : snap.Delivered)
    (hu : snap.Unlisted) {segment : Bytes} {segments : List Bytes}
    (hsegments : ∀ t ∈ segment :: segments, t ≠ [] ∧ slash ∉ t) :
    (segment :: segments).foldl FfiDataSnapshot.descend s =
      landing (s.ref ++ segment :: segments) (snap.find (segment :: segments)) := by
  induction segments generalizing s snap segment with
  | nil =>
    obtain ⟨hne, hslash⟩ := hsegments segment (by simp)
    rw [List.foldl_cons, List.foldl_nil, h.descend hd (hu [] snap rfl) hne hslash, DataSnapshot.find]
    cases snap.children.find? fun kid => kid.key = segment <;> rfl
  | cons next segments ih =>
    obtain ⟨hne, hslash⟩ := hsegments segment (by simp)
    have hrest := fun t ht => hsegments t (List.mem_cons_of_mem _ ht)
    rw [List.foldl_cons, h.descend hd (hu [] snap rfl) hne hslash]
    cases hkid : snap.children.find? fun kid => kid.key = segment with
    | none =>
      rw [nowhere_descend _ hrest, DataSnapshot.find, hkid]
      simp
    | some kid =>
      have hdelivered := (hd.kid (List.mem_of_find?_eq_some hkid)).2
      rw [landing, ih (below_stands _ kid) hdelivered (hu.kid hkid) hrest, find_cons hkid]
      simp [FfiDataSnapshot.below]

theorem standing_stands (ref : List Bytes) {keys : List Bytes} {node : DataSnapshot}
    (hnode : snap.find keys = some node) :
    Stands (standing ref snap keys) node ∧ (standing ref snap keys).ref = ref ++ keys := by
  cases keys with
  | nil =>
    obtain rfl := Option.some.inj hnode
    exact ⟨root_stands ref snap, by simp [standing, FfiDataSnapshot.root]⟩
  | cons key keys =>
    rw [standing, hnode]
    exact ⟨below_stands _ node, rfl⟩

/-- The plugin mirrors a snapshot exactly when no node with children is delivered
as a list. -/
theorem mirrors_iff (toString : Object → Option Bytes) (ref : List Bytes)
    (hd : snap.Delivered) : Mirrors toString ref snap ↔ snap.Unlisted := by
  constructor
  · intro h keys node hnode hne
    obtain ⟨hstands, -⟩ := standing_stands ref hnode
    have hchildren := h.children keys node hnode
    cases hd.find hnode with
    | leaf => exact absurd rfl hne
    | @map _ entries _ _ _ _ _ => exact ⟨entries, rfl⟩
    | @list _ items kids _ _ _ _ =>
      have hlist : asMap (standing ref snap keys).value = none := by
        rw [hstands.value]
        rfl
      rw [children_nil toString hlist] at hchildren
      have hnil := Except.ok.inj hchildren
      exact absurd (List.map_eq_nil_iff.mp hnil.symm) hne
  · intro h
    refine ⟨?_, ?_⟩
    · intro keys node hnode
      obtain ⟨hstands, href⟩ := standing_stands ref hnode
      rw [hstands.children toString (hd.find hnode) (h keys node hnode), href]
    · intro path
      have hsegments := fun s (hs : s ∈ segmentsOf path) => mem_segmentsOf hs
      rw [FfiDataSnapshot.child]
      cases hpath : segmentsOf path with
      | nil => rfl
      | cons segment segments =>
        rw [hpath] at hsegments
        exact walk_find (root_stands ref snap) hd h hsegments

end Walks

def innerMap : Variant := .map [(.string [0x63], .bool true)]

/-- A map in the order of a query, with a map in it. -/
def orderedSnapshot : DataSnapshot :=
  .node [0x72] (.map [(.string [0x61], .bool false), (.string [0x62], innerMap)])
    [.node [0x62] innerMap [.node [0x63] (.bool true) []], .node [0x61] (.bool false) []]

theorem leaf_delivered (key : Bytes) (b : Bool) :
    (DataSnapshot.node key (.bool b) []).Delivered := by
  apply DataSnapshot.Delivered.leaf
  · intro entries h
    cases h
  · intro items h
    cases h

theorem orderedSnapshot_delivered : orderedSnapshot.Delivered := by
  have hinner : (DataSnapshot.node [0x62] innerMap [.node [0x63] (.bool true) []]).Delivered :=
    .map (List.Perm.refl _) (by simp) (by simp [PathKey, DataSnapshot.key, slash])
      (by simp [leaf_delivered])
  exact .map (List.Perm.swap _ _ _) (by simp [DataSnapshot.key])
    (by simp [PathKey, DataSnapshot.key, slash]) (by simp [leaf_delivered, hinner])

theorem leaf_unlisted (key : Bytes) (b : Bool) :
    (DataSnapshot.node key (.bool b) []).Unlisted :=
  .of_kids (fun h => absurd rfl h) fun _ hkid => by cases hkid

theorem orderedSnapshot_unlisted : orderedSnapshot.Unlisted := by
  have hinner : (DataSnapshot.node [0x62] innerMap [.node [0x63] (.bool true) []]).Unlisted := by
    refine .of_kids (fun _ => ⟨_, rfl⟩) ?_
    simp only [DataSnapshot.children, List.forall_mem_singleton]
    exact leaf_unlisted _ _
  refine .of_kids (fun _ => ⟨_, rfl⟩) ?_
  simp only [orderedSnapshot, DataSnapshot.children, List.forall_mem_cons]
  exact ⟨hinner, leaf_unlisted _ _, by simp⟩

theorem orderedSnapshot_mirrors : Mirrors (fun _ => none) [] orderedSnapshot :=
  (mirrors_iff _ [] orderedSnapshot_delivered).mpr orderedSnapshot_unlisted

/-- A node with the one key "0". -/
def listedSnapshot : DataSnapshot :=
  .node [0x72] (.vector [.bool true]) [.node [0x30] (.bool true) []]

theorem listedSnapshot_delivered : listedSnapshot.Delivered :=
  .list (List.Perm.refl _) (by simp) (by simp [PathKey, DataSnapshot.key, slash])
    (by simp [leaf_delivered])

/-- Its child is not among the children. -/
theorem mirrors_broken :
    ¬ ∀ (toString : Object → Option Bytes) ref snap, snap.Delivered → Mirrors toString ref snap := by
  intro h
  have hchildren := (h (fun _ => none) [] _ listedSnapshot_delivered).children [] _ rfl
  cases Except.ok.inj hchildren

end Database
