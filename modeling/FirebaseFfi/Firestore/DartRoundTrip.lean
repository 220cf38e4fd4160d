import FirebaseFfi.Dart.Reads
import FirebaseFfi.Firestore.DartReads
import FirebaseFfi.Firestore.Legible

namespace Firestore
open Cbor Tinycbor Dart

/-- The same value with the entries of its maps in any order, as iterating
over an unordered_map may yield them. -/
inductive Reordered : FieldValue → FieldValue → Prop
  | refl {v} : Reordered v v
  | array {vs ws : List FieldValue} : vs.length = ws.length →
      (∀ (i : Nat) (v w : FieldValue), vs[i]? = some v → ws[i]? = some w → Reordered v w) →
      Reordered (.array vs) (.array ws)
  | map {m n : MapFieldValue} : (n.map Prod.fst).Nodup →
      (∀ k, k ∈ m.map Prod.fst ↔ k ∈ n.map Prod.fst) →
      (∀ k v w, (k, v) ∈ m → (k, w) ∈ n → Reordered v w) → Reordered (.map m) (.map n)

theorem mem_toMembers {m : MapFieldValue} {k o : Object} :
    (k, o) ∈ toMembers m ↔ ∃ s v, (s, v) ∈ m ∧ k = .string s ∧ o = toDart v := by
  rw [toMembers_eq_map, List.mem_map]
  constructor
  · rintro ⟨⟨s, v⟩, hmem, heq⟩
    cases heq
    exact ⟨s, v, hmem, rfl, rfl⟩
  · rintro ⟨s, v, hmem, rfl, rfl⟩
    exact ⟨(s, v), hmem, rfl⟩

theorem toMembers_keys (m : MapFieldValue) :
    (toMembers m).map Prod.fst = (m.map Prod.fst).map Object.string := by
  rw [toMembers_eq_map, List.map_map, List.map_map]
  rfl

theorem toMembers_nodup {m : MapFieldValue} :
    ((toMembers m).map Prod.fst).Nodup ↔ (m.map Prod.fst).Nodup := by
  rw [toMembers_keys]
  exact List.nodup_map_iff fun a b h => by cases h; rfl

/-- Reordering keeps the tree. -/
theorem SameTree.reordered {v v' : FieldValue} (hr : Reordered v v') {d : Object}
    (h : SameTree d (toDart v)) : SameTree d (toDart v') := by
  induction hr generalizing d with
  | refl => exact h
  | @array vs ws hl _ ih =>
    generalize ho : toDart (.array vs) = o at h
    cases h with
    | number _ hy => cases ho; cases hy
    | @list xs ys hlen hall =>
      cases ho
      rw [toDarts_eq_map] at hlen hall
      refine .list (by simpa [toDarts_eq_map] using hlen.trans (by simpa using hl)) ?_
      intro i x y hx hy
      rw [toDarts_eq_map, List.getElem?_map] at hy
      obtain ⟨w, hw, rfl⟩ := Option.map_eq_some_iff.mp hy
      have hi : i < vs.length := by
        rw [hl]
        exact (List.getElem?_eq_some_iff.mp hw).1
      have hv : vs[i]? = some vs[i] := List.getElem?_eq_getElem hi
      refine ih i vs[i] w hv hw (hall i x (toDart vs[i]) hx ?_)
      rw [List.getElem?_map, hv]
      rfl
    | _ => cases ho
  | @map m n hd hk _ ih =>
    generalize ho : toDart (.map m) = o at h
    cases h with
    | number _ hy => cases ho; cases hy
    | @map es _ hdm hdn hkeys hall =>
      cases ho
      refine .map hdm (toMembers_nodup.mpr hd) (fun k => ?_) fun k x y hx hy => ?_
      · rw [hkeys k, toMembers_keys, toMembers_keys, List.mem_map, List.mem_map]
        simp only [hk]
      · obtain ⟨s, w, hw, rfl, rfl⟩ := mem_toMembers.mp hy
        have hs : s ∈ m.map Prod.fst := (hk s).mpr (List.mem_map_of_mem (f := Prod.fst) hw)
        obtain ⟨⟨s', v⟩, hv, rfl⟩ := List.mem_map.mp hs
        exact ih s' v w hv hw (hall _ x (toDart v) hx (mem_toMembers.mpr ⟨s', v, hv, rfl, rfl⟩))
    | _ => cases ho

theorem plain_of_number {v : FieldValue} {q : Ieee.Number} (h : numberOf (toDart v) = some q) :
    v.Plain fun _ => true := by
  cases v with
  | integer => exact .integer
  | double => exact .double
  | _ => cases h

/-- The native value equal to a tree without sentinels is plain. -/
theorem Tree.plain {d : Object} (h : Tree false d) {v : FieldValue}
    (hs : SameTree d (toDart v)) : v.Plain fun _ => true := by
  induction h generalizing v with
  | @list xs _ ih =>
    generalize ho : toDart v = o at hs
    cases hs with
    | number hx _ => cases hx
    | @list _ ys hl hall =>
      cases v with
      | array vs =>
        cases ho
        rw [toDarts_eq_map] at hl hall
        refine .array fun w hw => ?_
        obtain ⟨i, hi, rfl⟩ := List.getElem_of_mem hw
        rw [List.length_map] at hl
        have hx : xs[i]? = some xs[i] := List.getElem?_eq_getElem (by omega)
        refine ih xs[i] (List.getElem_mem _) (hall i _ _ hx ?_)
        rw [List.getElem?_map, List.getElem?_eq_getElem hi]
        rfl
      | _ => cases ho
  | @map m _ _ _ ih =>
    generalize ho : toDart v = o at hs
    cases hs with
    | number hx _ => cases hx
    | map _ hd hkeys hall =>
      cases v with
      | map n =>
        cases ho
        refine .map (toMembers_nodup.mp hd) fun e he => ?_
        have hmem : (.string e.1, toDart e.2) ∈ toMembers n :=
          mem_toMembers.mpr ⟨e.1, e.2, he, rfl, rfl⟩
        have hkey := (hkeys _).mpr (List.mem_map_of_mem (f := Prod.fst) hmem)
        obtain ⟨⟨k, x⟩, hx, hk⟩ := List.mem_map.mp hkey
        refine ih (k, x) hx (hall k x _ hx ?_)
        rw [show k = Object.string e.1 from hk]
        exact hmem
      | _ => cases ho
  | delete hf => cases hf
  | serverTimestamp hf => cases hf
  | arrayUnion hf => cases hf
  | arrayRemove hf => cases hf
  | incrementInt hf => cases hf
  | incrementDouble hf => cases hf
  | int =>
    cases hs with
    | number _ hy => exact plain_of_number hy
  | double =>
    cases hs with
    | number _ hy => exact plain_of_number hy
  | timestamp =>
    generalize ho : toDart v = o at hs
    cases hs with
    | number hx _ => cases hx
    | timestamp =>
      cases v with
      | timestamp => exact .timestamp
      | _ => cases ho
  | _ =>
    generalize ho : toDart v = o at hs
    cases hs with
    | number hx _ => cases hx
    | _ =>
      cases v <;> cases ho
      constructor <;> rfl

section Returned

variable (package : CborPackage)

/-- The item is decoded as this object. -/
def DecodedAs (x : Item) (o : Object) : Prop := decodeFirestoreValue package (cborDecode x) = .ok o

theorem doubleItem_value (d : UInt64) : cborDecode (doubleItem d) = .float d := by
  simp [doubleItem, cborDecode, primValue, floatFormat]

theorem textItem_value (s : Bytes) : cborDecode (textItem s) = .string s := by
  simp [textItem, cborDecode, Str.content]

variable {package}

theorem listObject_tagged (h : GivesObjects package) {t : Nat} (ht : t = tagTimestamp ∨ t = tagGeoPoint)
    {cs : List Dart.CborValue} {os : List Object} (hos : ShowsAll cs os) :
    listObject package (.tagged t (.list cs)) = .ok os := by
  simp only [listObject, Dart.CborValue.untagged, h.tagged t cs os ht hos, ok_bind]

theorem keyText_string (h : GivesObjects package) (s : Bytes) :
    keyText package (.string s) = .ok s := by
  rw [keyText, h.shown _ _ .string]
  rfl

theorem decode_shown (h : GivesObjects package) {c : Dart.CborValue} {o : Object} (hleaf : Leaf c)
    (hshows : Shows c o) : decodeFirestoreValue package c = .ok o := by
  have hfirst : c.firstTag = none := by cases hleaf <;> rfl
  have hplain : Plain c := by
    intro t ht
    rw [hfirst] at ht
    cases ht
  rw [decode_leaf hplain (by rwa [untagged_self hfirst])]
  exact h.shown _ _ hshows

theorem timestamp_shown (h : GivesObjects package) (s n : Int64) :
    decodeFirestoreValue package (.tagged tagTimestamp (.list [.int s.toInt, .int n.toInt])) =
      .ok (.timestamp s n) := by
  rw [decode_timestamp rfl, timestampFrom,
    listObject_tagged h (.inl rfl) (.cons .int (.cons .int .nil))]
  rfl

theorem geoPoint_shown (h : GivesObjects package) (a b : UInt64) :
    decodeFirestoreValue package (.tagged tagGeoPoint (.list [.float a, .float b])) =
      .ok (.geoPoint a b) := by
  rw [decode_geoPoint rfl, geoPointFrom,
    listObject_tagged h (.inr rfl) (.cons .float (.cons .float .nil))]
  rfl

theorem array_decoded {len : Option Width} {xs : List Item} {os : List Object}
    (h : List.Forall₂ (DecodedAs package) xs os) : DecodedAs package (.array len xs) (.list os) := by
  have hall : decodeElements package (decodeAll xs) = .ok os := by
    induction h with
    | nil => rfl
    | cons hx _ ih =>
      rw [DecodedAs, decodeFirestoreValue] at hx
      rw [decodeAll, decodeElements, hx, ih]
      rfl
  rw [DecodedAs, cborDecode, decodeFirestoreValue, decodeValueAt_list, hall]
  rfl

theorem members_decoded (hobjects : GivesObjects package) {m : MapFieldValue}
    (out : List (Bytes × Object)) (hd : ((out.map Prod.fst) ++ m.map Prod.fst).Nodup)
    (h : ∀ e ∈ m, DecodedAs package (itemOf e.2) (toDart e.2)) :
    decodeMembers package out (decodeEntries (entriesOf m)) =
      .ok (out ++ m.map fun e => (e.1, toDart e.2)) := by
  induction m generalizing out with
  | nil => simp [entriesOf, decodeEntries, decodeMembers]
  | cons e m ih =>
    obtain ⟨k, v⟩ := e
    have hdec := h (k, v) (by simp)
    have hall := ih (out ++ [(k, toDart v)]) (by simpa using hd)
      fun e he => h e (List.mem_cons_of_mem _ he)
    have hfresh : k ∉ out.map Prod.fst := Assoc.head_new hd
    rw [DecodedAs, decodeFirestoreValue] at hdec
    simp only [entriesOf, decodeEntries, decodeMembers, textItem_value, keyText_string hobjects, hdec]
    show decodeMembers package (setEntry out k (toDart v)) (decodeEntries (entriesOf m)) = _
    rw [setEntry_fresh hfresh, hall]
    simp

/-- What EncodeValue writes for a plain value is decoded as its Dart object. -/
theorem FieldValue.Plain.returned (hobjects : GivesObjects package) {document : Document}
    {v : FieldValue} (h : v.Plain document) : DecodedAs package (itemOf v) (toDart v) := by
  induction h with
  | null => exact decode_shown hobjects .null .null
  | @boolean b => cases b <;> exact decode_shown hobjects .bool .bool
  | @integer i =>
    rw [DecodedAs, itemOf, intItem_value]
    exact decode_shown hobjects .int .int
  | @double d =>
    rw [DecodedAs, itemOf, doubleItem_value]
    exact decode_shown hobjects .float .float
  | string =>
    rw [DecodedAs, itemOf, textItem_value]
    exact decode_shown hobjects .string .string
  | blob => rfl
  | @timestamp s n =>
    have hvalue : cborDecode (itemOf (.timestamp s n)) =
        .tagged tagTimestamp (.list [.int s.toInt, .int n.toInt64.toInt]) := by
      simp [itemOf, tagItem, arrayItem, cborDecode, decodeAll, intItem_value]
    rw [DecodedAs, hvalue]
    exact timestamp_shown hobjects s n.toInt64
  | @geoPoint a b =>
    have hvalue : cborDecode (itemOf (.geoPoint a b)) =
        .tagged tagGeoPoint (.list [.float a, .float b]) := by
      simp [itemOf, tagItem, arrayItem, cborDecode, decodeAll, doubleItem_value]
    rw [DecodedAs, hvalue]
    exact geoPoint_shown hobjects a b
  | @reference p _ =>
    have hvalue : cborDecode (itemOf (.reference p)) = .tagged tagReference (.string p) := by
      simp [itemOf, tagItem, cborDecode, textItem_value]
    rw [DecodedAs, hvalue, decode_reference rfl]
    rfl
  | @array xs _ ih =>
    rw [itemOf, arrayItem, toDart, itemsOf_eq_map, toDarts_eq_map]
    apply array_decoded
    rw [List.forall₂_map_left_iff, List.forall₂_map_right_iff]
    exact List.forall₂_same.mpr ih
  | @map m hd _ ih =>
    have hall := members_decoded hobjects [] (by simpa using hd) ih
    rw [DecodedAs, itemOf, mapItem, cborDecode, decodeFirestoreValue, decodeValueAt_map, hall,
      toDart, toMembers_eq_map]
    simp

end Returned

section Refused

variable {toString : Object → Option Bytes} (package : CborPackage)

/-- The item is decoded only when the tree has no sentinel. -/
def RefusedIn (d : Object) (x : Item) : Prop :=
  ∀ o, decodeFirestoreValue package (cborDecode x) = .ok o → Tree false d

theorem elements_refused {ds : List Object} {cs : List Dart.CborValue} {xs : List Item}
    (he : encodeElements toString ds = .ok cs) (hx : EmitsAll cs xs)
    (ih : ∀ d ∈ ds, ∀ c x, encodeFirestoreValue toString d = .ok c → Emits c x →
      RefusedIn package d x) {os : List Object}
    (h : decodeElements package (decodeAll xs) = .ok os) : ∀ d ∈ ds, Tree false d := by
  induction ds generalizing cs xs os with
  | nil => simp
  | cons d ds ihds =>
    obtain ⟨c, hc, he⟩ := bind_ok he
    obtain ⟨cs, hcs, he⟩ := bind_ok he
    cases he
    cases hx with
    | cons hx hxs =>
      obtain ⟨o, ho, h⟩ := bind_ok h
      obtain ⟨os', hos', _⟩ := bind_ok h
      refine List.forall_mem_cons.mpr ⟨ih d (by simp) c _ hc hx o ho, ?_⟩
      exact ihds hcs hxs (fun d hd => ih d (List.mem_cons_of_mem _ hd)) hos'

theorem members_refused {es : List (Object × Object)} {ces : List (Bytes × Dart.CborValue)}
    {xs : List (Item × Item)} (he : List.Forall₂ (fun e c =>
      e.1 = .string c.1 ∧ encodeFirestoreValue toString e.2 = .ok c.2) es ces)
    (hx : EmitsEntries (textKeyed ces) xs)
    (ih : ∀ e ∈ es, ∀ c x, encodeFirestoreValue toString e.2 = .ok c → Emits c x →
      RefusedIn package e.2 x) {out m : List (Bytes × Object)}
    (h : decodeMembers package out (decodeEntries xs) = .ok m) : ∀ e ∈ es, Tree false e.2 := by
  induction he generalizing xs out with
  | nil => simp
  | @cons e c es ces hec _ ihes =>
    obtain ⟨k, c⟩ := c
    cases hx with
    | @cons _ _ item x _ xs hkey hx hxs =>
      have hitem : cborDecode item = .string k := by
        generalize hk : Dart.CborValue.string k = kc at hkey
        cases hkey with
        | string => rw [cborDecode]
        | _ => cases hk
      simp only [decodeEntries, decodeMembers, hitem] at h
      obtain ⟨_, -, h⟩ := bind_ok h
      obtain ⟨o, ho, h⟩ := bind_ok h
      refine List.forall_mem_cons.mpr ⟨ih e (by simp) c x hec.2 hx o ho, ?_⟩
      exact ihes hxs (fun e he => ih e (List.mem_cons_of_mem _ he)) h

/-- The Dart decoder refuses the encoding of every tree that has a sentinel. -/
theorem Tree.refused {d : Object} (h : Tree true d) :
    ∀ {c : Dart.CborValue} {x : Item}, encodeFirestoreValue toString d = .ok c → Emits c x →
      RefusedIn package d x := by
  induction h with
  | null => exact fun _ _ _ _ => .null
  | bool => exact fun _ _ _ _ => .bool
  | int => exact fun _ _ _ _ => .int
  | double => exact fun _ _ _ _ => .double
  | string => exact fun _ _ _ _ => .string
  | uint8List => exact fun _ _ _ _ => .uint8List
  | timestamp => exact fun _ _ _ _ => .timestamp
  | geoPoint => exact fun _ _ _ _ => .geoPoint
  | reference => exact fun _ _ _ _ => .reference
  | list _ ih =>
    intro c x hc hx o ho
    obtain ⟨cs, hcs, hc⟩ := bind_ok hc
    cases hc
    cases hx with
    | list hx =>
      obtain ⟨os, hos, _⟩ := bind_ok ho
      exact .list (elements_refused package hcs hx (fun d hd c x hc hx => ih d hd hc hx) hos)
  | @map m hd hk _ ih =>
    intro c x hc hx o ho
    obtain ⟨ces, hces, hc⟩ := bind_ok hc
    cases hc
    obtain ⟨ces, rfl, he⟩ := encodeMembers_distinct hk (by simpa [usedKeys] using hd) hces
    cases hx with
    | map hx =>
      obtain ⟨m', hm', _⟩ := bind_ok ho
      exact .map hd hk (members_refused package he hx (fun e he c x hc hx => ih e he hc hx) hm')
  | delete =>
    intro c x hc hx o ho
    cases hc
    cases hx
    cases ho
  | serverTimestamp =>
    intro c x hc hx o ho
    cases hc
    cases hx
    cases ho
  | arrayUnion _ _ _ =>
    intro c x hc hx o ho
    obtain ⟨cs, hcs, hc⟩ := bind_ok hc
    cases hc
    cases hx
    cases ho
  | arrayRemove _ _ _ =>
    intro c x hc hx o ho
    obtain ⟨cs, hcs, hc⟩ := bind_ok hc
    cases hc
    cases hx
    cases ho
  | incrementInt =>
    intro c x hc hx o ho
    cases hc
    cases hx
    cases ho
  | incrementDouble =>
    intro c x hc hx o ho
    cases hc
    cases hx
    cases ho

end Refused

section Encoded

variable (toString : Object → Option Bytes)

theorem elements_encoded {ds : List Object}
    (h : ∀ d ∈ ds, ∃ c, encodeFirestoreValue toString d = .ok c) :
    ∃ cs, encodeElements toString ds = .ok cs := by
  rw [encodeElements_eq_mapM]
  exact Machine.mapM_total.mpr h

theorem members_encoded {es : List (Object × Object)} (hk : ∀ e ∈ es, ∃ s, e.1 = .string s)
    (h : ∀ e ∈ es, ∃ c, encodeFirestoreValue toString e.2 = .ok c)
    (out : List (Bytes × Dart.CborValue)) : ∃ ces, encodeMembers toString out es = .ok ces := by
  induction es generalizing out with
  | nil => exact ⟨out, rfl⟩
  | cons e es ih =>
    obtain ⟨key, d⟩ := e
    obtain ⟨s, rfl⟩ := hk _ (List.mem_cons_self ..)
    obtain ⟨c, hc⟩ := h _ (List.mem_cons_self ..)
    obtain ⟨ces, hces⟩ := ih (fun e he => hk e (List.mem_cons_of_mem _ he))
      (fun e he => h e (List.mem_cons_of_mem _ he)) (setEntry out s c)
    refine ⟨ces, ?_⟩
    simp only [encodeMembers, interpolate, hc]
    exact hces

theorem Tree.encoded {sentinels : Bool} {d : Object} (h : Tree sentinels d) :
    ∃ c, encodeFirestoreValue toString d = .ok c := by
  induction h with
  | list _ ih =>
    obtain ⟨cs, hcs⟩ := elements_encoded toString ih
    exact ⟨.list cs, by rw [encodeFirestoreValue, hcs]; rfl⟩
  | map _ hk _ ih =>
    obtain ⟨ces, hces⟩ := members_encoded toString hk ih []
    exact ⟨.map (textKeyed ces), by rw [encodeFirestoreValue, hces]; rfl⟩
  | arrayUnion _ _ ih =>
    obtain ⟨cs, hcs⟩ := elements_encoded toString ih
    exact ⟨.tagged tagArrayUnion (.list cs), by rw [encodeFirestoreValue, hcs]; rfl⟩
  | arrayRemove _ _ ih =>
    obtain ⟨cs, hcs⟩ := elements_encoded toString ih
    exact ⟨.tagged tagArrayRemove (.list cs), by rw [encodeFirestoreValue, hcs]; rfl⟩
  | _ => exact ⟨_, rfl⟩

end Encoded

section CarriedOver

variable (document : Document) (toString : Object → Option Bytes) (package : CborPackage)

/-- EncodeValue writes the value whole into any buffer with room, and what it
writes is decoded as an equal tree. -/
def Returned (d : Object) (v : FieldValue) : Prop :=
  (v.Sized → ∀ cap, (itemOf v).bytes.length ≤ cap → ∃ enc,
    encodeValue v (cborEncoderInit cap) = (true, enc) ∧
      cborEncoderGetBuffer enc = (itemOf v).bytes) ∧
  ∃ o, DecodedAs package (itemOf v) o ∧ SameTree d o

/-- The tree survives being encoded as the item `x`: it is accepted natively as
the value equal to it, comes back from there, and with a sentinel in it is
refused by the Dart decoder. -/
structure CarriedOver (d : Object) (x : Item) : Prop where
  accepted : ∃ v, decodeFirst document x.bytes = .ok v ∧ SameTree d (toDart v) ∧
    (Tree false d → ∀ v', Reordered v v' → Returned package d v')
  refused : ¬ Tree false d → ∃ e, decodeFirestoreValue package (cborDecode x) = .error e

theorem encodeValue_room {v : FieldValue} (h : v.Sized) {cap : Nat}
    (hcap : (itemOf v).bytes.length ≤ cap) : ∃ enc,
      encodeValue v (cborEncoderInit cap) = (true, enc) ∧
        cborEncoderGetBuffer enc = (itemOf v).bytes := by
  refine ⟨_, (encodeValue_writes h).fits _ (by simpa [Fits, cborEncoderInit, valueBytes] using hcap), ?_⟩
  simp [cborEncoderGetBuffer, CborEncoder.put, CborEncoder.spend, cborEncoderInit, valueBytes]

/-- A tree survives exactly when the integers chosen for its doubles are within
int64 and nothing in it is refused. -/
theorem Tree.carriedOver (hobjects : GivesObjects package) {d : Object} (h : Tree true d) {c : Dart.CborValue} {x : Item}
    (hc : encodeFirestoreValue toString d = .ok c) (hx : Emits c x) (hwf : x.WF) :
    CarriedOver document package d x ↔ Taken document x ∧ IntsWithin x := by
  have hcarried : Carried document d x := h.carried hc hx hwf
  have hrun := decodeFirst_reads document [] hwf
  rw [List.append_nil] at hrun
  constructor
  · rintro ⟨⟨v, hv, hsame, _⟩, _⟩
    unfold Carried at hcarried
    cases hr : readItem document x with
    | error e =>
      rw [hr] at hcarried hrun
      cases e with
      | unchecked => cases hcarried
      | fails =>
        obtain ⟨f, hf⟩ := hrun
        cases hv.symm.trans hf
    | ok w =>
      rw [hr] at hcarried hrun
      cases hv.symm.trans hrun
      exact ⟨hcarried.1, hcarried.2.mp hsame⟩
  · rintro ⟨htaken, hwithin⟩
    obtain ⟨v, hv, hiff⟩ := Settles.value hcarried htaken
    rw [hv] at hrun
    have hsame := hiff.mpr hwithin
    refine ⟨⟨v, hrun, hsame, fun hplain v' hre => ⟨fun hs cap => encodeValue_room hs, ?_⟩⟩,
      fun hplain => ?_⟩
    · have hsame' := hsame.reordered hre
      exact ⟨_, (hplain.plain hsame').returned hobjects, hsame'⟩
    · cases ho : decodeFirestoreValue package (cborDecode x) with
      | error e => exact ⟨e, rfl⟩
      | ok o => exact absurd (h.refused package hc hx o ho) hplain

/-- Every tree is encoded, and survives every encoding the package may choose
for it that keeps to int64 and holds nothing the native side refuses. -/
theorem dart_round_trip (hobjects : GivesObjects package) {d : Object} (h : Tree true d) :
    ∃ c, encodeFirestoreValue toString d = .ok c ∧ ∀ x, Emits c x → x.WF →
      (CarriedOver document package d x ↔ Taken document x ∧ IntsWithin x) := by
  obtain ⟨c, hc⟩ := h.encoded toString
  exact ⟨c, hc, fun x hx hwf => h.carriedOver document toString package hobjects hc hx hwf⟩

end CarriedOver

theorem itemPackage_gives : GivesObjects itemPackage := by
  refine ⟨?_, ?_⟩
  · intro c o hshows
    simp only [itemPackage, hshows.objectOf_eq, Option.elim_some]
  · intro t cs os _ hshows
    simp only [itemPackage, objectOf, hshows.objectsOf_eq, Option.map_some, Option.elim_some]

/-- An integer, a double and a timestamp, with the items they may be encoded as. -/
def sampleTree : Object := .list [.int 5, .double 0x3ff0000000000000, .timestamp 7 8]

def sampleItem : Item :=
  .array none [.int false .tiny 5, .prim .eight 0x3ff0000000000000,
    .tag .two tagTimestamp (.array none [.int false .one 7, .int false .tiny 8])]

theorem sampleItem_wf : sampleItem.WF := by
  have hint : ∀ {w n}, n < Width.limit w → (Item.int false w n).WF := fun h => .int h
  refine .array (by simp) fun x hx => ?_
  simp only [List.mem_cons, List.not_mem_nil, or_false] at hx
  rcases hx with rfl | rfl | rfl
  · exact hint (by decide)
  · exact .prim (by decide) (by simp)
  · refine .tag (by decide) (.array (by simp) fun x hx => ?_)
    simp only [List.mem_cons, List.not_mem_nil, or_false] at hx
    rcases hx with rfl | rfl
    · exact hint (by decide)
    · exact hint (by decide)

theorem sampleItem_carried :
    CarriedOver (fun _ => true) itemPackage sampleTree sampleItem := by
  have htree : Tree true sampleTree := by
    refine .list fun x hx => ?_
    simp only [List.mem_cons, List.not_mem_nil, or_false] at hx
    rcases hx with rfl | rfl | rfl
    · exact .int
    · exact .double
    · exact .timestamp (n := 8)
  obtain ⟨c, hc, h⟩ := dart_round_trip (fun _ => true) (fun _ => none) itemPackage itemPackage_gives htree
  cases hc
  refine (h sampleItem ?_ sampleItem_wf).mpr ⟨?_, ?_⟩
  · have hpair : EmitsAll [.int 7, .int 8] [.int false .one 7, .int false .tiny 8] :=
      .cons (@Emits.int false _ _) (.cons (@Emits.int false _ _) .nil)
    exact .list (.cons (@Emits.int false _ _) (.cons (.float rfl rfl)
      (.cons (.tagged (.list hpair)) .nil)))
  · refine .array rfl fun x hx => ?_
    simp only [List.mem_cons, List.not_mem_nil, or_false] at hx
    rcases hx with rfl | rfl | rfl
    · exact .int
    · exact .prim
    · exact taken_tuple (by decide) (by simp) (by simp [Taken.int])
  · refine .array fun x hx => ?_
    simp only [List.mem_cons, List.not_mem_nil, or_false] at hx
    rcases hx with rfl | rfl | rfl
    · exact .int (by simp)
    · exact .prim
    · exact .tag (.array (by simp [within_int]))

/-- 2 ^ 63, the least whole double beyond int64. -/
def twoPow63 : UInt64 := 0x43e0000000000000

theorem twoPow63_number : (Ieee.double.datum twoPow63.toNat).number = .finite ((2 ^ 63 : ℤ) : ℚ) := by
  have hbits : twoPow63.toNat = Ieee.ofInt (2 ^ 63) := by
    have hlog : Nat.log 2 9223372036854775808 = 63 := Nat.log_pow (by decide) 63
    simp [Ieee.ofInt, Ieee.ofDyadic, Ieee.assemble, Ieee.significand, Ieee.roundShift, hlog, twoPow63]
  rw [hbits]
  refine Ieee.number_ofInt (.inr (.inr ?_)) (by decide)
  have hlog : Nat.log 2 (2 ^ 63 : ℤ).natAbs = 63 := Nat.log_pow (by decide) 63
  rw [hlog]
  decide

/-- The package may write it as an integer. -/
theorem twoPow63_emitted : Emits (.float twoPow63) (.int false .eight (2 ^ 63)) := by
  refine .whole ?_
  rw [twoPow63_number]
  rfl

theorem twoPow63_wf : (Item.int false .eight (2 ^ 63)).WF := .int (by simp [Width.limit])

theorem dart_round_trip_broken : Tree false (.double twoPow63) ∧
    ∃ c, encodeFirestoreValue (fun _ => none) (.double twoPow63) = .ok c ∧
      Emits c (.int false .eight (2 ^ 63)) ∧
      ¬ CarriedOver (fun _ => true) itemPackage (.double twoPow63)
        (.int false .eight (2 ^ 63)) := by
  refine ⟨.double, .float twoPow63, rfl, twoPow63_emitted, fun h => ?_⟩
  have hwithin :=
    ((Tree.double.carriedOver _ (fun _ => none) _ itemPackage_gives rfl twoPow63_emitted
      twoPow63_wf).mp h).2
  exact absurd (within_int.mp hwithin) (by simp)

end Firestore
