import FirebaseFfi.Database.QueryDelivery
import FirebaseFfi.Firebase.VariantObject
import FirebaseFfi.Dart.Reads
import FirebaseFfi.Dart.SnapshotBuffer
import FirebaseFfi.Firestore.DartTree

namespace Firebase
open Cbor Dart Tinycbor
open Firestore (maxSize textItem blobItem tooMany int64Of int64Of_toInt int64Of_eq map_entries
  array_items ofNat_toNat IntsWithin within_array within_int within_map)
open Database (EqualTexts setMember_fresh emplace_perm)

mutual
/-- Objects that are the same but for the order of the entries of a map, and for a
double that has become the integer it is equal to. -/
inductive Alike : Object → Object → Prop
  | null : Alike .null .null
  | bool {b} : Alike (.bool b) (.bool b)
  | int {i} : Alike (.int i) (.int i)
  | double {d e} : Ieee.double.datum d.toNat = Ieee.double.datum e.toNat →
      Alike (.double d) (.double e)
  | whole {d} {i : Int64} : (Ieee.double.datum d.toNat).number = .finite i.toInt →
      Alike (.double d) (.int i)
  | string {s} : Alike (.string s) (.string s)
  | uint8List {b} : Alike (.uint8List b) (byteList b)
  | list {xs ys} : AlikeAll xs ys → Alike (.list xs) (.list ys)
  | map {es fs gs} : AlikeEntries es fs → fs.Perm gs → Alike (.map es) (.map gs)

inductive AlikeAll : List Object → List Object → Prop
  | nil : AlikeAll [] []
  | cons {x y xs ys} : Alike x y → AlikeAll xs ys → AlikeAll (x :: xs) (y :: ys)

inductive AlikeEntries : List (Object × Object) → List (Object × Object) → Prop
  | nil : AlikeEntries [] []
  | cons {k x y es fs} : Alike x y → AlikeEntries es fs → AlikeEntries ((k, x) :: es) ((k, y) :: fs)
end

/-- A text that a C string holds whole. -/
structure Whole (s : Bytes) : Prop where
  utf8 : Utf8 s
  nulFree : (0 : UInt8) ∉ s
  length : s.length ≤ maxSize

/-- A value that the Realtime Database has a form for: maps have strings for keys, and
what is counted can be. -/
inductive Sendable : Object → Prop
  | null : Sendable .null
  | bool {b} : Sendable (.bool b)
  | int {i} : Sendable (.int i)
  | double {d} : Sendable (.double d)
  | string {s} : Whole s → Sendable (.string s)
  | uint8List {b} : b.length ≤ maxSize → Sendable (.uint8List b)
  | list {xs} : xs.length < countLimit false → (∀ x ∈ xs, Sendable x) → Sendable (.list xs)
  | map {es : List (Bytes × Object)} : es.length < countLimit true → (es.map Prod.fst).Nodup →
      (∀ e ∈ es, Whole e.1) → (∀ e ∈ es, Sendable e.2) →
      Sendable (.map (es.map fun e => (.string e.1, e.2)))

/-- `Variant::operator<` is an order on the strings without a NUL. -/
structure OrdersTexts (less : Less) : Prop where
  total : ∀ a b : Bytes, (0 : UInt8) ∉ a → (0 : UInt8) ∉ b → a ≠ b →
    less (.string a) (.string b) = true ∨ less (.string b) (.string a) = true
  asymm : ∀ a b : Bytes, less (.string a) (.string b) = true → less (.string b) (.string a) = false
  trans : ∀ a b c : Bytes, less (.string a) (.string b) = true →
    less (.string b) (.string c) = true → less (.string a) (.string c) = true

/-- What a value arrives as: a tree that can be written again, and read, of an
object alike. -/
structure Arrived (less : Less) (v : Object) (w : Variant) : Prop where
  tree : w.Tree less
  nulFree : w.NulFree
  plain : w.Plain
  readable : Readable (itemOf w)
  alike : Alike v w.object

/-- The keys of a map are strings without a NUL. -/
def TextKeys (map : VariantMap) : Prop := ∀ e ∈ map, ∃ s, e.1 = .string s ∧ (0 : UInt8) ∉ s

section Order

variable {less : Less} (hless : OrdersTexts less)

include hless

/-- A new key goes where the order has it. -/
theorem emplace_ascending {map : VariantMap} (h : Ascending less map) (hkeys : TextKeys map)
    (k : Bytes) (v : Variant) :
    Ascending less (emplace less map (.string k) v) := by
  induction map with
  | nil => exact List.pairwise_singleton _ _
  | cons e map ih =>
    obtain ⟨hhead, htail⟩ := List.pairwise_cons.mp h
    obtain ⟨s, hs, -⟩ := hkeys e List.mem_cons_self
    have hmap : TextKeys map := fun d hd => hkeys d (List.mem_cons_of_mem _ hd)
    unfold emplace
    split
    · next hlt =>
      refine List.pairwise_cons.mpr ⟨?_, ih htail hmap⟩
      intro d hd
      rcases emplace_mem hd with hd | rfl
      · exact hhead d hd
      · rw [hs] at hlt ⊢
        exact ⟨hlt, hless.asymm _ _ hlt⟩
    · split
      · next hgt =>
        refine List.pairwise_cons.mpr ⟨?_, h⟩
        intro d hd
        have hgoes : less (.string k) d.1 = true := by
          rcases List.mem_cons.mp hd with rfl | hd
          · exact hgt
          · obtain ⟨t, ht, -⟩ := hmap d hd
            have hlt := (hhead d hd).1
            rw [hs] at hlt hgt
            rw [ht] at hlt ⊢
            exact hless.trans _ _ _ hgt hlt
        obtain ⟨t, ht, -⟩ := hkeys d hd
        rw [ht] at hgoes ⊢
        exact ⟨hgoes, hless.asymm _ _ hgoes⟩
      · exact h

end Order

section Sent

variable {package : CborPackage} {less : Less}

/-- Every item that a value may be encoded as arrives, as long as its integers are
within int64. Only a double that is whole may be written as one that is not. -/
def Arrives (package : CborPackage) (less : Less) (v : Object) : Prop :=
  ∀ c x, Dart.encodeVariantValue package v = .ok c → Emits c x → x.WF → IntsWithin x →
    ∃ w, readVariant less x = .ok w ∧ Arrived less v w

theorem elements_sent {vs : List Object} (ih : ∀ v ∈ vs, Arrives package less v)
    {cs : List Dart.CborValue} (hcs : Dart.encodeVariants package vs = .ok cs) {xs : List Item}
    (hxs : EmitsAll cs xs) (hwf : ∀ x ∈ xs, x.WF) (hin : ∀ x ∈ xs, IntsWithin x) :
    ∃ ws, readVector less xs = .ok ws ∧ List.Forall₂ (Arrived less) vs ws ∧
      xs.length = vs.length := by
  induction vs generalizing cs xs with
  | nil =>
    cases hcs
    cases hxs
    exact ⟨[], rfl, .nil, rfl⟩
  | cons v vs ihvs =>
    obtain ⟨c, hc, hcs⟩ := bind_ok hcs
    obtain ⟨cs', hcs', hcs⟩ := bind_ok hcs
    cases hcs
    cases hxs with
    | @cons _ x _ xs hx hxs =>
      obtain ⟨w, hw, harrived⟩ := ih v List.mem_cons_self c x hc hx (hwf x List.mem_cons_self)
        (hin x List.mem_cons_self)
      obtain ⟨ws, hws, hall, hlen⟩ := ihvs (fun u hu => ih u (List.mem_cons_of_mem _ hu)) hcs' hxs
        (fun y hy => hwf y (List.mem_cons_of_mem _ hy))
        fun y hy => hin y (List.mem_cons_of_mem _ hy)
      refine ⟨w :: ws, ?_, .cons harrived hall, by rw [List.length_cons, hlen, List.length_cons]⟩
      rw [readVector, hw]
      show (readVector less xs >>= _) = _
      rw [hws]
      rfl

/-- An entry and the members it is encoded as. -/
def EncodedEntry (package : CborPackage) (e : Bytes × Object)
    (c : Dart.CborValue × Dart.CborValue) : Prop :=
  c.1 = .string e.1 ∧ Dart.encodeVariantValue package e.2 = .ok c.2

/-- Entries with distinct texts for keys are encoded one by one. -/
theorem texts_encoded (heq : EqualTexts package) {es : List (Bytes × Object)}
    {out ces : List (Dart.CborValue × Dart.CborValue)} (hd : (es.map Prod.fst).Nodup)
    (hout : ∀ d ∈ out, ∃ s, d.1 = .string s ∧ s ∉ es.map Prod.fst)
    (h : encodeVariantMembers package out (es.map fun e => (.string e.1, e.2)) = .ok ces) :
    ∃ ces', ces = out ++ ces' ∧ List.Forall₂ (EncodedEntry package) es ces' := by
  induction es generalizing out with
  | nil =>
    cases h
    exact ⟨[], by simp, .nil⟩
  | cons e es ih =>
    obtain ⟨k, v⟩ := e
    obtain ⟨hk, hd⟩ := List.nodup_cons.mp hd
    obtain ⟨key, hkey, h⟩ := bind_ok h
    cases hkey
    obtain ⟨c, hc, h⟩ := bind_ok h
    have hfresh : setMember package out (.string k) c = out ++ [(.string k, c)] := by
      apply setMember_fresh heq
      intro d hdmem
      obtain ⟨s, hs, hnot⟩ := hout d hdmem
      exact ⟨s, hs, fun heq => hnot (heq ▸ List.mem_cons_self ..)⟩
    rw [hfresh] at h
    have hout' : ∀ d ∈ out ++ [(Dart.CborValue.string k, c)],
        ∃ s, d.1 = .string s ∧ s ∉ es.map Prod.fst := by
      intro d hdmem
      rcases List.mem_append.mp hdmem with hdmem | hdmem
      · obtain ⟨s, hs, hnot⟩ := hout d hdmem
        exact ⟨s, hs, fun hmem => hnot (List.mem_cons_of_mem _ hmem)⟩
      · rw [List.mem_singleton.mp hdmem]
        exact ⟨k, rfl, hk⟩
    obtain ⟨ces', rfl, hall⟩ := ih hd hout' h
    exact ⟨(.string k, c) :: ces', by simp, .cons ⟨rfl, hc⟩ hall⟩

/-- An entry and the one that arrives for it. -/
def ArrivedEntry (less : Less) (e : Bytes × Object) (f : Variant × Variant) : Prop :=
  f.1 = .string e.1 ∧ Arrived less e.2 f.2

theorem entries_sent (hless : OrdersTexts less) {es : List (Bytes × Object)}
    {ces : List (Dart.CborValue × Dart.CborValue)}
    (hes : List.Forall₂ (EncodedEntry package) es ces) (ih : ∀ e ∈ es, Arrives package less e.2)
    {xs : List (Item × Item)} (hxs : EmitsEntries ces xs) (hwf : ∀ x ∈ xs, x.2.WF)
    (hin : ∀ x ∈ xs, IntsWithin x.2) (hd : (es.map Prod.fst).Nodup) (hnul : ∀ e ∈ es, (0 : UInt8) ∉ e.1) {out : VariantMap}
    (hkeys : TextKeys out) (hfresh : ∀ e ∈ es, ∀ f ∈ out, f.1 ≠ .string e.1)
    (hasc : Ascending less out) :
    ∃ fs map, readEntries less out xs = .ok map ∧ List.Forall₂ (ArrivedEntry less) es fs ∧
      map.Perm (fs ++ out) ∧ Ascending less map ∧ xs.length = es.length := by
  induction hes generalizing xs out with
  | nil =>
    cases hxs
    exact ⟨[], out, rfl, .nil, .refl _, hasc, rfl⟩
  | @cons e c es ces hec _ ihes =>
    obtain ⟨k, v⟩ := e
    obtain ⟨kc, c⟩ := c
    obtain ⟨rfl, hc⟩ := hec
    obtain ⟨hk, hkeysd⟩ := List.nodup_cons.mp hd
    have hknul : (0 : UInt8) ∉ k := hnul (k, v) List.mem_cons_self
    cases hxs with
    | @cons _ _ item x _ xs hkey hx hxs =>
      generalize hkc : Dart.CborValue.string k = kc at hkey
      cases hkey with
      | @string s =>
        obtain rfl : k = s.content := Dart.CborValue.string.inj hkc
        obtain ⟨w, hw, harrived⟩ := ih (_, v) List.mem_cons_self c x hc hx
          (hwf _ List.mem_cons_self) (hin _ List.mem_cons_self)
        have hperm : (emplace less out (.string s.content) w).Perm
            ((.string s.content, w) :: out) := by
          apply emplace_perm
          intro f hf
          obtain ⟨t, ht, htnul⟩ := hkeys f hf
          have hne := hfresh (_, v) List.mem_cons_self f hf
          rw [ht] at hne ⊢
          exact hless.total t _ htnul hknul fun heq => hne (heq ▸ rfl)
        have hkeys' : TextKeys (emplace less out (.string s.content) w) := by
          intro f hf
          rcases emplace_mem hf with hf | rfl
          · exact hkeys f hf
          · exact ⟨_, rfl, hknul⟩
        have hfresh' : ∀ e ∈ es, ∀ f ∈ emplace less out (.string s.content) w,
            f.1 ≠ .string e.1 := by
          intro e he f hf
          rcases emplace_mem hf with hf | rfl
          · exact hfresh e (List.mem_cons_of_mem _ he) f hf
          · intro heq
            exact hk (List.mem_map.mpr ⟨e, he, (Variant.string.inj heq).symm⟩)
        obtain ⟨fs, map, hmap, hall, hmapperm, hmapasc, hlen⟩ := ihes
          (fun e he => ih e (List.mem_cons_of_mem _ he)) hxs
          (fun y hy => hwf y (List.mem_cons_of_mem _ hy))
          (fun y hy => hin y (List.mem_cons_of_mem _ hy)) hkeysd
          (fun e he => hnul e (List.mem_cons_of_mem _ he)) hkeys' hfresh'
          (emplace_ascending hless hasc hkeys _ w)
        refine ⟨(.string s.content, w) :: fs, map, ?_, .cons ⟨rfl, harrived⟩ hall, ?_, hmapasc,
          by rw [List.length_cons, hlen, List.length_cons]⟩
        · rw [readEntries]
          show (readVariant less x >>= _) = _
          rw [hw]
          exact hmap
        · exact hmapperm.trans ((hperm.append_left fs).trans List.perm_middle)
      | _ => cases hkc

theorem arrived_mem {vs : List Object} {ws : List Variant} (h : List.Forall₂ (Arrived less) vs ws)
    {w : Variant} (hw : w ∈ ws) : ∃ v, Arrived less v w := by
  induction h with
  | nil => cases hw
  | cons harrived _ ih =>
    rcases List.mem_cons.mp hw with rfl | hw
    · exact ⟨_, harrived⟩
    · exact ih hw

theorem arrived_alike {vs : List Object} {ws : List Variant}
    (h : List.Forall₂ (Arrived less) vs ws) : AlikeAll vs (objects ws) := by
  induction h with
  | nil => exact .nil
  | cons harrived _ ih => exact .cons harrived.alike ih

theorem entries_mem {es : List (Bytes × Object)} {fs : VariantMap}
    (h : List.Forall₂ (ArrivedEntry less) es fs) {f : Variant × Variant} (hf : f ∈ fs) :
    ∃ e ∈ es, ArrivedEntry less e f := by
  induction h with
  | nil => cases hf
  | cons harrived _ ih =>
    rcases List.mem_cons.mp hf with rfl | hf
    · exact ⟨_, List.mem_cons_self, harrived⟩
    · obtain ⟨e, he, harrived⟩ := ih hf
      exact ⟨e, List.mem_cons_of_mem _ he, harrived⟩

theorem entries_alike {es : List (Bytes × Object)} {fs : VariantMap}
    (h : List.Forall₂ (ArrivedEntry less) es fs) :
    AlikeEntries (es.map fun e => (.string e.1, e.2)) (objectEntries fs) := by
  induction h with
  | nil => exact .nil
  | @cons e f es fs harrived _ ih =>
    obtain ⟨k, w⟩ := f
    obtain ⟨rfl, harrived⟩ := harrived
    exact .cons harrived.alike ih

theorem readable_int (i : Int64) : Readable (Firestore.intItem i) := by
  unfold Firestore.intItem
  split <;> exact .int

theorem int_arrived {v : Object} {i : Int64} (h : Alike v (.int i)) : Arrived less v (.int64 i) :=
  ⟨.int64, .int64, .int64, readable_int i, h⟩

theorem double_arrived {v : Object} {d : UInt64} (h : Alike v (.double d)) :
    Arrived less v (.double d) := ⟨.double, .double, .double, .double, h⟩

/-- A float of any width arrives as the double of its datum. -/
theorem float_arrives {w : Width} {f : Ieee.Format} {n : Nat} {d : UInt64} (hn : n < w.limit)
    (hf : floatFormat w = some f) (hd : Ieee.double.datum d.toNat = f.datum n) :
    ∃ v, readPrim w n = .ok v ∧ Arrived less (.double d) v := by
  cases w with
  | two =>
    cases hf
    refine ⟨_, rfl, double_arrived (.double ?_)⟩
    rw [ofNat_toNat (Ieee.widen_lt Ieee.half_narrow _), Ieee.datum_widen Ieee.half_narrow, hd]
  | four =>
    cases hf
    refine ⟨_, rfl, double_arrived (.double ?_)⟩
    rw [ofNat_toNat (Ieee.widen_lt Ieee.single_narrow _), Ieee.datum_widen Ieee.single_narrow, hd]
  | eight =>
    cases hf
    refine ⟨_, rfl, double_arrived (.double ?_)⟩
    rw [ofNat_toNat hn, hd]
  | _ => cases hf

theorem list_arrived {vs : List Object} {ws : List Variant}
    (h : List.Forall₂ (Arrived less) vs ws) (hlen : vs.length < countLimit false) :
    Arrived less (.list vs) (.vector ws) := by
  have hws : ws.length < countLimit false := h.length_eq ▸ hlen
  refine ⟨.vector ?_ ?_, .vector ?_, .vector hws ?_, ?_, .list (arrived_alike h)⟩
  · simp only [countLimit, maxSize, sizeMax] at hws ⊢
    exact Nat.le_of_lt (Nat.lt_trans hws (by decide))
  · intro w hw
    obtain ⟨v, harrived⟩ := arrived_mem h hw
    exact harrived.tree
  · intro w hw
    obtain ⟨v, harrived⟩ := arrived_mem h hw
    exact harrived.nulFree
  · intro w hw
    obtain ⟨v, harrived⟩ := arrived_mem h hw
    exact harrived.plain
  · rw [itemOf, itemsOf_eq_map]
    refine .array ?_
    intro x hx
    obtain ⟨w, hw, rfl⟩ := List.mem_map.mp hx
    obtain ⟨v, harrived⟩ := arrived_mem h hw
    exact harrived.readable

theorem map_arrived {es : List (Bytes × Object)} {fs map : VariantMap}
    (h : List.Forall₂ (ArrivedEntry less) es fs) (hperm : map.Perm fs) (hasc : Ascending less map)
    (hlen : es.length < countLimit true) (hkeys : ∀ e ∈ es, Whole e.1) :
    Arrived less (.map (es.map fun e => (.string e.1, e.2))) (.map map) := by
  have hmap : map.length < countLimit true := by
    rw [hperm.length_eq, ← h.length_eq]
    exact hlen
  have hentry : ∀ f ∈ map, ∃ k, f.1 = .string k ∧ Whole k ∧ ∃ v, Arrived less v f.2 := by
    intro f hf
    obtain ⟨e, he, hkey, harrived⟩ := entries_mem h (hperm.mem_iff.mp hf)
    exact ⟨e.1, hkey, hkeys e he, e.2, harrived⟩
  refine ⟨.map ?_ hasc ?_ ?_, .map ?_ ?_, .map hmap ?_ ?_, ?_, .map (entries_alike h) ?_⟩
  · simp only [countLimit, maxSize, sizeMax] at hmap ⊢
    exact Nat.le_of_lt (Nat.lt_trans hmap (by decide))
  · intro f hf
    obtain ⟨k, hkey, hwhole, -⟩ := hentry f hf
    exact ⟨k, hkey, hwhole.length⟩
  · intro f hf
    obtain ⟨k, -, -, v, harrived⟩ := hentry f hf
    exact harrived.tree
  · intro f hf
    obtain ⟨k, hkey, hwhole, -⟩ := hentry f hf
    rw [hkey]
    exact hwhole.nulFree
  · intro f hf
    obtain ⟨k, -, -, v, harrived⟩ := hentry f hf
    exact harrived.nulFree
  · intro f hf
    obtain ⟨k, hkey, hwhole, -⟩ := hentry f hf
    rw [hkey]
    exact .string hwhole.nulFree
  · intro f hf
    obtain ⟨k, -, -, v, harrived⟩ := hentry f hf
    exact harrived.plain
  · rw [itemOf, entriesOf_eq_map]
    refine .map ?_ ?_
    · intro x hx
      obtain ⟨f, hf, rfl⟩ := List.mem_map.mp hx
      obtain ⟨k, hkey, hwhole, -⟩ := hentry f hf
      rw [hkey, keyItem_string, cString_eq_self.mpr hwhole.nulFree]
      exact .text hwhole.utf8
    · intro x hx
      obtain ⟨f, hf, rfl⟩ := List.mem_map.mp hx
      obtain ⟨k, -, -, v, harrived⟩ := hentry f hf
      exact harrived.readable
  · rw [objectEntries_eq_map, objectEntries_eq_map]
    exact hperm.symm.map _

/-- A value that can be sent arrives, however the package encodes it with integers
within int64. -/
theorem Sendable.arrives (heq : EqualTexts package) (hless : OrdersTexts less) {v : Object}
    (h : Sendable v) : Arrives package less v := by
  induction h with
  | null =>
    rintro c x hc hx - -
    cases hc
    cases hx
    exact ⟨.null, rfl, .null, .null, .null, .null, .null⟩
  | @bool b =>
    rintro c x hc hx - -
    cases hc
    cases hx
    refine ⟨.bool b, ?_, .bool, .bool, .bool, ?_, .bool⟩
    · cases b <;> rfl
    · cases b <;> exact .bool
  | @int i =>
    rintro c x hc hx - -
    cases hc
    generalize hi : Dart.CborValue.int i.toInt = c at hx
    cases hx with
    | int =>
      have hval := int64Of_eq (Dart.CborValue.int.inj hi).symm
      exact ⟨_, rfl, hval.2 ▸ int_arrived .int⟩
    | _ => cases hi
  | @double d =>
    intro c x hc hx hwf hin
    cases hc
    cases hx with
    | @float _ w f n hf hdatum =>
      cases hwf with
      | prim hn _ => exact float_arrives hn hf hdatum
    | @whole _ neg w n hnumber =>
      refine ⟨_, rfl, int_arrived (.whole ?_)⟩
      rw [int64Of_toInt (within_int.mp hin), hnumber]
  | @string s hs =>
    rintro c x hc hx - -
    cases hc
    generalize hc : Dart.CborValue.string s = c at hx
    cases hx with
    | string =>
      obtain rfl := Dart.CborValue.string.inj hc
      refine ⟨_, rfl, .string hs.length, .string hs.nulFree, .string hs.nulFree, ?_, .string⟩
      rw [itemOf, cString_eq_self.mpr hs.nulFree]
      exact .text hs.utf8
    | _ => cases hc
  | @uint8List b hb =>
    rintro c x hc hx - -
    cases hc
    generalize hc : Dart.CborValue.bytes b = c at hx
    cases hx with
    | bytes =>
      obtain rfl := Dart.CborValue.bytes.inj hc
      exact ⟨_, rfl, .blob hb, .blob, .blob, .bytes, .uint8List⟩
    | _ => cases hc
  | @list vs hlen _ ih =>
    intro c x hc hx hwf hin
    obtain ⟨cs, hcs, hc⟩ := bind_ok hc
    cases hc
    cases hx with
    | @list _ len xs hxs =>
      obtain ⟨ws, hws, hall, hxlen⟩ := elements_sent ih hcs hxs (array_items hwf)
        (within_array.mp hin)
      refine ⟨.vector ws, ?_, list_arrived hall hlen⟩
      have hcount : tooMany false len xs.length = false := by
        rw [tooMany, decide_eq_false (by rw [hxlen]; exact Nat.not_le.mpr hlen), Bool.and_false]
      rw [readVariant, hcount, hws]
      rfl
  | @map es hlen hd hkeys _ ih =>
    intro c x hc hx hwf hin
    obtain ⟨ces, hces, hc⟩ := bind_ok hc
    cases hc
    obtain ⟨ces', rfl, hes⟩ := texts_encoded heq hd (by simp) hces
    cases hx with
    | @map _ len xs hxs =>
      obtain ⟨fs, map, hmap, hall, hperm, hasc, hxlen⟩ := entries_sent hless hes ih hxs
        (map_entries hwf).2 (within_map.mp hin) hd (fun e he => (hkeys e he).nulFree) (by simp [TextKeys]) (by simp)
        List.Pairwise.nil
      rw [List.append_nil] at hperm
      refine ⟨.map map, ?_, map_arrived hall hperm hasc hlen hkeys⟩
      have hcount : tooMany true len xs.length = false := by
        rw [tooMany, decide_eq_false (by rw [hxlen]; exact Nat.not_le.mpr hlen), Bool.and_false]
      rw [readVariant, hcount, hmap]
      rfl

end Sent

/-- The package encodes a value as one of the items that it may. -/
def Encodes (package : CborPackage) : Prop :=
  ∀ v c, Sendable v → Dart.encodeVariantValue package v = .ok c →
    ∃ x, Emits c x ∧ x.WF ∧ package.encode c = x.bytes

section Back

variable {package : CborPackage} {less : Less} {v : Object}

theorem Sendable.encodable (h : Sendable v) : Encodable v := by
  induction h with
  | null => exact .null
  | bool => exact .bool
  | int => exact .int
  | double => exact .double
  | string => exact .string
  | uint8List => exact .uint8List
  | list _ _ ih => exact .list ih
  | map _ _ _ _ ih =>
    refine .map ?_ ?_
    · intro e he
      obtain ⟨d, -, rfl⟩ := List.mem_map.mp he
      exact .string
    · intro e he
      obtain ⟨d, hd, rfl⟩ := List.mem_map.mp he
      exact ih d hd

/-- The integers in what a value is encoded as are within int64: a double that is whole
and beyond it is written as a float. -/
def WithinInt64 (package : CborPackage) (v : Object) : Prop :=
  ∀ x : Item, x.WF → Dart.encodeVariant package v = .ok x.bytes → IntsWithin x

/-- What the native side makes of the bytes of a value. -/
theorem Sendable.parsed (heq : EqualTexts package) (henc : Encodes package)
    (hless : OrdersTexts less) (h : Sendable v) (hin : WithinInt64 package v) : ∃ bytes w,
    Dart.encodeVariant package v = .ok bytes ∧ parseVariant less bytes = .ok w ∧
      Arrived less v w := by
  obtain ⟨c, hc⟩ := (encodeVariantValue_ok v).mpr h.encodable
  obtain ⟨x, hx, hwf, hbytes⟩ := henc v c h hc
  have hencoded : Dart.encodeVariant package v = .ok x.bytes := by
    rw [Dart.encodeVariant, hc, ← hbytes]
    rfl
  obtain ⟨w, hw, harrived⟩ := h.arrives heq hless c x hc hx hwf (hin x hwf hencoded)
  exact ⟨x.bytes, w, hencoded, (parseVariant_item less hwf).mpr hw, harrived⟩

/-- A value that was written, and is reported as it was written, is read as an
object that is alike. -/
theorem written_reads_back (hp : package.Reads) (heq : EqualTexts package)
    (henc : Encodes package) (hless : OrdersTexts less) (h : Sendable v)
    (hin : WithinInt64 package v) :
    ∃ bytes w payload, Dart.encodeVariant package v = .ok bytes ∧
      parseVariant less bytes = .ok w ∧ serializeVariant w = some payload ∧
      (payload.length < 2 ^ 32 → ∀ postedNs seq order, order.length < 2 ^ 32 →
        ∃ o, decodeSnapshotValue package (postSnapshot postedNs seq payload order) = .ok o ∧
          Alike v o) := by
  obtain ⟨bytes, w, hbytes, hw, harrived⟩ := h.parsed heq henc hless hin
  refine ⟨bytes, w, (itemOf w).bytes, hbytes, hw, harrived.tree.serialized, ?_⟩
  intro hlen postedNs seq order ho
  have hne : (itemOf w).bytes ≠ [] := List.length_pos_iff.mp harrived.tree.item_wf.length_pos
  have hback := postSnapshot_readBack postedNs seq (.inl hne) hlen ho
  refine ⟨w.object, ?_, harrived.alike⟩
  rw [hback.decodesValue, if_neg hne, decodedValue,
    hp.reads _ _ harrived.tree.item_wf harrived.readable harrived.tree.shows,
    harrived.tree.shown_eq.mpr harrived.nulFree]

end Back

mutual
/-- The item that a value is encoded as by the shortest heads. -/
def shortestItem : Dart.CborValue → Item
  | .bool b => .bool b
  | .int i => Firestore.intItem (Int64.ofInt i)
  | .float d => Firestore.doubleItem d
  | .string s => textItem s
  | .bytes b => blobItem b
  | .list cs => Firestore.arrayItem (shortestItems cs)
  | .map ces => Firestore.mapItem (shortestEntries ces)
  | .tagged t c => Firestore.tagItem t (shortestItem c)
  | _ => .null

def shortestItems : List Dart.CborValue → List Item
  | [] => []
  | c :: cs => shortestItem c :: shortestItems cs

def shortestEntries : List (Dart.CborValue × Dart.CborValue) → List (Item × Item)
  | [] => []
  | (k, c) :: ces => (shortestItem k, shortestItem c) :: shortestEntries ces
end

/-- A package that decodes whole items, and encodes by the shortest heads. -/
noncomputable def shortestPackage : CborPackage :=
  { itemPackage with
    encode := fun c => (shortestItem c).bytes
    equal := fun a b =>
      match a, b with
      | .string s, .string t => decide (s = t)
      | _, _ => false }

theorem shortestPackage_reads : shortestPackage.Reads := ⟨itemPackage_reads.reads⟩

theorem shortestPackage_equal : EqualTexts shortestPackage := fun _ _ => rfl

/-- A value, with an item that the package emits for it. -/
def Emitted (v : Object) : Prop :=
  ∀ c, Dart.encodeVariantValue shortestPackage v = .ok c →
    Emits c (shortestItem c) ∧ (shortestItem c).WF

theorem emits_text (s : Bytes) : Emits (.string s) (textItem s) :=
  @Emits.string (.plain (.shortest s.length) s)

theorem emits_blob (b : Bytes) : Emits (.bytes b) (blobItem b) :=
  @Emits.bytes (.plain (.shortest b.length) b)

theorem emits_int (i : Int64) : Emits (.int i.toInt) (Firestore.intItem i) := by
  have hvalue := Firestore.intItem_value i
  unfold Firestore.intItem at hvalue ⊢
  split at hvalue <;>
  · rw [cborDecode] at hvalue
    rw [← hvalue]
    first
    | rw [if_pos ‹_›]
      exact .int
    | rw [if_neg ‹_›]
      exact .int

theorem list_emitted {vs : List Object} (ih : ∀ v ∈ vs, Emitted v) {cs : List Dart.CborValue}
    (hcs : Dart.encodeVariants shortestPackage vs = .ok cs) :
    EmitsAll cs (shortestItems cs) ∧ (∀ x ∈ shortestItems cs, x.WF) ∧
      (shortestItems cs).length = vs.length := by
  induction vs generalizing cs with
  | nil =>
    cases hcs
    exact ⟨.nil, by simp [shortestItems], rfl⟩
  | cons v vs ihvs =>
    obtain ⟨c, hc, hcs⟩ := bind_ok hcs
    obtain ⟨cs', hcs', hcs⟩ := bind_ok hcs
    cases hcs
    obtain ⟨hx, hwf⟩ := ih v List.mem_cons_self c hc
    obtain ⟨hxs, hwfs, hlen⟩ := ihvs (fun u hu => ih u (List.mem_cons_of_mem _ hu)) hcs'
    refine ⟨.cons hx hxs, ?_, by rw [shortestItems, List.length_cons, hlen, List.length_cons]⟩
    intro x hmem
    rcases List.mem_cons.mp hmem with rfl | hmem
    · exact hwf
    · exact hwfs x hmem

theorem map_emitted {es : List (Bytes × Object)} {ces : List (Dart.CborValue × Dart.CborValue)}
    (hes : List.Forall₂ (EncodedEntry shortestPackage) es ces)
    (hkeys : ∀ e ∈ es, e.1.length ≤ maxSize) (ih : ∀ e ∈ es, Emitted e.2) :
    EmitsEntries ces (shortestEntries ces) ∧ (∀ x ∈ shortestEntries ces, x.1.WF) ∧
      (∀ x ∈ shortestEntries ces, x.2.WF) ∧ (shortestEntries ces).length = es.length := by
  induction hes with
  | nil => exact ⟨.nil, by simp [shortestEntries], by simp [shortestEntries], rfl⟩
  | @cons e c es ces hec _ ihes =>
    obtain ⟨kc, c⟩ := c
    obtain ⟨rfl, hc⟩ := hec
    obtain ⟨hx, hwf⟩ := ih e List.mem_cons_self c hc
    obtain ⟨hxs, hkwfs, hwfs, hlen⟩ := ihes (fun d hd => hkeys d (List.mem_cons_of_mem _ hd))
      fun d hd => ih d (List.mem_cons_of_mem _ hd)
    refine ⟨.cons (emits_text e.1) hx hxs, ?_, ?_,
      by rw [shortestEntries, List.length_cons, hlen, List.length_cons]⟩
    · intro x hmem
      rcases List.mem_cons.mp hmem with rfl | hmem
      · exact Firestore.textItem_wf (hkeys e List.mem_cons_self)
      · exact hkwfs x hmem
    · intro x hmem
      rcases List.mem_cons.mp hmem with rfl | hmem
      · exact hwf
      · exact hwfs x hmem

theorem count_le {isMap : Bool} {n : Nat} (h : n < countLimit isMap) : n ≤ maxSize := by
  have hle : countLimit isMap ≤ maxSize := by cases isMap <;> decide
  omega

theorem Sendable.emitted {v : Object} (h : Sendable v) : Emitted v := by
  induction h with
  | null =>
    intro c hc
    cases hc
    exact ⟨.null, Firestore.simple_wf (by decide)⟩
  | @bool b =>
    intro c hc
    cases hc
    exact ⟨.bool, by cases b <;> exact Firestore.simple_wf (by decide)⟩
  | @int i =>
    intro c hc
    cases hc
    rw [shortestItem, Int64.ofInt_toInt]
    exact ⟨emits_int i, Firestore.intItem_wf i⟩
  | @double d =>
    intro c hc
    cases hc
    exact ⟨.float rfl rfl, Firestore.doubleItem_wf d⟩
  | @string s hs =>
    intro c hc
    cases hc
    exact ⟨emits_text s, Firestore.textItem_wf hs.length⟩
  | @uint8List b hb =>
    intro c hc
    cases hc
    exact ⟨emits_blob b, Firestore.blobItem_wf hb⟩
  | @list vs hlen _ ih =>
    intro c hc
    obtain ⟨cs, hcs, hc⟩ := bind_ok hc
    cases hc
    obtain ⟨hxs, hwf, hxlen⟩ := list_emitted ih hcs
    exact ⟨.list hxs, Firestore.arrayItem_wf (hxlen ▸ count_le hlen) hwf⟩
  | @map es hlen hd hkeys _ ih =>
    intro c hc
    obtain ⟨ces, hces, hc⟩ := bind_ok hc
    cases hc
    obtain ⟨ces', rfl, hes⟩ := texts_encoded shortestPackage_equal hd (by simp) hces
    obtain ⟨hxs, hkwf, hwf, hxlen⟩ := map_emitted hes (fun e he => (hkeys e he).length) ih
    exact ⟨.map hxs, Firestore.mapItem_wf (hxlen ▸ count_le hlen) hkwf hwf⟩

theorem shortestPackage_encodes : Encodes shortestPackage := by
  intro v c hv hc
  obtain ⟨hx, hwf⟩ := hv.emitted c hc
  exact ⟨_, hx, hwf, rfl⟩

theorem byBytes_iff {a b : Bytes} : byBytes (.string a) (.string b) = true ↔ a < b :=
  decide_eq_true_iff

theorem byBytes_orders : OrdersTexts byBytes := by
  refine ⟨?_, ?_, ?_⟩
  · intro a b _ _ hne
    by_cases h : a < b
    · exact .inl (byBytes_iff.mpr h)
    · exact .inr (byBytes_iff.mpr (Std.lt_of_le_of_ne h hne.symm))
  · intro a b h
    exact decide_eq_false (List.lt_asymm (byBytes_iff.mp h))
  · intro a b c h h'
    exact byBytes_iff.mpr (List.lt_trans (byBytes_iff.mp h) (byBytes_iff.mp h'))

theorem intItem_within (i : Int64) : IntsWithin (Firestore.intItem i) := by
  have hlo := i.le_toInt
  have hhi := i.toInt_lt
  unfold Firestore.intItem
  split
  · exact .int (by omega)
  · exact .int (by omega)

mutual
/-- A double is never written as an integer. -/
theorem shortestItem_within (c : Dart.CborValue) : IntsWithin (shortestItem c) := by
  cases c with
  | bool b => cases b <;> exact .prim
  | int i => exact intItem_within _
  | list cs => exact .array (shortestItems_within cs)
  | map ces => exact .map (shortestEntries_within ces)
  | tagged t c => exact .tag (shortestItem_within c)
  | string | bytes => exact .str
  | _ => exact .prim

theorem shortestItems_within (cs : List Dart.CborValue) :
    ∀ x ∈ shortestItems cs, IntsWithin x := by
  cases cs with
  | nil => simp [shortestItems]
  | cons c cs =>
    rw [shortestItems, List.forall_mem_cons]
    exact ⟨shortestItem_within c, shortestItems_within cs⟩

theorem shortestEntries_within (ces : List (Dart.CborValue × Dart.CborValue)) :
    ∀ x ∈ shortestEntries ces, IntsWithin x.2 := by
  cases ces with
  | nil => simp [shortestEntries]
  | cons e ces =>
    obtain ⟨k, c⟩ := e
    rw [shortestEntries, List.forall_mem_cons]
    exact ⟨shortestItem_within c, shortestEntries_within ces⟩
end

theorem shortestPackage_within {v : Object} (h : Sendable v) :
    WithinInt64 shortestPackage v := by
  intro x hx hencoded
  obtain ⟨c, hc⟩ := (@encodeVariantValue_ok shortestPackage v).mpr h.encodable
  have hbytes : (shortestItem c).bytes = x.bytes := by
    rw [Dart.encodeVariant, hc] at hencoded
    exact Except.ok.inj hencoded
  obtain ⟨rfl, -⟩ := (h.emitted c hc).2.unique hx (congrArg (· ++ []) hbytes)
  exact shortestItem_within c

/-- 2 ^ 63, which is whole but no int64. -/
def beyondInt64 : UInt64 := 0x43E0000000000000

/-- A map of a list and a double. -/
def sampleObject : Object :=
  .map [(.string [0x62], .list [.bool true, .null]), (.string [0x61], .double beyondInt64)]

theorem sampleObject_sendable : Sendable sampleObject := by
  have hkeys : ∀ e ∈ [(([0x62] : Bytes), Object.list [.bool true, .null]),
      ([0x61], .double beyondInt64)], Whole e.1 ∧ Sendable e.2 := by
    simp only [List.forall_mem_cons]
    refine ⟨⟨⟨⟨"b", rfl⟩, by decide, by decide⟩, .list (by decide) ?_⟩,
      ⟨⟨⟨"a", rfl⟩, by decide, by decide⟩, .double⟩, by simp⟩
    simp only [List.forall_mem_cons]
    exact ⟨.bool, .null, by simp⟩
  exact @Sendable.map [([0x62], .list [.bool true, .null]), ([0x61], .double beyondInt64)]
    (by decide) (by decide) (fun e he => (hkeys e he).1) fun e he => (hkeys e he).2

theorem sampleObject_reads_back : ∃ bytes w payload,
    Dart.encodeVariant shortestPackage sampleObject = .ok bytes ∧
      parseVariant byBytes bytes = .ok w ∧ serializeVariant w = some payload ∧
      (payload.length < 2 ^ 32 → ∀ postedNs seq order, order.length < 2 ^ 32 →
        ∃ o, decodeSnapshotValue shortestPackage (postSnapshot postedNs seq payload order) = .ok o ∧
          Alike sampleObject o) :=
  written_reads_back shortestPackage_reads shortestPackage_equal shortestPackage_encodes
    byBytes_orders sampleObject_sendable (shortestPackage_within sampleObject_sendable)

end Firebase
