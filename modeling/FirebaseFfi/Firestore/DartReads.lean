import FirebaseFfi.Firestore.DartTree

namespace Firestore
open Cbor Tinycbor Dart

/-- An integer beyond int64 wraps to the other sign. -/
theorem int64Of_wraps (neg : Bool) {n : Nat} (hlo : 2 ^ 63 ≤ n) (hhi : n < 2 ^ 64) :
    (int64Of neg n).toInt < 0 ↔ neg = false := by
  have hn : (Int64.ofNat n).toInt = n - 2 ^ 64 := by
    have hs : (Int64.size : Int) = 2 ^ 64 := rfl
    rw [Int64.toInt_ofNat', Int.bmod_def, hs]
    omega
  unfold int64Of
  cases neg
  · simp only [Bool.false_eq_true, if_false, iff_true]
    omega
  · have h1 : (1 : Int64).toInt = 1 := by decide
    simp only [if_true, Int64.toInt_sub, Int64.toInt_neg, hn, h1, Int.bmod_def, Bool.true_eq_false,
      iff_false]
    omega

/-- The integer a double is equal to is read as a double equal to it exactly
when it is within int64. -/
theorem sameNumber_int {neg : Bool} {n : Nat} {d : UInt64} (hhi : n < 2 ^ 64)
    (h : (Ieee.double.datum d.toNat).number = .finite (intValue neg n)) :
    SameNumber d (.ofNat (Ieee.ofInt (int64Of neg n).toInt)) ↔ n < 2 ^ 63 := by
  constructor
  · intro hsame
    by_contra hlo
    have hsign := int64Of_wraps neg (Nat.le_of_not_lt hlo) hhi
    have hbound : (int64Of neg n).toInt.natAbs < 2 ^ 64 := by
      have h1 := (int64Of neg n).le_toInt
      have h2 := (int64Of neg n).toInt_lt
      omega
    have hnum := h.symm.trans hsame
    rw [ofNat_toNat (Ieee.ofInt_lt hbound)] at hnum
    have hq := Ieee.number_sign hnum.symm
    rw [Ieee.ofInt_negative hbound] at hq
    cases neg
    · simp only [hsign.mpr rfl, decide_true, if_true, intValue, Bool.false_eq_true, if_false] at hq
      have hle : (n : Int) ≤ 0 := by exact_mod_cast hq
      omega
    · have hpos : ¬ (int64Of true n).toInt < 0 := fun hlt => by simpa using hsign.mp hlt
      simp only [hpos, decide_false, Bool.false_eq_true, if_false, intValue, if_true] at hq
      have hle : (0 : Int) ≤ -1 - n := by exact_mod_cast hq
      omega
  · intro hlo
    exact h.trans (number_int hlo h).symm

section Carried

variable {document : Document} {toString : Object → Option Bytes}

/-- The item is read as a value equal to the object exactly when its integers
are within int64. -/
def Carried (document : Document) (d : Object) (x : Item) : Prop :=
  Settles (Taken document x) (fun v => SameTree d (toDart v) ↔ IntsWithin x) (readItem document x)

theorem emits_int (document : Document) {i : Int64} {x : Item} (h : Emits (.int i.toInt) x) :
    readInt x = .ok i ∧ IntsWithin x ∧ Taken document x := by
  generalize hi : i.toInt = z at h
  cases h
  obtain ⟨hn, hread⟩ := int64Of_eq hi.symm
  exact ⟨by rw [readInt, hread], .int hn, .int⟩

theorem emits_float {d : UInt64} {x : Item} (hx : x.WF) (h : Emits (.float d) x) :
    ∃ d', readDouble x = .ok d' ∧ (SameNumber d d' ↔ IntsWithin x) := by
  cases h with
  | @float _ w f n hf hdatum =>
    obtain ⟨d', hread, hd'⟩ := (DenotesNumber.float hf hdatum).reads hx
    refine ⟨d', hread, iff_of_true ?_ .prim⟩
    cases hd' with
    | float hf' hdatum' =>
      cases hf.symm.trans hf'
      exact congrArg Ieee.Datum.number (hdatum.trans hdatum'.symm)
  | @whole _ neg w n hnum =>
    have hn : n < 2 ^ 64 := by
      cases hx with
      | int hn => exact Nat.lt_of_lt_of_le hn w.limit_le
    exact ⟨_, rfl, by rw [within_int, sameNumber_int hn hnum]⟩

theorem emits_float_taken {d : UInt64} {x : Item} (h : Emits (.float d) x) : Taken document x := by
  cases h with
  | float => exact .prim
  | whole => exact .int

theorem carried_int {i : Int64} {x : Item} (h : Emits (.int i.toInt) x) :
    Carried document (.int i) x := by
  obtain ⟨hread, hwithin, htaken⟩ := emits_int document h
  unfold Carried
  cases x with
  | int neg w n =>
    simp only [readInt, Except.ok.injEq] at hread
    rw [readItem, hread]
    exact ⟨htaken, iff_of_true (.number rfl rfl) hwithin⟩
  | _ => cases hread

theorem carried_double {d : UInt64} {x : Item} (hx : x.WF) (h : Emits (.float d) x) :
    Carried document (.double d) x := by
  unfold Carried
  cases h with
  | @float _ w f n hf hdatum =>
    obtain ⟨d', hread, hsame⟩ := emits_float hx (.float hf hdatum)
    have hprim : readItem document (.prim w n) = .ok (.double d') := by
      have hdouble : readItem document (.prim w n) =
          (do return .double (← readDouble (.prim w n))) := by
        rw [readItem]
        cases w <;> first | rfl | cases hf
      rw [hdouble, hread]
      rfl
    rw [hprim]
    exact ⟨.prim, iff_of_true (.number rfl (congrArg some (hsame.mpr .prim).symm)) .prim⟩
  | @whole _ neg w n hnum =>
    rw [readItem]
    refine ⟨.int, ?_⟩
    rw [within_int]
    constructor
    · intro hs
      cases hs with
      | number hd hi =>
        have heq : Ieee.Number.finite (int64Of neg n).toInt = .finite (intValue neg n) :=
          (Option.some.inj (hi.trans hd.symm)).trans hnum
        have hval : intValue neg n = (int64Of neg n).toInt := by
          simpa using heq.symm
        exact (int64Of_eq hval).1
    · intro hn
      refine .number (congrArg some hnum) ?_
      rw [toDart, numberOf, int64Of_toInt hn]

theorem elements_carried (document : Document) {ds : List Object} {cs : List Dart.CborValue} {xs : List Item}
    (he : encodeElements toString ds = .ok cs) (hx : EmitsAll cs xs) (hwf : ∀ x ∈ xs, x.WF)
    (ih : ∀ d ∈ ds, ∀ c x, encodeFirestoreValue toString d = .ok c → Emits c x → x.WF →
      Carried document d x) :
    Settles (∀ x ∈ xs, Taken document x)
      (fun vs => List.Forall₂ SameTree ds (toDarts vs) ↔ ∀ x ∈ xs, IntsWithin x)
      (readItems document xs) := by
  induction ds generalizing cs xs with
  | nil =>
    cases he
    cases hx
    exact ⟨by simp, by simp [toDarts]⟩
  | cons d ds ihds =>
    obtain ⟨c, hc, he⟩ := bind_ok he
    obtain ⟨cs, hcs, he⟩ := bind_ok he
    cases he
    cases hx with
    | @cons _ x _ xs hx hxs =>
      have hhead := ih d (by simp) c x hc hx (hwf x (by simp))
      have htail := ihds hcs hxs (fun y hy => hwf y (List.mem_cons_of_mem _ hy))
        fun d hd => ih d (List.mem_cons_of_mem _ hd)
      have hrun := hhead.bind fun v hv => htail.map (f := fun vs => v :: vs)
        (Q := fun vs => List.Forall₂ SameTree (d :: ds) (toDarts vs) ↔
          ∀ y ∈ x :: xs, IntsWithin y) fun vs hvs => by
            rw [toDarts, List.forall₂_cons, hv, hvs, List.forall_mem_cons]
      exact hrun.congr (by simp)

theorem setEntry_fresh {α : Type} {m : List (Bytes × α)} {k : Bytes} {v : α}
    (h : k ∉ m.map Prod.fst) : setEntry m k v = m ++ [(k, v)] := by
  have hnone : ¬ m.any (fun e => e.1 = k) = true := by
    simp only [List.any_eq_true, decide_eq_true_eq, not_exists, not_and]
    intro e he hk
    exact h (hk ▸ List.mem_map_of_mem he)
  rw [setEntry, if_neg hnone]

/-- The text keys already used, as the objects they were. -/
def usedKeys {α : Type} (out : List (Bytes × α)) : List Object :=
  out.map fun e => .string e.1

theorem usedKeys_fresh {α : Type} {out : List (Bytes × α)} {k : Bytes} {keys : List Object}
    (h : (usedKeys out ++ .string k :: keys).Nodup) : k ∉ out.map Prod.fst := by
  intro hk
  obtain ⟨e, he, rfl⟩ := List.mem_map.mp hk
  exact Assoc.head_new h (List.mem_map_of_mem (f := fun e => Object.string e.1) he)

theorem usedKeys_append {α : Type} {out : List (Bytes × α)} {k : Bytes} {v : α}
    {keys : List Object} (h : (usedKeys out ++ .string k :: keys).Nodup) :
    (usedKeys (out ++ [(k, v)]) ++ keys).Nodup := by
  simpa [usedKeys] using h

/-- Members with distinct keys are encoded one by one. -/
theorem encodeMembers_distinct {es : List (Object × Object)}
    {out ces : List (Bytes × Dart.CborValue)} (hk : ∀ e ∈ es, ∃ s, e.1 = .string s)
    (hd : (usedKeys out ++ es.map Prod.fst).Nodup) (h : encodeMembers toString out es = .ok ces) :
    ∃ ces', ces = out ++ ces' ∧ List.Forall₂ (fun e c =>
      e.1 = .string c.1 ∧ encodeFirestoreValue toString e.2 = .ok c.2) es ces' := by
  induction es generalizing out with
  | nil =>
    cases h
    exact ⟨[], by simp, .nil⟩
  | cons e es ih =>
    obtain ⟨key, x⟩ := e
    obtain ⟨k, rfl⟩ := hk _ (List.mem_cons_self ..)
    obtain ⟨c, hc, h⟩ := bind_ok h
    rw [setEntry_fresh (usedKeys_fresh hd)] at h
    obtain ⟨ces', rfl, hall⟩ := ih (fun e he => hk e (List.mem_cons_of_mem _ he))
      (usedKeys_append hd) h
    exact ⟨(k, c) :: ces', by simp, .cons ⟨rfl, hc⟩ hall⟩

theorem members_carried (document : Document) {es : List (Object × Object)} {ces : List (Bytes × Dart.CborValue)}
    {xs : List (Item × Item)} (out : MapFieldValue)
    (he : List.Forall₂ (fun e c =>
      e.1 = .string c.1 ∧ encodeFirestoreValue toString e.2 = .ok c.2) es ces)
    (hx : EmitsEntries (textKeyed ces) xs) (hwf : ∀ e ∈ xs, e.2.WF)
    (hd : (usedKeys out ++ es.map Prod.fst).Nodup)
    (ih : ∀ e ∈ es, ∀ c x, encodeFirestoreValue toString e.2 = .ok c → Emits c x → x.WF →
      Carried document e.2 x) :
    Settles (∀ e ∈ xs, Taken document e.2)
      (fun m => ∃ m', m = out ++ m' ∧ es.map Prod.fst = (toMembers m').map Prod.fst ∧
        (List.Forall₂ (fun e e' => SameTree e.2 e'.2) es (toMembers m') ↔
          ∀ e ∈ xs, IntsWithin e.2))
      (readEntries document out xs) := by
  induction he generalizing xs out with
  | nil =>
    cases hx
    exact ⟨by simp, [], by simp, rfl, by simp [toMembers]⟩
  | @cons e c es ces hec _ ihes =>
    obtain ⟨key, d⟩ := e
    obtain ⟨k, c⟩ := c
    obtain ⟨rfl, hc⟩ := hec
    cases hx with
    | @cons _ _ item x _ xs hkey hx hxs =>
      generalize hk : Dart.CborValue.string k = kc at hkey
      cases hkey with
      | string =>
        cases hk
        rename_i str
        have hhead := ih (.string str.content, d) (by simp) c x hc hx (hwf (.str true str, x) (by simp))
        have hrun := hhead.bind
          (f := fun value => readEntries document (emplace out str.content value) xs)
          (Q := fun m => ∃ m', m = out ++ m' ∧
            (Object.string str.content :: es.map Prod.fst) = (toMembers m').map Prod.fst ∧
            (List.Forall₂ (fun e e' => SameTree e.2 e'.2) ((.string str.content, d) :: es)
              (toMembers m') ↔ ∀ e ∈ (Item.str true str, x) :: xs, IntsWithin e.2))
          fun v hv => by
            have htail := ihes (out ++ [(str.content, v)]) hxs
              (fun e he => hwf e (List.mem_cons_of_mem _ he)) (usedKeys_append hd)
              fun e he => ih e (List.mem_cons_of_mem _ he)
            rw [emplace_fresh (usedKeys_fresh hd)]
            refine htail.imp fun m hm => ?_
            obtain ⟨m', rfl, hkeys, hsame⟩ := hm
            refine ⟨(str.content, v) :: m', by simp, by simp [toMembers, hkeys], ?_⟩
            rw [toMembers, List.forall₂_cons, hv, hsame, List.forall_mem_cons]
        exact hrun.congr (by simp)
      | _ => cases hk

theorem same_double {a b : UInt64} :
    SameTree (.incrementDouble a) (.incrementDouble b) ↔ SameNumber a b := by
  constructor
  · intro h
    cases h with
    | number hx _ => cases hx
    | incrementDouble h => exact h
  · exact .incrementDouble

theorem same_geoPoint {a b a' b' : UInt64} :
    SameTree (.geoPoint a b) (.geoPoint a' b') ↔ SameNumber a a' ∧ SameNumber b b' := by
  constructor
  · intro h
    cases h with
    | number hx _ => cases hx
    | geoPoint ha hb => exact ⟨ha, hb⟩
  · exact fun h => .geoPoint h.1 h.2

theorem emits_string {s : Bytes} {x : Item} (h : Emits (.string s) x) :
    ∃ str : Str, x = .str true str ∧ str.content = s := by
  cases h
  exact ⟨_, rfl, rfl⟩

theorem emits_text (s : Bytes) : Emits (.string s) (textItem s) := by
  show Emits (.string (Str.plain (.shortest s.length) s).content) _
  exact .string

theorem emits_intItem (i : Int64) : Emits (.int i.toInt) (intItem i) := by
  unfold intItem
  split
  · have hvalue : i.toInt = intValue true (-1 - i.toInt).toNat := by
      rw [intValue, if_pos rfl]
      omega
    nth_rewrite 1 [hvalue]
    exact .int
  · have hvalue : i.toInt = intValue false i.toInt.toNat := by
      rw [intValue, if_neg (by simp)]
      omega
    nth_rewrite 1 [hvalue]
    exact .int

theorem emits_items {t : Nat} {cs : List Dart.CborValue} {x : Item}
    (h : Emits (.tagged t (.list cs)) x) :
    ∃ w len xs, x = .tag w t (.array len xs) ∧ EmitsAll cs xs := by
  cases h with
  | tagged h =>
    cases h with
    | list h => exact ⟨_, _, _, rfl, h⟩

theorem emits_single {t : Nat} {c : Dart.CborValue} {x : Item}
    (h : Emits (.tagged t (.list [c])) x) :
    ∃ w len y, x = .tag w t (.array len [y]) ∧ Emits c y := by
  obtain ⟨w, len, xs, rfl, hall⟩ := emits_items h
  cases hall with
  | cons hc hnil =>
    cases hnil
    exact ⟨w, len, _, rfl, hc⟩

theorem emits_pair {t : Nat} {a b : Dart.CborValue} {x : Item}
    (h : Emits (.tagged t (.list [a, b])) x) :
    ∃ w len y z, x = .tag w t (.array len [y, z]) ∧ Emits a y ∧ Emits b z := by
  obtain ⟨w, len, xs, rfl, hall⟩ := emits_items h
  cases hall with
  | cons ha hall =>
    cases hall with
    | cons hb hnil =>
      cases hnil
      exact ⟨w, len, _, _, rfl, ha, hb⟩

theorem carried_timestamp {s : Int64} {n : Int32} {x : Item}
    (h : Emits (.tagged tagTimestamp (.list [.int s.toInt, .int n.toInt64.toInt])) x) :
    Carried document (.timestamp s n.toInt64) x := by
  obtain ⟨w, len, y, z, rfl, hy, hz⟩ := emits_pair h
  obtain ⟨hs, hws, hts⟩ := emits_int document hy
  obtain ⟨hn, hwn, htn⟩ := emits_int document hz
  unfold Carried
  rw [readItem_timestamp hs hn]
  refine ⟨taken_tuple (by decide) (by simp) (by simp [hts, htn]), ?_⟩
  exact iff_of_true .timestamp (.tag (.array (by simp [hws, hwn])))

theorem carried_geoPoint {a b : UInt64} {x : Item} (hx : x.WF)
    (h : Emits (.tagged tagGeoPoint (.list [.float a, .float b])) x) :
    Carried document (.geoPoint a b) x := by
  obtain ⟨w, len, y, z, rfl, hy, hz⟩ := emits_pair h
  have hxs := array_items (tag_item hx)
  obtain ⟨a', ha, hsa⟩ := emits_float (hxs y (by simp)) hy
  obtain ⟨b', hb, hsb⟩ := emits_float (hxs z (by simp)) hz
  unfold Carried
  rw [readItem_geoPoint ha hb]
  refine ⟨taken_tuple (by decide) (by simp) (by simp [emits_float_taken hy, emits_float_taken hz]), ?_⟩
  simp only [toDart, same_geoPoint, hsa, hsb, within_tag, within_array]
  simp

theorem carried_incrementInt {i : Int64} {x : Item}
    (h : Emits (.tagged tagIncrementInt (.list [.int i.toInt])) x) :
    Carried document (.incrementInt i) x := by
  obtain ⟨w, len, y, rfl, hy⟩ := emits_single h
  obtain ⟨hi, hwi, hti⟩ := emits_int document hy
  unfold Carried
  rw [readItem_incrementInt hi]
  refine ⟨taken_tuple (by decide) (by simp) (by simp [hti]), ?_⟩
  exact iff_of_true .incrementInt (.tag (.array (by simp [hwi])))

theorem carried_incrementDouble {d : UInt64} {x : Item} (hx : x.WF)
    (h : Emits (.tagged tagIncrementDouble (.list [.float d])) x) :
    Carried document (.incrementDouble d) x := by
  obtain ⟨w, len, y, rfl, hy⟩ := emits_single h
  obtain ⟨d', hd, hsd⟩ := emits_float (array_items (tag_item hx) y (by simp)) hy
  unfold Carried
  rw [readItem_incrementDouble hd]
  refine ⟨taken_tuple (by decide) (by simp) (by simp [emits_float_taken hy]), ?_⟩
  simp only [toDart, same_double, hsd, within_tag, within_array]
  simp

theorem carried_reference {p : Bytes} {x : Item}
    (h : Emits (.tagged tagReference (.string p)) x) : Carried document (.reference p) x := by
  cases h with
  | tagged h =>
    cases h with
    | @string s =>
      have hread : ∀ w, readItem document (.tag w tagReference (.str true s)) =
          if document s.content then .ok (.reference s.content) else .fails := by
        intro w
        simp only [readItem]
        rfl
      unfold Carried
      rw [hread]
      split
      · next hs => exact ⟨.reference hs, iff_of_true .reference (.tag .str)⟩
      · next hs => exact fun ht => hs (taken_reference.mp ht)

/-- A tree the package encodes is read as a value equal to it exactly when the
integers chosen are within int64, unless something in it is refused. -/
theorem Tree.carried {sentinels : Bool} {d : Object} (h : Tree sentinels d) :
    ∀ {c : Dart.CborValue} {x : Item}, encodeFirestoreValue toString d = .ok c → Emits c x →
      x.WF → Carried document d x := by
  induction h with
  | null =>
    intro c x hc hx _
    cases hc
    cases hx
    exact ⟨.prim, iff_of_true .null .prim⟩
  | @bool b =>
    intro c x hc hx _
    cases hc
    cases hx
    cases b <;> exact ⟨.prim, iff_of_true .bool .prim⟩
  | int =>
    intro c x hc hx _
    cases hc
    exact carried_int hx
  | double =>
    intro c x hc hx hwf
    cases hc
    exact carried_double hwf hx
  | string =>
    intro c x hc hx _
    cases hc
    cases hx
    exact ⟨.str, iff_of_true .string .str⟩
  | uint8List =>
    intro c x hc hx _
    cases hc
    cases hx
    exact ⟨.str, iff_of_true .uint8List .str⟩
  | timestamp =>
    intro c x hc hx _
    cases hc
    exact carried_timestamp hx
  | geoPoint =>
    intro c x hc hx hwf
    cases hc
    exact carried_geoPoint hwf hx
  | reference =>
    intro c x hc hx _
    cases hc
    exact carried_reference hx
  | list _ ih =>
    intro c x hc hx hwf
    obtain ⟨cs, hcs, hc⟩ := bind_ok hc
    cases hc
    cases hx with
    | list hx =>
      have hrun := elements_carried document hcs hx (array_items hwf)
        fun d hd c x hc hx hwf => ih d hd hc hx hwf
      unfold Carried
      rw [readItem]
      exact settles_array hrun fun vs hvs => by rw [toDart, same_list, hvs, within_array]
  | @map m hd hk _ ih =>
    intro c x hc hx hwf
    obtain ⟨ces, hces, hc⟩ := bind_ok hc
    cases hc
    obtain ⟨ces', rfl, hall⟩ := encodeMembers_distinct hk (by simpa [usedKeys] using hd) hces
    cases hx with
    | @map _ len es hx =>
      have hrun := members_carried document [] hall hx (map_entries hwf).2
        (by simpa [usedKeys] using hd) fun e he c x hc hx hwf => ih e he hc hx hwf
      unfold Carried
      rw [readItem]
      cases hs : tooMany true len es.length with
      | true => exact fun ht => by simpa [hs] using (taken_map.mp ht).1
      | false =>
        refine (hrun.map fun m' hm' => ?_).congr (by simp [taken_map, hs])
        obtain ⟨m', rfl, hkeys, hsame⟩ := hm'
        rw [toDart, same_members hkeys hd, hsame, within_map]
  | delete =>
    intro c x hc hx _
    cases hc
    cases hx with
    | tagged hx =>
      cases hx
      exact ⟨.tag (by decide) .prim, iff_of_true .delete (.tag .prim)⟩
  | serverTimestamp =>
    intro c x hc hx _
    cases hc
    cases hx with
    | tagged hx =>
      cases hx
      exact ⟨.tag (by decide) .prim, iff_of_true .serverTimestamp (.tag .prim)⟩
  | arrayUnion _ _ ih =>
    intro c x hc hx hwf
    obtain ⟨cs, hcs, hc⟩ := bind_ok hc
    cases hc
    obtain ⟨w, len, xs, rfl, hxs⟩ := emits_items hx
    have hrun := elements_carried document hcs hxs (array_items (tag_item hwf))
      fun d hd c x hc hx hwf => ih d hd hc hx hwf
    unfold Carried
    simp only [readItem]
    rw [readPayload_array (by decide) (by decide) (by decide)]
    refine (settles_array hrun fun vs hvs => ?_).congr (taken_tag (by decide)).symm
    rw [toDart, same_arrayUnion, hvs, within_tag, within_array]
  | arrayRemove _ _ ih =>
    intro c x hc hx hwf
    obtain ⟨cs, hcs, hc⟩ := bind_ok hc
    cases hc
    obtain ⟨w, len, xs, rfl, hxs⟩ := emits_items hx
    have hrun := elements_carried document hcs hxs (array_items (tag_item hwf))
      fun d hd c x hc hx hwf => ih d hd hc hx hwf
    unfold Carried
    simp only [readItem]
    rw [readPayload_array (by decide) (by decide) (by decide)]
    refine (settles_array hrun fun vs hvs => ?_).congr (taken_tag (by decide)).symm
    rw [toDart, same_arrayRemove, hvs, within_tag, within_array]
  | incrementInt =>
    intro c x hc hx _
    cases hc
    exact carried_incrementInt hx
  | incrementDouble =>
    intro c x hc hx hwf
    cases hc
    exact carried_incrementDouble hwf hx

end Carried

end Firestore
