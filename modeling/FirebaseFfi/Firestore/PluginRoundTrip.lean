import FirebaseFfi.Firestore.PluginValues

namespace Firestore
open Assoc Cbor Dart

section RoundTrip

variable {platform : PlatformInterface} {toString : Object → Option Bytes}
  {package : CborPackage} {v w : PluginValue} {c : Dart.CborValue} {s : Into}

theorem Supported.child (h : Supported platform v) (hs : v.child s = some w) :
    Supported platform w := by
  cases h with
  | list hall =>
    cases s with
    | index i => exact hall w (List.mem_of_getElem? hs)
    | key k => cases hs
  | map hd hall =>
    cases s with
    | index i => cases hs
    | key k => exact hall (k, w) ((lookup_mem hd).mp hs)
  | _ => cases hs

theorem Wrapped.child (h : Wrapped v) (hs : v.child s = some w) : Wrapped w := by
  intro path b hp
  apply h (s :: path) b
  rw [place, hs]
  exact hp

theorem Wrapped.list {vs : List PluginValue} (h : Wrapped (.list vs)) : ∀ u ∈ vs, Wrapped u := by
  intro u hu
  obtain ⟨i, hi⟩ := List.mem_iff_getElem?.mp hu
  exact @Wrapped.child _ _ (.index i) h hi

theorem Wrapped.map {es : List (Bytes × PluginValue)} (hd : (es.map Prod.fst).Nodup)
    (h : Wrapped (.map es)) : ∀ e ∈ es, Wrapped e.2 := by
  intro e he
  exact @Wrapped.child _ _ (.key e.1) h ((lookup_mem hd).mpr he)

theorem Wrapped.not_raw (h : Wrapped v) (b : Bytes) : v ≠ .uint8List b := by
  intro hv
  exact h [] b (congrArg some hv)

/-- The elements of a value that is no raw byte list are encoded in their places. -/
theorem child_encoded (hv : Supported platform v) (hraw : ∀ b, v ≠ .uint8List b)
    (hc : encodeFirestoreValue toString (valueToFfi v) = .ok c) (s : Into) :
    Option.Rel (fun v c => encodeFirestoreValue toString (valueToFfi v) = .ok c) (v.child s)
      (childOf c s) := by
  cases hv with
  | uint8List => exact absurd rfl (hraw _)
  | list _ =>
    obtain ⟨cs, hcs, hc⟩ := bind_ok hc
    cases hc
    rw [valuesToFfi_eq_map] at hcs
    cases s with
    | index i => exact elements_rel (List.forall₂_map_left_iff.mp (encodeElements_each hcs)) i
    | key k => exact .none
  | @map es hd _ =>
    rw [valueToFfi, mapObject_distinct hd] at hc
    obtain ⟨ces, hces, hc⟩ := bind_ok hc
    cases hc
    have hstrings : ∀ e ∈ es.map fun e => (Object.string e.1, valueToFfi e.2),
        ∃ s, e.1 = .string s := by
      intro e he
      obtain ⟨e, -, rfl⟩ := List.mem_map.mp he
      exact ⟨e.1, rfl⟩
    obtain ⟨ces, rfl, hall⟩ := encodeMembers_distinct hstrings
      (by simpa [usedKeys] using textKeys_nodup (f := valueToFfi) hd) hces
    cases s with
    | index i => exact .none
    | key k =>
      refine underKey_rel ((List.forall₂_map_left_iff.mp hall).imp ?_) k
      intro e c h
      exact ⟨Object.string.inj h.1, h.2⟩
  | _ =>
    cases hc
    exact .none

theorem mark_encoded (hv : Supported platform v) (hraw : ∀ b, v ≠ .uint8List b)
    (hc : encodeFirestoreValue toString (valueToFfi v) = .ok c) : v.mark = markOf c := by
  cases hv with
  | uint8List => exact absurd rfl (hraw _)
  | list _ =>
    obtain ⟨cs, -, hc⟩ := bind_ok hc
    cases hc
    rfl
  | map _ _ =>
    obtain ⟨ces, -, hc⟩ := bind_ok hc
    cases hc
    rfl
  | _ =>
    cases hc
    rfl

/-- Without raw byte lists every mark is in its place. -/
theorem marks_encoded (hv : Supported platform v) (hw : Wrapped v)
    (hc : encodeFirestoreValue toString (valueToFfi v) = .ok c) (path : List Into) :
    (place PluginValue.child v path).map PluginValue.mark =
      (place childOf c path).map markOf := by
  have hrel : Option.Rel (fun v c => (Supported platform v ∧ Wrapped v) ∧
      encodeFirestoreValue toString (valueToFfi v) = .ok c)
      (place PluginValue.child v path) (place childOf c path) := by
    refine place_rel (fun v c h s => ?_) path ⟨⟨hv, hw⟩, hc⟩
    have hs := child_encoded h.1.1 h.1.2.not_raw h.2 s
    generalize hx : v.child s = x at hs ⊢
    generalize childOf c s = y at hs ⊢
    cases hs with
    | some he => exact .some ⟨⟨h.1.1.child hx, h.1.2.child hx⟩, he⟩
    | none => exact .none
  exact rel_map_eq hrel fun v c h => mark_encoded h.1.1 h.1.2.not_raw h.2

/-- What is in a value is encoded somewhere in its encoding. -/
theorem place_encoded (path : List Into) : ∀ {v c}, Supported platform v →
    encodeFirestoreValue toString (valueToFfi v) = .ok c →
    place PluginValue.child v path = some w →
    ∃ d, place childOf c path = some d ∧ encodeFirestoreValue toString (valueToFfi w) = .ok d := by
  induction path with
  | nil =>
    intro v c _ hc hp
    cases hp
    exact ⟨c, rfl, hc⟩
  | cons s path ih =>
    intro v c hv hc hp
    obtain ⟨u, hu, hp⟩ := Option.bind_eq_some_iff.mp hp
    have hraw : ∀ b, v ≠ .uint8List b := by
      intro b hb
      subst hb
      cases hu
    have hs := child_encoded hv hraw hc s
    rw [hu] at hs
    generalize hy : childOf c s = y at hs
    cases hs with
    | some he =>
      obtain ⟨d, hd, henc⟩ := ih (hv.child hu) he hp
      refine ⟨d, ?_, henc⟩
      rw [place, hy]
      exact hd

theorem number_returned {o : Object} {q : Ieee.Number} (h : numberOf o = some q) :
    ∃ w, valueFromFfi platform toString o = .ok w ∧ w.number = some q := by
  cases o with
  | int i => exact ⟨_, rfl, h⟩
  | double d => exact ⟨_, rfl, h⟩
  | _ => cases h

theorem elements_returned {vs : List PluginValue} {xs : List Object}
    (h : List.Forall₂ (fun v x => SameTree (valueToFfi v) x) vs xs)
    (ih : ∀ v ∈ vs, ∀ x, SameTree (valueToFfi v) x →
      ∃ w, valueFromFfi platform toString x = .ok w ∧ ComesBack v w) :
    ∃ ws, valuesFromFfi platform toString xs = .ok ws ∧ List.Forall₂ ComesBack vs ws := by
  induction h with
  | nil => exact ⟨[], rfl, .nil⟩
  | @cons v x vs xs hx _ ihs =>
    obtain ⟨w, hw, hback⟩ := ih v (by simp) x hx
    obtain ⟨ws, hws, hall⟩ := ihs fun v hv => ih v (List.mem_cons_of_mem _ hv)
    refine ⟨w :: ws, ?_, .cons hback hall⟩
    rw [valuesFromFfi, hw, hws]
    rfl

theorem members_returned {es : List (Bytes × PluginValue)} {ms : List (Object × Object)}
    (h : ∀ m ∈ ms, ∃ k v w, m.1 = .string k ∧ (k, v) ∈ es ∧
      valueFromFfi platform toString m.2 = .ok w ∧ ComesBack v w) :
    ∃ fs, entriesFromFfi platform toString ms = .ok fs ∧
      ms.map Prod.fst = (fs.map Prod.fst).map Object.string ∧
      ∀ f ∈ fs, ∃ v, (f.1, v) ∈ es ∧ ComesBack v f.2 := by
  induction ms with
  | nil => exact ⟨[], rfl, rfl, by simp⟩
  | cons m ms ih =>
    obtain ⟨key, x⟩ := m
    obtain ⟨k, v, w, rfl, hv, hw, hback⟩ := h _ (List.mem_cons_self ..)
    obtain ⟨fs, hfs, hkeys, hall⟩ := ih fun m hm => h m (List.mem_cons_of_mem _ hm)
    have hkey : interpolate toString (.string k) = some k := rfl
    refine ⟨(k, w) :: fs, ?_, by simp [hkeys], ?_⟩
    · simp only [entriesFromFfi, hkey, hw, hfs]
      rfl
    · exact List.forall_mem_cons.mpr ⟨⟨v, hv, hback⟩, hall⟩

theorem list_returned {vs : List PluginValue} {o : Object}
    (ih : ∀ v ∈ vs, ∀ x, SameTree (valueToFfi v) x →
      ∃ w, valueFromFfi platform toString x = .ok w ∧ ComesBack v w)
    (h : SameTree (valueToFfi (.list vs)) o) :
    ∃ w, valueFromFfi platform toString o = .ok w ∧ ComesBack (.list vs) w := by
  rw [valueToFfi, valuesToFfi_eq_map] at h
  cases h with
  | number hx _ => cases hx
  | list hl hall =>
    have hsame := List.forall₂_map_left_iff.mp (pointwise_iff.mp ⟨hl, hall⟩)
    obtain ⟨ws, hws, hback⟩ := elements_returned hsame ih
    refine ⟨.list ws, ?_, .list hback⟩
    rw [valueFromFfi, hws]
    rfl

theorem map_returned {es : List (Bytes × PluginValue)} {o : Object} (hd : (es.map Prod.fst).Nodup)
    (ih : ∀ e ∈ es, ∀ x, SameTree (valueToFfi e.2) x →
      ∃ w, valueFromFfi platform toString x = .ok w ∧ ComesBack e.2 w)
    (h : SameTree (valueToFfi (.map es)) o) :
    ∃ w, valueFromFfi platform toString o = .ok w ∧ ComesBack (.map es) w := by
  rw [valueToFfi, mapObject_distinct hd] at h
  cases h with
  | number hx _ => cases hx
  | @map _ ms _ hdm hkeys hall =>
    have hkey : ∀ k, k ∈ es.map Prod.fst ↔ Object.string k ∈ ms.map Prod.fst := by
      intro k
      rw [← hkeys]
      simp
    have hmembers : ∀ m ∈ ms, ∃ k u w, m.1 = .string k ∧ (k, u) ∈ es ∧
        valueFromFfi platform toString m.2 = .ok w ∧ ComesBack u w := by
      intro m hm
      have hmem := (hkeys m.1).mpr (List.mem_map_of_mem hm)
      rw [List.map_map] at hmem
      obtain ⟨e, he, hm1⟩ := List.mem_map.mp hmem
      have hsame := hall m.1 (valueToFfi e.2) m.2
        (List.mem_map.mpr ⟨e, he, Prod.ext hm1 rfl⟩) hm
      obtain ⟨w, hw, hback⟩ := ih e he m.2 hsame
      exact ⟨e.1, e.2, w, hm1.symm, he, hw, hback⟩
    obtain ⟨fs, hfs, hfkeys, hback⟩ := members_returned hmembers
    rw [hfkeys] at hdm hkey
    have hdf : (fs.map Prod.fst).Nodup := hdm.of_map _
    refine ⟨.map fs, ?_, .map hdf (fun k => ?_) fun k u w hu hw => ?_⟩
    · rw [valueFromFfi, hfs]
      show Except.ok (PluginValue.map (assignAll [] fs)) = _
      rw [assignAll_new (by simpa using hdf), List.nil_append]
    · rw [hkey k, List.mem_map_of_injective fun a b hab => Object.string.inj hab]
    · obtain ⟨u', hu', hback⟩ := hback (k, w) hw
      have heq := (lookup_mem hd).mpr hu'
      rw [(lookup_mem hd).mpr hu] at heq
      cases heq
      exact hback

/-- An equal tree is turned back into an equal value. -/
theorem Supported.returned (hv : Supported platform v) (hw : Wrapped v) {o : Object}
    (h : SameTree (valueToFfi v) o) :
    ∃ w, valueFromFfi platform toString o = .ok w ∧ ComesBack v w := by
  induction hv generalizing o with
  | null =>
    cases h with
    | number hx _ => cases hx
    | null => exact ⟨_, rfl, .null⟩
  | bool =>
    cases h with
    | number hx _ => cases hx
    | bool => exact ⟨_, rfl, .bool⟩
  | int =>
    cases h with
    | number hx hy =>
      obtain ⟨w, hw, hnum⟩ := number_returned hy
      exact ⟨w, hw, .number hx hnum⟩
  | double =>
    cases h with
    | number hx hy =>
      obtain ⟨w, hw, hnum⟩ := number_returned hy
      exact ⟨w, hw, .number hx hnum⟩
  | string =>
    cases h with
    | number hx _ => cases hx
    | string => exact ⟨_, rfl, .string⟩
  | uint8List => exact absurd rfl (hw.not_raw _)
  | blob =>
    cases h with
    | number hx _ => cases hx
    | uint8List => exact ⟨_, rfl, .blob⟩
  | timestamp hmade =>
    cases h with
    | number hx _ => cases hx
    | timestamp => exact ⟨_, hmade, .timestamp⟩
  | geoPoint hmade =>
    cases h with
    | number hx _ => cases hx
    | geoPoint ha hb => exact ⟨_, hmade _ _ ha hb, .geoPoint ha hb⟩
  | reference hmade =>
    cases h with
    | number hx _ => cases hx
    | reference => exact ⟨_, hmade, .reference⟩
  | list _ ih => exact list_returned (fun u hu x hx => ih u hu (hw.list u hu) hx) h
  | map hd _ ih => exact map_returned hd (fun e he x hx => ih e he (Wrapped.map hd hw e he) hx) h

/-- A value comes through the codec and back exactly when its bytes are in Blobs. -/
theorem values_roundTrip (platform : PlatformInterface) (toString : Object → Option Bytes)
    (hobjects : GivesObjects package) {v : PluginValue} (hv : Supported platform v) :
    RoundTrips platform toString package v ↔ Wrapped v := by
  obtain ⟨c, hc⟩ := hv.tree.encoded toString
  constructor
  · intro h path b hp
    obtain ⟨c, hc, hmarks, -⟩ := h.encoded
    obtain ⟨d, hd, henc⟩ := place_encoded path hv hc hp
    obtain ⟨cs, -, henc⟩ := bind_ok henc
    cases henc
    have hmark := hmarks path
    rw [hp, hd] at hmark
    cases hmark
  · intro hw
    exact ⟨⟨c, hc, marks_encoded hv hw hc, _, hv.tree.decoded hobjects hc, hv.tree.refl⟩,
      fun _ ho => hv.returned hw ho⟩

end RoundTrip

/-- A platform interface, of which a Timestamp's constructor checks the nanoseconds. -/
def checkedPlatform : PlatformInterface where
  timestamp s n :=
    if 0 ≤ n ∧ n < 1000000000 then .ok (.timestamp s n.toInt32) else .error .argumentError
  geoPoint a b := .ok (.geoPoint a b)
  doc p := .ok (.reference p)

/-- `{'blobs': [Blob([1, 2]), null], 'at': Timestamp(3, 5)}` -/
def blobsAt : PluginValue :=
  .map [(ascii "blobs", .list [.blob [1, 2], .null]), (ascii "at", .timestamp 3 5)]

theorem blobsAt_roundTrip : RoundTrips checkedPlatform (fun _ => none) itemPackage blobsAt := by
  have hsupported : Supported checkedPlatform blobsAt := by
    refine .map (by decide) ?_
    simp only [List.forall_mem_cons]
    refine ⟨.list ?_, .timestamp rfl, by simp⟩
    simp only [List.forall_mem_cons]
    exact ⟨.blob, .null, by simp⟩
  refine (values_roundTrip _ _ itemPackage_gives hsupported).mpr fun path b hp => ?_
  rcases path with _ | ⟨_ | k, path⟩
  · cases hp
  · cases hp
  obtain ⟨v, hv, hp⟩ := Option.bind_eq_some_iff.mp hp
  have hmem := (lookup_mem (by decide)).mp hv
  simp only [List.mem_cons, Prod.mk.injEq, List.not_mem_nil, or_false] at hmem
  rcases hmem with ⟨-, rfl⟩ | ⟨-, rfl⟩
  · rcases path with _ | ⟨i | k, path⟩
    · cases hp
    · obtain ⟨w, hw, hp⟩ := Option.bind_eq_some_iff.mp hp
      have hmem := List.mem_of_getElem? hw
      simp only [List.mem_cons, List.not_mem_nil, or_false] at hmem
      rcases hmem with rfl | rfl
      · cases path <;> cases hp
      · cases path <;> cases hp
    · cases hp
  · cases path <;> cases hp

/-- A raw byte list is encoded as a list of integers. -/
theorem rawBytes_collapsed : Supported checkedPlatform (.uint8List [1, 2]) ∧
    encodeFirestoreValue (fun _ => none) (valueToFfi (.uint8List [1, 2])) =
      .ok (.list [.int 1, .int 2]) ∧
    ¬ RoundTrips checkedPlatform (fun _ => none) itemPackage (.uint8List [1, 2]) := by
  refine ⟨.uint8List, rfl, fun h => ?_⟩
  obtain ⟨c, hc, hmarks, -⟩ := h.encoded
  obtain ⟨cs, -, hc⟩ := bind_ok hc
  cases hc
  have hmark := hmarks []
  cases hmark

end Firestore
