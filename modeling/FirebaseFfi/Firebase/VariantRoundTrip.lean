import FirebaseFfi.Dart.Value
import FirebaseFfi.Firestore.RoundTrip
import FirebaseFfi.Firebase.VariantReads
import FirebaseFfi.Firebase.VariantSize

namespace Firebase
open Cbor Tinycbor
open Firestore (textItem maxSize tooMany)
open Dart (bind_ok)

section Tree

variable {less : Less} {v : Variant}

theorem Variant.Tree.sized (h : v.Tree less) : v.Sized := by
  induction h with
  | null => exact .null
  | bool => exact .bool
  | int64 => exact .int64
  | double => exact .double
  | string hs => exact .string hs
  | blob hb => exact .blob hb
  | vector hl _ ih => exact .vector hl ih
  | map hl _ hk _ ih =>
    refine .map hl ?_ ih
    intro e he
    obtain ⟨k, hkey, hlen⟩ := hk e he
    rw [hkey]
    exact .string hlen

theorem Variant.Tree.item_wf (h : v.Tree less) : (itemOf v).WF := h.sized.item_wf

/-- The first buffer is long enough. -/
theorem Variant.Tree.serialized (h : v.Tree less) :
    serializeVariant v = some (itemOf v).bytes := h.sized.serialized

/-- No string or key holds a NUL, and the parser can count every container. -/
inductive Variant.Plain : Variant → Prop
  | null : Plain .null
  | bool {b} : Plain (.bool b)
  | int64 {i} : Plain (.int64 i)
  | double {d} : Plain (.double d)
  | string {s} : (0 : UInt8) ∉ s → Plain (.string s)
  | blob {b} : Plain (.blob b)
  | vector {xs} : xs.length < countLimit false → (∀ x ∈ xs, Plain x) → Plain (.vector xs)
  | map {es} : es.length < countLimit true → (∀ e ∈ es, Plain e.1) → (∀ e ∈ es, Plain e.2) →
      Plain (.map es)

theorem tooMany_shortest {isMap : Bool} {n : Nat} :
    tooMany isMap (some (.shortest n)) n = false ↔ n < countLimit isMap := by
  simp [tooMany]

/-- Entries come back with those before them, whatever the order of the keys. -/
theorem emplace_mem {map : VariantMap} {k v : Variant} {e : Variant × Variant}
    (h : e ∈ emplace less map k v) : e ∈ map ∨ e = (k, v) := by
  induction map with
  | nil => exact .inr (List.mem_singleton.mp h)
  | cons d map ih =>
    unfold emplace at h
    split at h
    · rcases List.mem_cons.mp h with rfl | h
      · exact .inl (by simp)
      · rcases ih h with h | h
        · exact .inl (List.mem_cons_of_mem _ h)
        · exact .inr h
    · split at h
      · rcases List.mem_cons.mp h with rfl | h
        · exact .inr rfl
        · exact .inl h
      · exact .inl h

theorem emplace_length (map : VariantMap) (k v : Variant) :
    (emplace less map k v).length ≤ map.length + 1 := by
  induction map with
  | nil => exact Nat.le_refl 1
  | cons d map ih =>
    unfold emplace
    split
    · exact Nat.succ_le_succ ih
    · split
      · exact Nat.le_refl _
      · exact Nat.le_succ _

/-- A key above all the others goes last. -/
theorem emplace_last {map : VariantMap} {k : Variant} (v : Variant)
    (h : ∀ e ∈ map, less e.1 k = true) : emplace less map k v = map ++ [(k, v)] := by
  induction map with
  | nil => rfl
  | cons d map ih =>
    rw [emplace, if_pos (h d (by simp)), ih fun e he => h e (List.mem_cons_of_mem _ he)]
    rfl

theorem readKey (less : Less) (s : Bytes) :
    readVariant less (textItem (cString s)) = .ok (.string (cString s)) := rfl

section Back

theorem readVector_plain {xs vs : List Variant}
    (ih : ∀ x ∈ xs, ∀ w, readVariant less (itemOf x) = .ok w → w.Plain)
    (h : readVector less (xs.map itemOf) = .ok vs) : vs.length = xs.length ∧ ∀ w ∈ vs, w.Plain := by
  induction xs generalizing vs with
  | nil =>
    cases h
    exact ⟨rfl, by simp⟩
  | cons x xs ihxs =>
    obtain ⟨w, hw, h⟩ := bind_ok h
    obtain ⟨ws, hws, h⟩ := bind_ok h
    cases h
    obtain ⟨hlen, hplain⟩ := ihxs (fun y hy => ih y (List.mem_cons_of_mem _ hy)) hws
    refine ⟨by rw [List.length_cons, hlen, List.length_cons], ?_⟩
    intro u hu
    rcases List.mem_cons.mp hu with rfl | hu
    · exact ih x (by simp) _ hw
    · exact hplain u hu

theorem readEntries_plain {es out map : VariantMap}
    (hk : ∀ e ∈ es, ∃ k, e.1 = .string k ∧ k.length ≤ maxSize)
    (ih : ∀ e ∈ es, ∀ w, readVariant less (itemOf e.2) = .ok w → w.Plain)
    (hout : ∀ e ∈ out, e.1.Plain ∧ e.2.Plain)
    (h : readEntries less out (es.map fun e => (keyItem e.1, itemOf e.2)) = .ok map) :
    map.length ≤ out.length + es.length ∧ ∀ e ∈ map, e.1.Plain ∧ e.2.Plain := by
  induction es generalizing out with
  | nil =>
    cases h
    exact ⟨Nat.le_refl _, hout⟩
  | cons e es ihes =>
    obtain ⟨k, v⟩ := e
    obtain ⟨s, hs, -⟩ := hk (k, v) (by simp)
    dsimp only at hs
    subst hs
    obtain ⟨key, hkey, h⟩ := bind_ok h
    cases hkey
    obtain ⟨w, hw, h⟩ := bind_ok h
    have hplain := ih (.string s, v) (by simp) w hw
    have hput : ∀ e ∈ emplace less out (.string (cString s)) w, e.1.Plain ∧ e.2.Plain := by
      intro e he
      rcases emplace_mem he with he | rfl
      · exact hout e he
      · exact ⟨.string (zero_not_mem_cString s), hplain⟩
    obtain ⟨hlen, hall⟩ := ihes (fun d hd => hk d (List.mem_cons_of_mem _ hd))
      (fun d hd => ih d (List.mem_cons_of_mem _ hd)) hput h
    have := @emplace_length less out (.string (cString s)) w
    exact ⟨by rw [List.length_cons]; omega, hall⟩

/-- What is read back holds no NUL, for the writer stopped at each of them. -/
theorem Variant.Tree.read_plain (h : v.Tree less) {w : Variant}
    (hw : readVariant less (itemOf v) = .ok w) : w.Plain := by
  induction h generalizing w with
  | null =>
    cases hw
    exact .null
  | @bool b =>
    cases b
    · cases hw
      exact .bool
    · cases hw
      exact .bool
  | @int64 i =>
    simp only [itemOf, Firestore.intItem] at hw
    split at hw
    · cases hw
      exact .int64
    · cases hw
      exact .int64
  | double =>
    cases hw
    exact .double
  | @string s =>
    cases hw
    exact .string (zero_not_mem_cString s)
  | blob =>
    cases hw
    exact .blob
  | @vector xs hl hx ih =>
    rw [itemOf, itemsOf_eq_map, Firestore.arrayItem, readVariant] at hw
    split at hw
    · cases hw
    · next hcount =>
      obtain ⟨vs, hvs, hw⟩ := bind_ok hw
      cases hw
      obtain ⟨hlen, hall⟩ := readVector_plain (fun x hx w hw => ih x hx hw) hvs
      rw [Bool.not_eq_true, tooMany_shortest, List.length_map] at hcount
      exact .vector (by rw [hlen]; exact hcount) hall
  | @map es hl hasc hk hv ih =>
    rw [itemOf, entriesOf_eq_map, Firestore.mapItem, readVariant] at hw
    split at hw
    · cases hw
    · next hcount =>
      obtain ⟨map, hmap, hw⟩ := bind_ok hw
      cases hw
      obtain ⟨hlen, hall⟩ := readEntries_plain hk (fun e he w hw => ih e he hw) (by simp) hmap
      rw [Bool.not_eq_true, tooMany_shortest, List.length_map] at hcount
      exact .map (by simp at hlen; omega) (fun e he => (hall e he).1) fun e he => (hall e he).2

theorem readVector_back {xs : List Variant}
    (h : ∀ x ∈ xs, readVariant less (itemOf x) = .ok x) :
    readVector less (xs.map itemOf) = .ok xs := by
  induction xs with
  | nil => rfl
  | cons x xs ih =>
    rw [List.map_cons, readVector, h x (by simp), ih fun y hy => h y (List.mem_cons_of_mem _ hy)]
    rfl

theorem readEntries_back {es : VariantMap} (out : VariantMap) (hasc : Ascending less (out ++ es))
    (hk : ∀ e ∈ es, readVariant less (keyItem e.1) = .ok e.1)
    (hv : ∀ e ∈ es, readVariant less (itemOf e.2) = .ok e.2) :
    readEntries less out (es.map fun e => (keyItem e.1, itemOf e.2)) = .ok (out ++ es) := by
  induction es generalizing out with
  | nil => simp [readEntries]
  | cons e es ih =>
    obtain ⟨k, v⟩ := e
    have hlast : emplace less out k v = out ++ [(k, v)] := by
      apply emplace_last
      intro d hd
      exact ((List.pairwise_append.mp hasc).2.2 d hd (k, v) (by simp)).1
    have hes := ih (out ++ [(k, v)]) (by simpa using hasc)
      (fun d hd => hk d (List.mem_cons_of_mem _ hd)) fun d hd => hv d (List.mem_cons_of_mem _ hd)
    rw [List.map_cons, readEntries, hk (k, v) (by simp), hv (k, v) (by simp)]
    show readEntries less (emplace less out k v) _ = _
    rw [hlast, hes, List.append_assoc, List.singleton_append]

theorem read_intItem (i : Int64) : readVariant less (Firestore.intItem i) = .ok (.int64 i) := by
  have h := Firestore.intItem_reads i
  obtain ⟨neg, w, n, hint⟩ : ∃ neg w n, Firestore.intItem i = .int neg w n := by
    unfold Firestore.intItem
    split
    · exact ⟨_, _, _, rfl⟩
    · exact ⟨_, _, _, rfl⟩
  rw [hint] at h ⊢
  simp only [Firestore.readInt, Except.ok.injEq] at h
  rw [readVariant, h]

theorem read_key {k : Variant} (h : ∃ s, k = .string s ∧ s.length ≤ maxSize) (hp : k.Plain) :
    readVariant less (keyItem k) = .ok k := by
  obtain ⟨s, rfl, -⟩ := h
  cases hp with
  | string hs => rw [keyItem_string, readKey, cString_eq_self.mpr hs]

/-- A tree without NULs is read back as it was. -/
theorem Variant.Tree.read_back (h : v.Tree less) (hp : v.Plain) :
    readVariant less (itemOf v) = .ok v := by
  induction h with
  | null => rfl
  | @bool b => cases b <;> rfl
  | int64 => exact read_intItem _
  | @double d => simp [itemOf, Firestore.doubleItem, readVariant, readPrim, primType]
  | string =>
    cases hp with
    | string hs => rw [itemOf, readKey, cString_eq_self.mpr hs]
  | blob => rfl
  | @vector xs hl hx ih =>
    cases hp with
    | vector hcount hall =>
      rw [itemOf, itemsOf_eq_map, Firestore.arrayItem, readVariant, List.length_map,
        tooMany_shortest.mpr hcount, readVector_back fun x hx => ih x hx (hall x hx)]
      rfl
  | @map es hl hasc hk hv ih =>
    cases hp with
    | map hcount hkeys hall =>
      rw [itemOf, entriesOf_eq_map, Firestore.mapItem, readVariant, List.length_map,
        tooMany_shortest.mpr hcount,
        readEntries_back [] hasc (fun e he => read_key (hk e he) (hkeys e he))
          fun e he => ih e he (hall e he)]
      rfl

end Back

end Tree

/-- A value is serialized and parsed back as an equal one exactly when no
string or key in it holds a NUL and no container is too large to be counted. -/
theorem variant_round_trip (less : Less) {v : Variant} (hv : v.Tree less) :
    (∃ cbor, serializeVariant v = some cbor ∧ parseVariant less cbor = .ok v) ↔ v.Plain := by
  constructor
  · intro h
    obtain ⟨cbor, hcbor, hback⟩ := h
    rw [hv.serialized] at hcbor
    cases hcbor
    exact hv.read_plain ((parseVariant_item less hv.item_wf).mp hback)
  · intro hp
    exact ⟨_, hv.serialized, (parseVariant_item less hv.item_wf).mpr (hv.read_back hp)⟩

/-- Strings before everything else, by their bytes. -/
def byBytes : Less
  | .string a, .string b => decide (a < b)
  | _, _ => false

/-- Two keys, a blob and a nested vector. -/
def sampleTree : Variant :=
  .map [(.string [0x61], .vector [.int64 (-5), .null]), (.string [0x62], .blob [0x00])]

theorem sampleTree_tree : sampleTree.Tree byBytes := by
  refine .map (by simp [maxSize, sizeMax]) (List.pairwise_pair.mpr (by decide)) ?_ ?_
  · intro e he
    simp only [List.mem_cons, List.not_mem_nil, or_false] at he
    rcases he with rfl | rfl <;> exact ⟨_, rfl, by simp [maxSize, sizeMax]⟩
  · intro e he
    simp only [List.mem_cons, List.not_mem_nil, or_false] at he
    rcases he with rfl | rfl
    · refine .vector (by simp [maxSize, sizeMax]) fun x hx => ?_
      simp only [List.mem_cons, List.not_mem_nil, or_false] at hx
      rcases hx with rfl | rfl
      · exact .int64
      · exact .null
    · exact .blob (by simp [maxSize, sizeMax])

theorem sampleTree_plain : sampleTree.Plain := by
  have hvector : (Variant.vector [.int64 (-5), .null]).Plain := by
    refine .vector (by decide) ?_
    simp only [List.forall_mem_cons]
    exact ⟨.int64, .null, by simp⟩
  refine .map (by decide) ?_ ?_
  · simp only [List.forall_mem_cons]
    exact ⟨.string (by decide), .string (by decide), by simp⟩
  · simp only [List.forall_mem_cons]
    exact ⟨hvector, .blob, by simp⟩

theorem sampleTree_round_trip :
    ∃ cbor, serializeVariant sampleTree = some cbor ∧ parseVariant byBytes cbor = .ok sampleTree :=
  (variant_round_trip byBytes sampleTree_tree).mpr sampleTree_plain

def nulString : Variant := .string [0x61, 0x00, 0x62]

theorem nulString_tree (less : Less) : nulString.Tree less := .string (by simp [maxSize, sizeMax])

/-- A string of three bytes comes back as its first. -/
theorem nulString_truncated :
    serializeVariant nulString = some [0x61, 0x61] ∧
      parseVariant byBytes [0x61, 0x61] = .ok (.string [0x61]) ∧
      ¬ ∃ cbor, serializeVariant nulString = some cbor ∧ parseVariant byBytes cbor = .ok nulString := by
  have hcbor := (nulString_tree byBytes).serialized
  have hparse := fun v => parseVariant_item byBytes (nulString_tree byBytes).item_wf (v := v)
  refine ⟨hcbor, (hparse _).mpr rfl, ?_⟩
  intro h
  obtain ⟨cbor, hcbor', hback⟩ := h
  rw [hcbor] at hcbor'
  cases hcbor'
  cases (hparse _).mp hback

end Firebase
