import FirebaseFfi.Firebase.Variant

namespace Firebase
open Cbor Tinycbor
open Firestore (Failure checked Reading Reading.fails Reads ConsumedAs int64Of tooMany checked_bind
  advance_fixed getInt64_item getBoolean_prim primType_cases primType_tiny container_reads enter_refused
  enter_small array_not_tag array_items array_lengths map_lengths map_entries length_lt_bytesAll
  parserInit_item)

def readPrim (w : Width) (n : Nat) : Reading Variant :=
  match primType w n with
  | .null | .undefined => .ok .null
  | .boolean => .ok (.bool (n ≠ 20))
  | .double => .ok (.double (.ofNat n))
  | .float => .ok (.double (.ofNat (Ieee.widen Ieee.single n)))
  | .halfFloat => .ok (.double (.ofNat (Ieee.widen Ieee.half n)))
  | _ => .fails

section Read

variable (less : Less)

mutual
/-- What DecodeVariant makes of an item. -/
def readVariant : Item → Reading Variant
  | .int neg _ n => .ok (.int64 (int64Of neg n))
  | .str true s => .ok (.string s.content)
  | .str false s => .ok (.blob s.content)
  | .array len xs =>
    if tooMany false len xs.length then .fails else do return .vector (← readVector xs)
  | .map len es =>
    if tooMany true len es.length then .fails else do return .map (← readEntries [] es)
  | .tag _ _ _ => .fails
  | .prim w n => readPrim w n

def readVector : List Item → Reading (List Variant)
  | [] => .ok []
  | x :: xs => do
    let v ← readVariant x
    let vs ← readVector xs
    return v :: vs

/-- Entries after those in `out`. -/
def readEntries (out : VariantMap) : List (Item × Item) → Reading VariantMap
  | [] => .ok out
  | (k, x) :: es => do
    let key ← readVariant k
    let value ← readVariant x
    readEntries (emplace less out key value) es
end

/-- The decoder bears out the reading of every item of at most `n` bytes. -/
def Decodes (n : Nat) (decode : Decoder) : Prop :=
  ∀ ⦃x : Item⦄ ⦃rest : Bytes⦄ ⦃it : CborValue⦄, x.WF → x.bytes.length ≤ n → AtItem x rest it →
    it.remaining ≠ 0 → Reads (readVariant less x) (decode it) (ConsumedAs it rest)

end Read

theorem entry_le_bytesEntries {es : List (Item × Item)} {e : Item × Item} (h : e ∈ es) :
    e.1.bytes.length ≤ (bytesEntries es).length ∧ e.2.bytes.length ≤ (bytesEntries es).length := by
  induction es with
  | nil => cases h
  | cons d es ih =>
    simp only [bytesEntries, List.length_append]
    rcases List.mem_cons.mp h with rfl | h
    · omega
    · have := ih h
      omega

section Loops

variable {less : Less} {n : Nat} {decode : Decoder} {len : Option Width} {rest : Bytes}

/-- An element inside a container is decoded and the loop goes on after it. -/
theorem Decodes.next {isMap : Bool} {x : Item} {xs : List Item} {it : CborValue}
    (hdec : Decodes less n decode) (hx : x.WF) (hn : x.bytes.length ≤ n)
    (hxs : ∀ y ∈ xs, y.WF) (h : Ready len isMap rest (x :: xs) it) :
    Reads (readVariant less x) (decode it) fun v r =>
      ∃ b, r = .ok b ∧ b.2 = v ∧ Ready len isMap rest xs b.1 := by
  apply (hdec hx hn h.1 h.not_done).imp
  intro v r hr
  obtain ⟨it', hres, hready⟩ := hr.next hxs h
  exact ⟨(it', v), hres, rfl, hready⟩

theorem elements_read (hdec : Decodes less n decode) {xs : List Item} (hxs : ∀ y ∈ xs, y.WF)
    (hn : ∀ y ∈ xs, y.bytes.length ≤ n) {fuel : Nat} (hf : xs.length < fuel) {it : CborValue}
    (h : Ready len false rest xs it) (list : List Variant) :
    Reads ((list ++ ·) <$> readVector less xs)
      (whileNotAtEnd .outOfFuel (decodeVariantElement decode) fuel it list)
      fun v res => ∃ it', res = .ok (it', v) ∧ Ready len false rest [] it' := by
  induction xs generalizing it list fuel with
  | nil =>
    obtain ⟨fuel, rfl⟩ : ∃ k, fuel = k + 1 := ⟨fuel - 1, by simp at hf; omega⟩
    rw [whileNotAtEnd_done h.1]
    exact ⟨it, by simp, h⟩
  | cons x xs ih =>
    obtain ⟨fuel, rfl⟩ : ∃ k, fuel = k + 1 := ⟨fuel - 1, by simp at hf; omega⟩
    have hxs' := fun y hy => hxs y (List.mem_cons_of_mem x hy)
    have hstep := hdec.next (hxs x (by simp)) (hn x (by simp)) hxs' h
    rw [whileNotAtEnd_step h.not_done]
    simp only [readVector, map_bind, decodeVariantElement, bind_assoc, pure_bind]
    apply hstep.bind
    intro v b hb
    obtain ⟨it', v'⟩ := b
    obtain ⟨rfl, hready⟩ := hb
    have htail := ih hxs' (fun y hy => hn y (List.mem_cons_of_mem x hy)) (by simpa using hf) hready
      (list ++ [v'])
    simpa only [map_pure, List.append_assoc, List.singleton_append, bind_pure_comp,
      Functor.map_map] using htail

theorem entries_read (hdec : Decodes less n decode) {es : List (Item × Item)}
    (hk : ∀ e ∈ es, e.1.WF) (hv : ∀ e ∈ es, e.2.WF)
    (hn : ∀ e ∈ es, e.1.bytes.length ≤ n ∧ e.2.bytes.length ≤ n) {fuel : Nat}
    (hf : es.length < fuel) {it : CborValue} (h : Ready len true rest (flatten es) it)
    (map : VariantMap) :
    Reads (readEntries less map es)
      (whileNotAtEnd .outOfFuel (decodeVariantEntry less decode) fuel it map)
      fun v res => ∃ it', res = .ok (it', v) ∧ Ready len true rest [] it' := by
  induction es generalizing it map fuel with
  | nil =>
    obtain ⟨fuel, rfl⟩ : ∃ k, fuel = k + 1 := ⟨fuel - 1, by simp at hf; omega⟩
    rw [whileNotAtEnd_done h.1]
    exact ⟨it, by simp, h⟩
  | cons e es ih =>
    obtain ⟨fuel, rfl⟩ : ∃ k, fuel = k + 1 := ⟨fuel - 1, by simp at hf; omega⟩
    obtain ⟨k, x⟩ := e
    have hk' := fun e he => hk e (List.mem_cons_of_mem _ he)
    have hv' := fun e he => hv e (List.mem_cons_of_mem _ he)
    have hn' := fun e he => hn e (List.mem_cons_of_mem _ he)
    have hwf := Item.WF.flatten hk' hv'
    have hxwf : x.WF := hv (k, x) (by simp)
    have htail : ∀ y ∈ x :: flatten es, y.WF := by
      intro y hy
      rcases List.mem_cons.mp hy with rfl | hy
      · exact hxwf
      · exact hwf y hy
    obtain ⟨hkn, hxn⟩ := hn (k, x) (by simp)
    rw [whileNotAtEnd_step h.not_done]
    simp only [readEntries, decodeVariantEntry, bind_assoc, pure_bind]
    apply (hdec.next (hk (k, x) (by simp)) hkn htail h).bind
    intro key b hb
    obtain ⟨it', key'⟩ := b
    obtain ⟨rfl, hready⟩ := hb
    apply (hdec.next hxwf hxn hwf hready).bind
    intro value b hb
    obtain ⟨it'', value'⟩ := b
    obtain ⟨rfl, hready⟩ := hb
    exact ih hk' hv' hn' (by simpa using hf) hready _

theorem decodeVariantArray_reads (hdec : Decodes less n decode) {xs : List Item} {it : CborValue}
    (h : (Item.array len xs).WF) (hn : (Item.array len xs).bytes.length ≤ n + 1)
    (hat : AtItem (.array len xs) rest it) (hs : tooMany false len xs.length = false) :
    Reads (do return .vector (← readVector less xs)) (decodeVariantArray decode it)
      (ConsumedAs it rest) := by
  have hxs := array_items h
  have hlen := array_lengths len xs
  have hfuel : xs.length < it.src.length + 1 := by
    have := length_le_bytesAll hxs
    simp only [hat.src, List.length_append]
    omega
  have hsmall : ∀ y ∈ xs, y.bytes.length ≤ n := by
    intro y hy
    have := length_lt_bytesAll hy
    omega
  have hrun := container_reads (array_not_tag hat) (enter_small h hat hs)
    (fun r hr => elements_read hdec hxs hsmall hfuel hr []) Variant.vector
  simpa only [decodeVariantArray, List.nil_append, id_map'] using hrun

theorem decodeVariantMap_reads (hdec : Decodes less n decode) {es : List (Item × Item)}
    {it : CborValue} (h : (Item.map len es).WF) (hn : (Item.map len es).bytes.length ≤ n + 1)
    (hat : AtItem (.map len es) rest it) (hs : tooMany true len es.length = false) :
    Reads (do return .map (← readEntries less [] es)) (decodeVariantMap less decode it)
      (ConsumedAs it rest) := by
  obtain ⟨hk, hv⟩ := map_entries h
  have hlen := map_lengths len es
  have hflat := length_le_bytesAll (Item.WF.flatten hk hv)
  rw [flatten_length, bytesAll_flatten] at hflat
  have hfuel : es.length < it.src.length + 1 := by
    simp only [hat.src, List.length_append]
    omega
  have hsmall : ∀ e ∈ es, e.1.bytes.length ≤ n ∧ e.2.bytes.length ≤ n := by
    intro e he
    have hentry := entry_le_bytesEntries he
    omega
  have hnt : it.type ≠ .tag := by simp [hat.shows.type, itemType]
  exact container_reads hnt (enter_map h hat fun hl => by simpa [tooMany, hl] using hs)
    (fun r hr => entries_read hdec hk hv hsmall hfuel hr []) Variant.map

end Loops

theorem scalar_reads {rest : Bytes} {it : CborValue} {v : Variant}
    (hc : Consumed it rest (advanceInternal it)) (h0 : it.remaining ≠ 0)
    (hfixed : isFixedType it.type = true) : ConsumedAs it rest v (scalar it v) := by
  rw [scalar, advance_fixed h0 hfixed, checked_bind]
  exact ⟨_, hc, rfl⟩

/-- The branches of decodeVariant for the types of major type 7. -/
def decodePrim (it : CborValue) : CborType → Except Failure (CborValue × Variant)
  | .null | .undefined => scalar it .null
  | .boolean => scalar it (.bool (cborValueGetBoolean it))
  | .double => scalar it (.double (.ofNat (extractInt64Helper it)))
  | .float => scalar it (.double (.ofNat (Ieee.widen Ieee.single (extractInt64Helper it))))
  | .halfFloat => scalar it (.double (.ofNat (Ieee.widen Ieee.half it.extra)))
  | _ => .error .refused

theorem readPrim_reads {w : Width} {k : Nat} {rest : Bytes} {it : CborValue}
    (hat : AtItem (.prim w k) rest it) (hc : ∀ v, ConsumedAs it rest v (scalar it v)) :
    Reads (readPrim w k) (decodePrim it (primType w k)) (ConsumedAs it rest) := by
  have hnumber : extractInt64Helper it = if w = .tiny ∧ k = 20 then 0 else k := hat.shows.number
  cases w with
  | tiny =>
    unfold readPrim
    cases ht : primType .tiny k with
    | null => exact hc _
    | undefined => exact hc _
    | boolean =>
      rw [decodePrim, getBoolean_prim ht hat]
      exact hc _
    | simple => exact ⟨_, rfl⟩
    | _ => rcases primType_tiny k with h | h | h | h <;> rw [ht] at h <;> cases h
  | one => exact ⟨_, rfl⟩
  | two =>
    have hextra : it.extra = k := by
      have hlarge : it.tooLarge = false := hat.shows.tooLarge
      simpa [extractInt64Helper, hlarge] using hnumber
    simp only [readPrim, primType, decodePrim, hextra]
    exact hc _
  | four =>
    have hk : extractInt64Helper it = k := hnumber
    simp only [readPrim, primType, decodePrim, hk]
    exact hc _
  | eight =>
    have hk : extractInt64Helper it = k := hnumber
    simp only [readPrim, primType, decodePrim, hk]
    exact hc _

/-- The decoder bears out the reading of every well-formed item. -/
theorem decodeVariant_reads (less : Less) (n : Nat) : Decodes less n (decodeVariant less n) := by
  induction n with
  | zero =>
    intro x rest it hx hn
    have := hx.length_pos
    omega
  | succ n ih =>
    intro x rest it hx hn hat h0
    have ht := hat.shows.type
    rw [decodeVariant]
    cases x with
    | int neg w k =>
      simp only [ht, itemType, readVariant, getInt64_item hat]
      exact scalar_reads (advance_int hx hat) h0 (by rw [ht]; rfl)
    | str text s =>
      have hs : s.WF := by
        cases hx with
        | str hs => exact hs
      obtain ⟨next, hc, hdup⟩ := dupString_item hs hat
      cases text with
      | true =>
        simp only [ht, itemType, if_true, readVariant, hdup]
        refine ⟨next, hc, ?_⟩
        cases next <;> rfl
      | false =>
        simp only [ht, itemType, Bool.false_eq_true, if_false, readVariant, hdup]
        refine ⟨next, hc, ?_⟩
        cases next <;> rfl
    | array len xs =>
      simp only [ht, itemType, readVariant]
      by_cases hs : tooMany false len xs.length = true
      · rw [if_pos hs, decodeVariantArray, enter_refused false hs hat.shows]
        exact ⟨_, rfl⟩
      · rw [if_neg hs]
        exact decodeVariantArray_reads ih hx hn hat (by simpa using hs)
    | map len es =>
      simp only [ht, itemType, readVariant]
      by_cases hs : tooMany true len es.length = true
      · rw [if_pos hs, decodeVariantMap, enter_refused true hs hat.shows]
        exact ⟨_, rfl⟩
      · rw [if_neg hs]
        exact decodeVariantMap_reads ih hx hn hat (by simpa using hs)
    | tag w t y =>
      simp only [ht, itemType, readVariant]
      exact ⟨_, rfl⟩
    | prim w k =>
      have hfixed := primType_fixed w k
      have hc := fun v => scalar_reads (v := v) (advance_prim hx hat) h0 (by rw [ht]; exact hfixed.1)
      have hprim := readPrim_reads hat hc
      simp only [ht, itemType, readVariant]
      rcases primType_cases w k with h | h | h | h | h | h | h <;> rw [h] at hprim ⊢ <;> exact hprim

/-- ParseVariant bears out the reading of the item its input starts with. -/
theorem parseVariant_reads (less : Less) {x : Item} (rest : Bytes) (h : x.WF) :
    Reads (readVariant less x) (parseVariant less (x.bytes ++ rest)) fun v r => r = .ok v := by
  obtain ⟨it, hinit, hready⟩ := parserInit_item rest h
  have hdec := decodeVariant_reads less (x.bytes ++ rest).length
  have hrun := hdec h (by simp) hready.1 hready.not_done
  rw [parseVariant, hinit]
  simp only [checked, bind, Except.bind]
  cases hr : readVariant less x with
  | error e =>
    rw [hr] at hrun
    cases e with
    | unchecked => trivial
    | fails =>
      obtain ⟨f, hf⟩ := hrun
      exact ⟨f, by rw [hf]⟩
  | ok v =>
    rw [hr] at hrun
    obtain ⟨it', hres, -⟩ := ConsumedAs.next (by simp) hready hrun
    show _ = _
    rw [hres]
    rfl

theorem bind_checked {α β : Type} {r : Reading α} {f : α → Reading β} (hr : r ≠ .error .unchecked)
    (hf : ∀ a, f a ≠ .error .unchecked) : (r >>= f) ≠ .error .unchecked := by
  cases r with
  | error e =>
    intro h
    cases h
    exact hr rfl
  | ok a => exact hf a

theorem readPrim_checked (w : Width) (n : Nat) : readPrim w n ≠ .error .unchecked := by
  intro h
  unfold readPrim at h
  split at h <;> cases h

mutual
/-- The decoder checks every item it reads. -/
theorem readVariant_checked (less : Less) : ∀ x, readVariant less x ≠ .error .unchecked
  | .int .. => by simp [readVariant]
  | .str true _ => by simp [readVariant]
  | .str false _ => by simp [readVariant]
  | .tag .. => by simp [readVariant, Reading.fails]
  | .prim w n => by
    rw [readVariant]
    exact readPrim_checked w n
  | .array len xs => by
    rw [readVariant]
    split
    · simp [Reading.fails]
    · exact bind_checked (readVector_checked less xs) fun _ h => by cases h
  | .map len es => by
    rw [readVariant]
    split
    · simp [Reading.fails]
    · exact bind_checked (readEntries_checked less [] es) fun _ h => by cases h

theorem readVector_checked (less : Less) : ∀ xs, readVector less xs ≠ .error .unchecked
  | [] => by simp [readVector]
  | x :: xs => by
    rw [readVector]
    exact bind_checked (readVariant_checked less x) fun _ =>
      bind_checked (readVector_checked less xs) fun _ h => by cases h

theorem readEntries_checked (less : Less) :
    ∀ out es, readEntries less out es ≠ .error .unchecked
  | _, [] => by simp [readEntries]
  | out, (k, x) :: es => by
    rw [readEntries]
    exact bind_checked (readVariant_checked less k) fun _ =>
      bind_checked (readVariant_checked less x) fun _ => readEntries_checked less _ es
end

/-- The value of an item is what its bytes are parsed as. -/
theorem parseVariant_item (less : Less) {x : Item} (h : x.WF) {v : Variant} :
    parseVariant less x.bytes = .ok v ↔ readVariant less x = .ok v := by
  have hparse := parseVariant_reads less [] h
  rw [List.append_nil] at hparse
  cases hread : readVariant less x with
  | error e =>
    rw [hread] at hparse
    cases e with
    | fails =>
      obtain ⟨f, hf⟩ := hparse
      simp [hf]
    | unchecked => exact absurd hread (readVariant_checked less x)
  | ok w =>
    rw [hread] at hparse
    rw [show parseVariant less x.bytes = .ok w from hparse]
    simp

end Firebase
