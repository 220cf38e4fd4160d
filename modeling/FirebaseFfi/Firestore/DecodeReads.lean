import FirebaseFfi.Firestore.TupleReads
import FirebaseFfi.Tinycbor.Progress

namespace Firestore
open Cbor Tinycbor

/-- The decoder bears out the reading of every item of at most `n` bytes. -/
def Decodes (document : Document) (n : Nat) (decode : Decoder) : Prop :=
  ∀ ⦃x : Item⦄ ⦃rest : Bytes⦄ ⦃it : CborValue⦄, x.WF → x.bytes.length ≤ n → AtItem x rest it →
    it.remaining ≠ 0 → Reads (readItem document x) (decode it) (ConsumedAs it rest)

section Loops

variable {document : Document} {n : Nat} {decode : Decoder} {len : Option Width} {rest : Bytes}

/-- An element inside a container is decoded and the loop goes on after it. -/
theorem Decodes.next {isMap : Bool} {x : Item} {xs : List Item} {it : CborValue}
    (hdec : Decodes document n decode) (hx : x.WF) (hn : x.bytes.length ≤ n)
    (hxs : ∀ y ∈ xs, y.WF) (h : Ready len isMap rest (x :: xs) it) :
    Reads (readItem document x) (decode it) fun v r =>
      ∃ b, r = .ok b ∧ b.2 = v ∧ Ready len isMap rest xs b.1 :=
  (hdec hx hn h.1 h.not_done).imp fun v _ hr =>
    let ⟨it', hres, hready⟩ := hr.next hxs h
    ⟨(it', v), hres, rfl, hready⟩

theorem elements_read (hdec : Decodes document n decode) {xs : List Item} (hxs : ∀ y ∈ xs, y.WF)
    (hn : ∀ y ∈ xs, y.bytes.length ≤ n) {fuel : Nat} (hf : xs.length < fuel) {it : CborValue}
    (h : Ready len false rest xs it) (acc : List FieldValue) :
    Reads ((acc ++ ·) <$> readItems document xs)
      (whileNotAtEnd .outOfFuel (decodeElement decode) fuel it acc)
      fun v res => ∃ it', res = .ok (it', v) ∧ Ready len false rest [] it' := by
  induction xs generalizing it acc fuel with
  | nil =>
    obtain ⟨fuel, rfl⟩ : ∃ k, fuel = k + 1 := ⟨fuel - 1, by simp at hf; omega⟩
    rw [whileNotAtEnd_done h.1]
    exact ⟨it, by simp, h⟩
  | cons x xs ih =>
    obtain ⟨fuel, rfl⟩ : ∃ k, fuel = k + 1 := ⟨fuel - 1, by simp at hf; omega⟩
    have hxs' := fun y hy => hxs y (List.mem_cons_of_mem x hy)
    have hstep := hdec.next (hxs x (by simp)) (hn x (by simp)) hxs' h
    rw [whileNotAtEnd_step h.not_done]
    simp only [readItems, map_bind, decodeElement, bind_assoc, pure_bind]
    refine hstep.bind fun v b hb => ?_
    obtain ⟨it', v'⟩ := b
    obtain ⟨rfl, hready⟩ := hb
    have htail := ih hxs' (fun y hy => hn y (List.mem_cons_of_mem x hy)) (by simpa using hf) hready
      (acc ++ [v'])
    simpa only [map_pure, List.append_assoc, List.singleton_append, bind_pure_comp,
      Functor.map_map] using htail

theorem entries_read (hdec : Decodes document n decode) {es : List (Item × Item)}
    (hk : ∀ e ∈ es, e.1.WF) (hv : ∀ e ∈ es, e.2.WF) (hn : ∀ e ∈ es, e.2.bytes.length ≤ n)
    {fuel : Nat} (hf : es.length < fuel) {it : CborValue}
    (h : Ready len true rest (flatten es) it) (acc : MapFieldValue) :
    Reads (readEntries document acc es)
      (whileNotAtEnd .outOfFuel (decodeEntry decode) fuel it acc)
      fun v res => ∃ it', res = .ok (it', v) ∧ Ready len true rest [] it' := by
  induction es generalizing it acc fuel with
  | nil =>
    obtain ⟨fuel, rfl⟩ : ∃ k, fuel = k + 1 := ⟨fuel - 1, by simp at hf; omega⟩
    rw [whileNotAtEnd_done h.1]
    exact ⟨it, by simp, h⟩
  | cons e es ih =>
    obtain ⟨fuel, rfl⟩ : ∃ k, fuel = k + 1 := ⟨fuel - 1, by simp at hf; omega⟩
    obtain ⟨k, v⟩ := e
    have hk' := fun e he => hk e (List.mem_cons_of_mem _ he)
    have hv' := fun e he => hv e (List.mem_cons_of_mem _ he)
    have hn' := fun e he => hn e (List.mem_cons_of_mem _ he)
    have hwf := Item.WF.flatten hk' hv'
    have hvwf : v.WF := hv (k, v) (by simp)
    have htype := h.1.shows.type
    rw [whileNotAtEnd_step h.not_done]
    have hrefuse : (∀ s, k ≠ .str true s) → decodeEntry decode it acc = .error .refused := by
      intro hne
      have : (it.type == .textString) = false := by
        rw [htype]
        cases k with
        | str text s => cases text <;> simp_all [itemType]
        | prim w n =>
          cases w with
          | tiny => rcases primType_tiny n with h | h | h | h <;> simp [itemType, h]
          | _ => rfl
        | _ => rfl
      rw [decodeEntry, this]
      rfl
    cases k with
    | str text s =>
      cases text with
      | false =>
        rw [hrefuse (by simp)]
        exact ⟨_, rfl⟩
      | true =>
        have hs : s.WF := by
          have := hk (.str true s, v) (by simp)
          cases this with
          | str hs => exact hs
        obtain ⟨next, hc, hdup⟩ := dupString_item hs h.1
        have htail : ∀ y ∈ v :: flatten es, y.WF := by simpa [hvwf] using hwf
        obtain ⟨it', rfl, hready⟩ := h.next htail hc
        have htext : (it.type == .textString) = true := by simp [htype, itemType]
        have hkey : decodeEntry decode it acc =
            (decode it' >>= fun p => pure (p.1, emplace acc s.content p.2)) := by
          rw [decodeEntry, htext, hdup]
          rfl
        rw [hkey]
        simp only [readEntries, bind_assoc, pure_bind]
        refine (hdec.next hvwf (hn (.str true s, v) (by simp)) hwf hready).bind fun value b hb => ?_
        obtain ⟨it'', value'⟩ := b
        obtain ⟨rfl, hready⟩ := hb
        exact ih hk' hv' hn' (by simpa using hf) hready _
    | _ =>
      rw [hrefuse (by simp)]
      exact ⟨_, rfl⟩

theorem array_lengths (len : Option Width) (xs : List Item) :
    (bytesAll xs).length < (Item.array len xs).bytes.length := by
  cases len with
  | none =>
    simp only [Item.bytes, opening, closing, List.length_append, List.length_cons, List.length_nil]
    omega
  | some w =>
    simp only [Item.bytes, opening, closing, List.length_append, List.length_nil, head_length]
    omega

theorem map_lengths (len : Option Width) (es : List (Item × Item)) :
    (bytesEntries es).length < (Item.map len es).bytes.length := by
  cases len with
  | none =>
    simp only [Item.bytes, opening, closing, List.length_append, List.length_cons, List.length_nil]
    omega
  | some w =>
    simp only [Item.bytes, opening, closing, List.length_append, List.length_nil, head_length]
    omega

theorem decodeArray_reads (hdec : Decodes document n decode) {xs : List Item} {it : CborValue}
    (h : (Item.array len xs).WF) (hn : (Item.array len xs).bytes.length ≤ n + 1)
    (hat : AtItem (.array len xs) rest it) (hs : tooMany false len xs.length = false)
    (f : List FieldValue → FieldValue) :
    Reads (do return f (← readItems document xs))
      (do
        let (it, items) ← decodeArray decode it
        return (it, f items))
      (ConsumedAs it rest) := by
  have hxs := array_items h
  have hlen := array_lengths len xs
  have hfuel : xs.length < it.src.length + 1 := by
    have := length_le_bytesAll hxs
    simp only [hat.src, List.length_append]
    omega
  have hsmall : ∀ y ∈ xs, y.bytes.length ≤ n := by
    intro y hy
    have := length_lt_bytesAll hy
    omega
  have hrun := container_reads (array_not_tag hat) (enter_small h hat hs)
    (fun r hr => elements_read hdec hxs hsmall hfuel hr []) f
  simpa only [decodeArray, List.nil_append, id_map', bind_assoc, pure_bind] using hrun

theorem tag_item {w : Width} {t : Nat} {x : Item} (h : (Item.tag w t x).WF) : x.WF := by
  cases h with
  | tag _ hx => exact hx

theorem map_entries {es : List (Item × Item)} (h : (Item.map len es).WF) :
    (∀ e ∈ es, e.1.WF) ∧ ∀ e ∈ es, e.2.WF := by
  cases h with
  | map _ hk hv => exact ⟨hk, hv⟩

theorem length_le_bytesEntries {es : List (Item × Item)} {e : Item × Item} (h : e ∈ es) :
    e.2.bytes.length ≤ (bytesEntries es).length := by
  induction es with
  | nil => cases h
  | cons e' es ih =>
    simp only [bytesEntries, List.length_append]
    rcases List.mem_cons.mp h with rfl | h
    · omega
    · have := ih h
      omega

theorem decodeMap_reads (hdec : Decodes document n decode) {es : List (Item × Item)}
    {it : CborValue} (h : (Item.map len es).WF) (hn : (Item.map len es).bytes.length ≤ n + 1)
    (hat : AtItem (.map len es) rest it) (hs : tooMany true len es.length = false) :
    Reads (readEntries document [] es) (decodeMap decode it) (ConsumedAs it rest) := by
  obtain ⟨hk, hv⟩ := map_entries h
  have hlen := map_lengths len es
  have hflat := length_le_bytesAll (Item.WF.flatten hk hv)
  rw [flatten_length, bytesAll_flatten] at hflat
  have hfuel : es.length < it.src.length + 1 := by
    simp only [hat.src, List.length_append]
    omega
  have hsmall : ∀ e ∈ es, e.2.bytes.length ≤ n := by
    intro e he
    have := length_le_bytesEntries he
    omega
  have hnt : it.type ≠ .tag := by simp [hat.shows.type, itemType]
  have hrun := container_reads hnt
    (enter_map h hat fun hl => by simpa [tooMany, hl] using hs)
    (fun r hr => entries_read hdec hk hv hsmall hfuel hr []) id
  simpa only [bind_pure, decodeMap, id_eq] using hrun

end Loops

/-- A definite array of too many elements is refused wherever it is entered. -/
theorem enter_refused (isMap : Bool) {len : Option Width} {n : Nat} {it : CborValue}
    (hs : tooMany isMap len n = true)
    (hshow : Shows (containerType isMap) len (if len.isSome then n else 31) false it) :
    checked (cborValueEnterContainer it) = .error .refused := by
  simp only [tooMany, Bool.and_eq_true, decide_eq_true_eq] at hs
  obtain ⟨w, rfl⟩ := Option.isSome_iff_exists.mp hs.1
  rw [enter_tooLarge hs.2 hshow]
  rfl

theorem decodeReference_reads {document : Document} {x : Item} {rest : Bytes} {it : CborValue}
    (hx : x.WF) (hat : AtItem x rest it) :
    Reads (readReference document x) (decodeReference document it) (ConsumedAs it rest) := by
  cases x with
  | str text s =>
    cases text with
    | false => trivial
    | true =>
      have hs : s.WF := by
        cases hx with
        | str hs => exact hs
      obtain ⟨next, hc, hdup⟩ := dupString_item hs hat
      have hrun : decodeReference document it =
          ((checked next).map fun it' => (s.content, it')) >>= fun p =>
            if document p.1 then pure (p.2, .reference p.1) else .error .threw := by
        rw [decodeReference, hdup, checked_map]
      rw [readReference, hrun]
      cases hd : document s.content with
      | true =>
        refine ⟨next, hc, ?_⟩
        cases next with
        | error e => rfl
        | ok it' =>
          show (if document s.content = true then _ else _) = _
          rw [hd]
          rfl
      | false =>
        cases next with
        | error e => exact ⟨.refused, rfl⟩
        | ok it' =>
          refine ⟨.threw, ?_⟩
          show (if document s.content = true then _ else _) = _
          rw [hd]
          rfl
  | _ => trivial

theorem decodeNull_reads {value : FieldValue} {x : Item} {rest : Bytes} {it : CborValue}
    (hx : x.WF) (hat : AtItem x rest it) (h0 : it.remaining ≠ 0) :
    Reads (readNull value x)
      (do
        let it ← checked (cborValueAdvance it)
        return (it, value))
      (ConsumedAs it rest) := by
  unfold readNull
  split
  · have hfixed : isFixedType it.type = true := by
      rw [hat.shows.type]
      exact (primType_fixed .tiny 22).1
    rw [advance_fixed h0 hfixed, checked_bind]
    exact ⟨_, advance_prim hx hat, rfl⟩
  · trivial

theorem fixedValue_reads {rest : Bytes} {it : CborValue} {v : FieldValue}
    (hc : Consumed it rest (advanceInternal it)) (h0 : it.remaining ≠ 0) :
    ConsumedAs it rest v (fixedValue it v) := by
  rw [fixedValue, advanceFixed_eq h0, checked_bind]
  exact ⟨_, hc, rfl⟩

theorem getBoolean_prim {w : Width} {n : Nat} {rest : Bytes} {it : CborValue}
    (ht : primType w n = .boolean) (hat : AtItem (.prim w n) rest it) :
    cborValueGetBoolean it = (n ≠ 20 : Bool) := by
  have hw : w = .tiny := by
    cases w <;> simp [primType] at ht ⊢
  subst hw
  have hn : extractInt64Helper it = if n = 20 then 0 else n := by
    simpa [itemNumber] using hat.shows.number
  have hl : it.tooLarge = false := hat.shows.tooLarge
  simp only [extractInt64Helper, hl, Bool.false_eq_true, if_false] at hn
  have h21 : n = 20 ∨ n = 21 := by
    by_contra hne
    simp only [primType, if_neg hne] at ht
    split at ht
    · cases ht
    · split at ht <;> cases ht
  rcases h21 with rfl | rfl <;> simp [cborValueGetBoolean, hn]

theorem ConsumedAs.of_frame {α : Type} {rest : Bytes} {it it' : CborValue} {v : α}
    {res : Except Failure (CborValue × α)} (hf : SameFrame it' it) (h : ConsumedAs it' rest v res) :
    ConsumedAs it rest v res := by
  obtain ⟨next, ⟨last, hl, ht, hs, hn⟩, hres⟩ := h
  exact ⟨next, ⟨last, hl.trans hf, ht, hs, hn⟩, hres⟩

theorem Reads.map {α β : Type} {reading : Reading α} {rest : Bytes} {it : CborValue}
    {res : Except Failure (CborValue × α)} (h : Reads reading res (ConsumedAs it rest))
    (f : α → β) :
    Reads (do return f (← reading))
      (do
        let (it, v) ← res
        return (it, f v))
      (ConsumedAs it rest) := by
  cases reading with
  | error e =>
    cases e with
    | unchecked => trivial
    | fails =>
      obtain ⟨e, rfl⟩ := h
      exact ⟨e, rfl⟩
  | ok v =>
    obtain ⟨next, hc, rfl⟩ := h
    refine ⟨next, hc, ?_⟩
    cases next <;> rfl

/-- The branches of decodeValue for the types of major type 7. -/
def decodePrim (it : CborValue) : CborType → Except Failure (CborValue × FieldValue)
  | .null => fixedValue it .null
  | .boolean => fixedValue it (.boolean (cborValueGetBoolean it))
  | .double | .float | .halfFloat => do
    let d ← readCborDouble it
    fixedValue it (.double d)
  | _ => .error .refused

theorem readPrim_reads {w : Width} {k : Nat} {rest : Bytes} {it : CborValue}
    (hat : AtItem (.prim w k) rest it) (hc : ∀ v, ConsumedAs it rest v (fixedValue it v)) :
    Reads (readPrim w k) (decodePrim it (primType w k)) (ConsumedAs it rest) := by
  have hfloat : Reads (do return FieldValue.double (← readDouble (.prim w k)))
      (do
        let d ← readCborDouble it
        fixedValue it (.double d))
      (ConsumedAs it rest) := by
    refine ((readCborDouble_item hat).imp (g := fun d r => ∃ b, r = .ok b ∧ b = d)
      (fun d r hr => ⟨d, hr, rfl⟩)).bind fun d b hb => ?_
    subst hb
    exact hc _
  unfold readPrim
  cases ht : primType w k with
  | null => exact hc .null
  | boolean =>
    rw [decodePrim, getBoolean_prim ht hat]
    exact hc _
  | double => exact hfloat
  | float => exact hfloat
  | halfFloat => exact hfloat
  | _ => exact ⟨_, rfl⟩

section Tags

variable {document : Document} {n : Nat} {decode : Decoder} {rest : Bytes} {it : CborValue}

/-- A container that is refused makes the whole decoding fail. -/
theorem refused_bind {α β : Type} {r : Except CborError α} {f : α → Except Failure β}
    (h : checked r = .error .refused) : ∃ e, (checked r >>= f) = .error e := by
  rw [h]
  exact ⟨_, rfl⟩

theorem decodeArrayTag_reads (hdec : Decodes document n decode) {t : Nat} {len : Option Width}
    {xs : List Item} (h : (Item.array len xs).WF) (hn : (Item.array len xs).bytes.length ≤ n + 1)
    (hat : AtItem (.array len xs) rest it) (h1 : t ≠ tagDelete) (h2 : t ≠ tagServerTimestamp)
    (h3 : t ≠ tagReference) :
    Reads (if tooMany false len xs.length then .fails
        else readArrayTag t xs (readItems document xs))
      (decodePayload document decode t it) (ConsumedAs it rest) := by
  have harray : (it.type == .array) = true := by simp [hat.shows.type, itemType]
  simp only [decodePayload, harray, if_neg h1, if_neg h2, if_neg h3, if_true, readArrayTag]
  by_cases hs : tooMany false len xs.length = true
  · rw [if_pos hs]
    have href := enter_refused false hs hat.shows
    split_ifs
    · exact refused_bind href
    · exact refused_bind href
    · exact refused_bind href
    · exact refused_bind href
    · rw [decodeArray, href]
      exact ⟨_, rfl⟩
    · rw [decodeArray, href]
      exact ⟨_, rfl⟩
    · exact ⟨_, rfl⟩
  · rw [if_neg hs]
    have hs : tooMany false len xs.length = false := by simpa using hs
    split_ifs
    · exact decodeTimestamp_reads h hat hs
    · exact decodeGeoPoint_reads h hat hs
    · exact decodeIncrementInt_reads h hat hs
    · exact decodeIncrementDouble_reads h hat hs
    · exact decodeArray_reads hdec h hn hat hs .arrayUnion
    · exact decodeArray_reads hdec h hn hat hs .arrayRemove
    · exact ⟨_, rfl⟩

theorem decodePayload_reads (hdec : Decodes document n decode) {t : Nat} {x : Item} (hx : x.WF)
    (hn : x.bytes.length ≤ n + 1) (hat : AtItem x rest it) (h0 : it.remaining ≠ 0)
    {items : Reading (List FieldValue)}
    (hitems : ∀ len xs, x = .array len xs → items = readItems document xs) :
    Reads (readPayload document t x items) (decodePayload document decode t it)
      (ConsumedAs it rest) := by
  unfold readPayload
  by_cases h1 : t = tagDelete
  · rw [if_pos h1, decodePayload, if_pos h1]
    exact decodeNull_reads hx hat h0
  by_cases h2 : t = tagServerTimestamp
  · rw [if_neg h1, if_pos h2, decodePayload, if_neg h1, if_pos h2]
    exact decodeNull_reads hx hat h0
  by_cases h3 : t = tagReference
  · have hrun : decodePayload document decode t it = decodeReference document it := by
      subst h3
      rfl
    rw [if_neg h1, if_neg h2, if_pos h3, hrun]
    exact decodeReference_reads hx hat
  rw [if_neg h1, if_neg h2, if_neg h3]
  by_cases harray : ∃ len xs, x = .array len xs
  · obtain ⟨len, xs, rfl⟩ := harray
    rw [hitems len xs rfl]
    exact decodeArrayTag_reads hdec hx hn hat h1 h2 h3
  · have htype : (it.type == .array) = false := by
      rw [hat.shows.type]
      cases x with
      | array len xs => exact absurd ⟨len, xs, rfl⟩ harray
      | str text s => cases text <;> rfl
      | prim w n =>
        cases w with
        | tiny => rcases primType_tiny n with h | h | h | h <;> simp [itemType, h]
        | _ => rfl
      | _ => rfl
    have hrun : decodePayload document decode t it = .error .refused := by
      simp only [decodePayload, htype, if_neg h1, if_neg h2, if_neg h3, Bool.false_eq_true,
        if_false, ite_self]
    rw [hrun]
    split
    · next len xs => exact absurd ⟨len, xs, rfl⟩ harray
    · exact ⟨_, rfl⟩

/-- The tagged item is decoded where the cursor stands after the tag. -/
theorem decodeTagged_reads (hdec : Decodes document n decode) {w : Width} {t : Nat} {x : Item}
    (hx : (Item.tag w t x).WF) (hn : (Item.tag w t x).bytes.length ≤ n + 1)
    (hat : AtItem (.tag w t x) rest it) (h0 : it.remaining ≠ 0)
    {items : Reading (List FieldValue)}
    (hitems : ∀ len xs, x = .array len xs → items = readItems document xs) :
    Reads (readPayload document t x items) (decodeTagged document decode it)
      (ConsumedAs it rest) := by
  obtain ⟨it', hadv, hf, hat'⟩ := advance_tag hx hat
  have htag : cborValueGetTag it = t := hat.shows.number
  have hxwf : x.WF := by
    cases hx with
    | tag _ hx => exact hx
  have hxn : x.bytes.length ≤ n + 1 := by
    simp only [Item.bytes, List.length_append] at hn
    omega
  rw [decodeTagged, advanceFixed_eq h0, hadv, htag]
  exact (decodePayload_reads hdec hxwf hxn hat' (by rwa [hf.remaining]) hitems).imp
    fun _ _ => ConsumedAs.of_frame hf

end Tags

/-- The decoder bears out the reading of every well-formed item. -/
theorem decodeValue_reads (document : Document) (n : Nat) :
    Decodes document n (decodeValue document n) := by
  induction n with
  | zero =>
    intro x rest it hx hn
    have := hx.length_pos
    omega
  | succ n ih =>
    intro x rest it hx hn hat h0
    have ht := hat.shows.type
    rw [decodeValue]
    cases x with
    | int neg w k =>
      simp only [ht, itemType, readItem, getInt64_item hat]
      exact fixedValue_reads (advance_int hx hat) h0
    | str text s =>
      have hs : s.WF := by
        cases hx with
        | str hs => exact hs
      obtain ⟨next, hc, hdup⟩ := dupString_item hs hat
      cases text with
      | true =>
        simp only [ht, itemType, if_true, readItem, hdup]
        refine ⟨next, hc, ?_⟩
        cases next <;> rfl
      | false =>
        simp only [ht, itemType, Bool.false_eq_true, if_false, readItem, hdup]
        refine ⟨next, hc, ?_⟩
        cases next <;> rfl
    | array len xs =>
      simp only [ht, itemType, readItem]
      by_cases hs : tooMany false len xs.length = true
      · rw [if_pos hs, decodeArray, enter_refused false hs hat.shows]
        exact ⟨_, rfl⟩
      · rw [if_neg hs]
        exact decodeArray_reads ih hx hn hat (by simpa using hs) .array
    | map len es =>
      simp only [ht, itemType, readItem]
      by_cases hs : tooMany true len es.length = true
      · rw [if_pos hs, decodeMap, enter_refused true hs hat.shows]
        exact ⟨_, rfl⟩
      · rw [if_neg hs]
        exact (decodeMap_reads ih hx hn hat (by simpa using hs)).map FieldValue.map
    | tag w t y =>
      simp only [ht, itemType]
      cases y with
      | array len xs =>
        simp only [readItem]
        exact decodeTagged_reads ih hx hn hat h0 (fun _ _ he => by cases he; rfl)
      | _ =>
        simp only [readItem]
        exact decodeTagged_reads ih hx hn hat h0 (fun _ _ he => by cases he)
    | prim w k =>
      have hc := fun v => fixedValue_reads (v := v) (advance_prim hx hat) h0
      simp only [ht, itemType, readItem]
      have hprim := readPrim_reads hat hc
      rcases primType_cases w k with h | h | h | h | h | h | h <;> rw [h] at hprim ⊢ <;> exact hprim

def readDocument (document : Document) (len : Option Width) (es : List (Item × Item)) :
    Reading MapFieldValue :=
  if tooMany true len es.length then .fails else readEntries document [] es

/-- The parser starts at the item its input starts with. -/
theorem parserInit_item {x : Item} (rest : Bytes) (h : x.WF) :
    ∃ it, cborParserInit (x.bytes ++ rest) = .ok it ∧ Ready (some .tiny) false rest [x] it := by
  obtain ⟨it, hinit, hf, hat⟩ := preparse_item
    { src := x.bytes ++ rest, remaining := 1, extra := 0, type := .invalid
      is64Bit := false, tooLarge := false, negativeInteger := false
      beforeFirstStringChunk := false, unknownLength := false, containerIsMap := false
      nextIsMapKey := false } h rfl
  refine ⟨it, hinit, by simpa [bytesAll, closing] using hat, hf.remaining, ?_, hf.containerIsMap, ?_⟩
  · intro _
    simp [uint32Max]
  · intro hm
    cases hm

/-- ParseDocumentCbor bears out the reading of the map its input starts with. -/
theorem parseDocumentCbor_reads (document : Document) {len : Option Width}
    {es : List (Item × Item)} (rest : Bytes) (h : (Item.map len es).WF) :
    Reads (readDocument document len es)
      (parseDocumentCbor document ((Item.map len es).bytes ++ rest)) fun m r => r = .ok m := by
  obtain ⟨it, hinit, hready⟩ := parserInit_item rest h
  have hat := hready.1
  have hmap : (it.type == .map) = true := by simp [hat.shows.type, itemType]
  rw [parseDocumentCbor, hinit]
  simp only [checked, bind, Except.bind, hmap, if_true]
  unfold readDocument
  by_cases hs : tooMany true len es.length = true
  · rw [if_pos hs, decodeMap, enter_refused true hs hat.shows]
    exact ⟨_, rfl⟩
  · rw [if_neg hs]
    have hdec := decodeValue_reads document ((Item.map len es).bytes ++ rest).length
    have hrun := decodeMap_reads hdec h (by simp only [List.length_append]; omega) hat
      (by simpa using hs)
    cases hr : readEntries document [] es with
    | error e =>
      rw [hr] at hrun
      cases e with
      | unchecked => trivial
      | fails =>
        obtain ⟨f, hf⟩ := hrun
        exact ⟨f, by rw [hf]⟩
    | ok m =>
      rw [hr] at hrun
      obtain ⟨it', hres, -⟩ := ConsumedAs.next (by simp) hready hrun
      show _ = _
      rw [hres]
      rfl

/-- DecodeValue on the first item of a buffer. -/
def decodeFirst (document : Document) (cbor : Bytes) : Except Failure FieldValue := do
  let it ← checked (cborParserInit cbor)
  let (_, v) ← decodeValue document cbor.length it
  return v

theorem decodeFirst_reads (document : Document) {x : Item} (rest : Bytes) (h : x.WF) :
    Reads (readItem document x) (decodeFirst document (x.bytes ++ rest)) fun v r => r = .ok v := by
  obtain ⟨it, hinit, hready⟩ := parserInit_item rest h
  have hdec := decodeValue_reads document (x.bytes ++ rest).length
  have hrun := hdec h (by simp) hready.1 hready.not_done
  rw [decodeFirst, hinit]
  simp only [checked, bind, Except.bind]
  cases hr : readItem document x with
  | error e =>
    rw [hr] at hrun
    cases e with
    | unchecked => trivial
    | fails =>
      obtain ⟨f, hf⟩ := hrun
      exact ⟨f, by rw [hf]⟩
  | ok v =>
    rw [hr] at hrun
    obtain ⟨it', hres, -⟩ := ConsumedAs.next (by simp) hready hrun
    show _ = _
    rw [hres]
    rfl

end Firestore
