import FirebaseFfi.Tinycbor.Cursor

namespace Tinycbor
open Cbor

/-- A cursor inside a container that has `n` items left, the one it shows included. -/
structure Inside (len : Option Width) (isMap : Bool) (n : Nat) (it : CborValue) : Prop where
  remaining : it.remaining = if len.isNone then uint32Max else n
  small : len.isSome → n < uint32Max
  containerIsMap : it.containerIsMap = isMap
  nextIsMapKey : isMap → it.nextIsMapKey = decide (n % 2 = 1)

/-- The state a loop over a container is in when the items `xs` are left, with
`rest` after the container. -/
def Ready (len : Option Width) (isMap : Bool) (rest : Bytes) : List Item → CborValue → Prop
  | [], it => it.remaining = 0 ∧ it.unknownLength = len.isNone ∧ it.src = closing len ++ rest
  | x :: xs, it =>
    AtItem x (bytesAll xs ++ closing len ++ rest) it ∧ Inside len isMap (xs.length + 1) it

/-- `r` is what moving on to `rest` gives after an item has been read. -/
def Consumed (it : CborValue) (rest : Bytes) (r : Except CborError CborValue) : Prop :=
  ∃ last, SameFrame last it ∧ last.type ≠ .tag ∧ last.src = rest ∧ preparseNextValue last = r

theorem Inside.of_frame {len : Option Width} {isMap : Bool} {n : Nat} {it it' : CborValue}
    (h : Inside len isMap n it) (hf : SameFrame it' it) : Inside len isMap n it' :=
  ⟨hf.remaining.trans h.remaining, h.small, hf.containerIsMap.trans h.containerIsMap,
    fun hm => hf.nextIsMapKey.trans (h.nextIsMapKey hm)⟩

theorem Inside.not_done {len : Option Width} {isMap : Bool} {n : Nat} {it : CborValue}
    (h : Inside len isMap (n + 1) it) : it.remaining ≠ 0 := by
  rw [h.remaining]
  split
  · decide
  · omega

theorem Ready.not_done {len : Option Width} {isMap : Bool} {rest : Bytes} {x : Item}
    {xs : List Item} {it : CborValue} (h : Ready len isMap rest (x :: xs) it) :
    it.remaining ≠ 0 := h.2.not_done

theorem head_not_break {x : Item} (h : x.WF) (tail : Bytes) :
    (x.bytes ++ tail).head? ≠ some breakByte := by
  obtain ⟨b, bs, he, hne, -⟩ := h.not_break tail
  rw [he]
  simpa using hne

/-- Inside a container the parser finds the next item, or the end. -/
theorem nodecrement_item (it : CborValue) (rest : Bytes) {x : Item} (h : x.WF)
    (hsrc : it.src = x.bytes ++ rest) :
    ∃ r, preparseNextValueNodecrement it = .ok r ∧ SameFrame r it ∧ AtItem x rest r := by
  have hnot : ¬ (it.remaining = uint32Max ∧ it.src.head? = some breakByte) := by
    rintro ⟨-, hb⟩
    rw [hsrc] at hb
    exact head_not_break h rest hb
  rw [preparseNextValueNodecrement, if_neg hnot]
  exact preparse_item it h hsrc

/-- The first preparse of a container, with the count or the flag set up. -/
theorem nodecrement_ready {len : Option Width} {isMap : Bool} {rest : Bytes} {xs : List Item}
    {it : CborValue} (hxs : ∀ x ∈ xs, x.WF) (hin : Inside len isMap xs.length it)
    (hne : len.isSome → xs ≠ []) (ht : it.type ≠ .tag)
    (hsrc : it.src = bytesAll xs ++ closing len ++ rest) :
    ∃ r, preparseNextValueNodecrement it = .ok r ∧ Ready len isMap rest xs r := by
  cases xs with
  | nil =>
    cases len with
    | some w => exact absurd rfl (hne rfl)
    | none =>
      have hb : it.remaining = uint32Max ∧ it.src.head? = some breakByte := by
        refine ⟨by simpa using hin.remaining, ?_⟩
        rw [hsrc]
        rfl
      have hkey : ¬ ((it.containerIsMap && it.nextIsMapKey) || it.type == .tag) = true := by
        simp only [Bool.or_eq_true, Bool.and_eq_true, beq_iff_eq, not_or, not_and]
        refine ⟨fun hm hk => ?_, ht⟩
        rw [hin.containerIsMap] at hm
        rw [hin.nextIsMapKey hm] at hk
        simp at hk
      rw [preparseNextValueNodecrement, if_pos hb, if_neg hkey]
      exact ⟨_, rfl, rfl, rfl, by simpa [bytesAll] using hsrc⟩
  | cons x xs =>
    obtain ⟨r, hr, hf, hat⟩ := nodecrement_item it (bytesAll xs ++ closing len ++ rest)
      (hxs x (by simp)) (by simp [hsrc, bytesAll])
    exact ⟨r, hr, hat, hin.of_frame hf⟩

theorem decr32_succ {n : Nat} (h : n < uint32Max) : decr32 (n + 1) = n := by
  unfold decr32 uint32Max at *
  omega

/-- Moving on inside a container leaves one item less. -/
theorem Consumed.next {len : Option Width} {isMap : Bool} {rest : Bytes} {n : Nat} {xs : List Item}
    {it : CborValue} {r : Except CborError CborValue} (hxs : ∀ x ∈ xs, x.WF)
    (hin : Inside len isMap n it) (hn : n = xs.length + 1)
    (h : Consumed it (bytesAll xs ++ closing len ++ rest) r) :
    ∃ it', r = .ok it' ∧ Ready len isMap rest xs it' := by
  obtain ⟨last, hf, ht, hsrc, rfl⟩ := h
  have hin := hin.of_frame hf
  subst hn
  rw [preparseNextValue, if_neg ht]
  have hrem : (if last.remaining = uint32Max then uint32Max else decr32 last.remaining) =
      if len.isNone then uint32Max else xs.length := by
    rw [hin.remaining]
    cases len with
    | none => simp
    | some w =>
      have := hin.small rfl
      simp only [Option.isNone_some, Bool.false_eq_true, if_false]
      rw [if_neg (by omega), decr32_succ (by omega)]
  simp only [hrem]
  by_cases hlast : len.isSome ∧ xs = []
  · obtain ⟨hl, rfl⟩ := hlast
    obtain ⟨w, rfl⟩ := Option.isSome_iff_exists.mp hl
    exact ⟨_, rfl, rfl, rfl, by simpa [bytesAll] using hsrc⟩
  · have hpos : ¬ (if len.isNone then uint32Max else xs.length) = 0 := by
      cases len with
      | none => simp [uint32Max]
      | some w => simpa using hlast
    rw [if_neg hpos]
    refine nodecrement_ready hxs ⟨rfl, fun hl => ?_, hin.containerIsMap, fun hm => ?_⟩
      (fun hl he => hlast ⟨hl, he⟩) ht hsrc
    · have := hin.small hl
      omega
    · have := hin.nextIsMapKey hm
      simp only [this]
      rcases Nat.mod_two_eq_zero_or_one xs.length with h | h
      · simp [h, Nat.add_mod]
      · simp [h, Nat.add_mod]

theorem Ready.next {len : Option Width} {isMap : Bool} {rest : Bytes} {x : Item} {xs : List Item}
    {it : CborValue} {r : Except CborError CborValue} (hxs : ∀ x ∈ xs, x.WF)
    (h : Ready len isMap rest (x :: xs) it)
    (hr : Consumed it (bytesAll xs ++ closing len ++ rest) r) :
    ∃ it', r = .ok it' ∧ Ready len isMap rest xs it' := hr.next hxs h.2 rfl

/-- The number of a definite head and the bytes after it. -/
theorem extractNumberAndAdvance_head {it : CborValue} (m : Nat) (tail : Bytes) {w : Width} {n : Nat}
    (hm : m < 8) (hn : n < w.limit) (hsrc : it.src = head m w n ++ tail) :
    extractNumberAndAdvance it = (extractInt64Helper it, { it with src := tail }) := by
  have hi := w.info_lt n hn
  have hb := initial_toNat m w n hm hn
  have hmod : (m * 32 + w.info n) % 32 = w.info n := by omega
  have hdrop : it.src.drop (bytesNeeded (w.info n) + 1) = tail := by
    rw [bytesNeeded_info hn, hsrc, head]
    simp
  have hd : (it.src.headD 0).toNat = m * 32 + w.info n := by
    rw [hsrc, head]
    exact hb
  simp only [extractNumberAndAdvance, advanceBytes, hd, hmod, hdrop]

/-- Definite containers of more items than this are refused. -/
def countLimit (isMap : Bool) : Nat := if isMap then 2 ^ 31 else uint32Max

/-- How many items the parser counts for a container of `n` elements or entries. -/
def countedItems (isMap : Bool) (n : Nat) : Nat := if isMap then n * 2 else n

def containerType (isMap : Bool) : CborType := if isMap then .map else .array

def containerMajor (isMap : Bool) : Nat := if isMap then 5 else 4

theorem countedItems_lt {isMap : Bool} {n : Nat} (h : n < countLimit isMap) :
    countedItems isMap n < uint32Max := by
  unfold countLimit countedItems uint32Max at *
  cases isMap <;> simp at * <;> omega

theorem inside_recursed {it : CborValue} {src : Bytes} {len : Option Width} {isMap : Bool} {n : Nat}
    (ht : it.type = containerType isMap) (hs : len.isSome → n < countLimit isMap) :
    Inside len isMap (countedItems isMap n)
      (recursedFrom it src (if len.isNone then uint32Max else countedItems isMap n)) := by
  refine ⟨rfl, fun hl => countedItems_lt (hs hl), ?_, fun hm => ?_⟩
  · cases isMap <;> simp [recursedFrom, ht, containerType]
  · subst hm
    simp [recursedFrom, countedItems]

/-- Entering a container that is not too large leads to its first item. -/
theorem enter_ready {len : Option Width} {isMap : Bool} {n : Nat} {xs : List Item} {rest : Bytes}
    {it : CborValue} (hx : ∀ x ∈ xs, x.WF) (hcount : xs.length = countedItems isMap n)
    (hl : ∀ w, len = some w → n < w.limit) (hs : len.isSome → n < countLimit isMap)
    (hsrc : it.src = opening (containerMajor isMap) len n ++ (bytesAll xs ++ closing len ++ rest))
    (hshow : Shows (containerType isMap) len (if len.isSome then n else 31) false it) :
    ∃ r, cborValueEnterContainer it = .ok r ∧ Ready len isMap rest xs r := by
  have ht := hshow.type
  have hin : ∀ src, Inside len isMap xs.length
      (recursedFrom it src (if len.isNone then uint32Max else countedItems isMap n)) := by
    intro src
    rw [hcount]
    exact inside_recursed ht hs
  have hnt : ∀ src k, (recursedFrom it src k).type ≠ .tag := by
    intro src k
    cases isMap <;> simp [recursedFrom, ht, containerType]
  cases len with
  | none =>
    have hu : it.unknownLength = true := hshow.unknownLength
    rw [cborValueEnterContainer, if_pos hu]
    exact nodecrement_ready hx (hin _) (by simp) (hnt _ _) (by
      simp [recursedFrom, hsrc, opening])
  | some w =>
    have hu : ¬ it.unknownLength = true := by simp [hshow.unknownLength]
    have hnum : extractInt64Helper it = n := hshow.number
    have hsmall := hs rfl
    have hadv := extractNumberAndAdvance_head _ _ (by cases isMap <;> decide) (hl w rfl) hsrc
    have hfit : ¬ (n % 2 ^ 32 ≠ n ∨ n = uint32Max) := by
      unfold countLimit uint32Max at *
      cases isMap <;> simp at * <;> omega
    have hmap : ¬ ((it.type == .map) = true ∧ uint32Max / 2 < n) := by
      unfold countLimit uint32Max at *
      cases isMap
      · simp [ht, containerType]
      · simp [ht, containerType] at *
        omega
    have hitems : (if (it.type == .map) = true then n * 2 else n) = countedItems isMap n := by
      cases isMap <;> simp [ht, containerType, countedItems]
    rw [cborValueEnterContainer, if_neg hu, hadv]
    simp only [hnum, if_neg hfit, if_neg hmap, hitems]
    by_cases h0 : n = 0
    · subst h0
      have hnil : xs = [] := List.length_eq_zero_iff.mp (by simp [hcount, countedItems])
      subst hnil
      exact ⟨_, rfl, by simp [countedItems], by simpa using hu, by simp [bytesAll]⟩
    · rw [if_neg h0]
      refine nodecrement_ready hx (hin _) (fun _ he => ?_) (hnt _ _) (by simp [recursedFrom])
      subst he
      cases isMap
      · exact h0 hcount.symm
      · simp [countedItems] at hcount
        omega

/-- A definite container of too many elements is not entered. -/
theorem enter_tooLarge {w : Width} {isMap : Bool} {n : Nat} {it : CborValue}
    (h : countLimit isMap ≤ n)
    (hshow : Shows (containerType isMap) (some w) n false it) :
    cborValueEnterContainer it = .error .dataTooLarge := by
  have hu : ¬ it.unknownLength = true := by simp [hshow.unknownLength]
  have hnum : (extractNumberAndAdvance it).1 = n := hshow.number
  rw [cborValueEnterContainer, if_neg hu]
  simp only [hnum, hshow.type]
  by_cases hbig : n % 2 ^ 32 ≠ n ∨ n = uint32Max
  · rw [if_pos hbig]
  · have hmap : (containerType isMap == .map) = true ∧ uint32Max / 2 < n := by
      unfold countLimit uint32Max at *
      cases isMap
      · simp at *
        omega
      · simp [containerType] at *
        omega
    rw [if_neg hbig, if_pos hmap]

theorem enter_array {len : Option Width} {xs : List Item} {rest : Bytes} {it : CborValue}
    (h : (Item.array len xs).WF) (hat : AtItem (.array len xs) rest it)
    (hs : len.isSome → xs.length < countLimit false) :
    ∃ r, cborValueEnterContainer it = .ok r ∧ Ready len false rest xs r := by
  cases h with
  | array hl hx =>
    exact enter_ready hx rfl hl hs (by simp [hat.src, Item.bytes, containerMajor]) hat.shows

theorem enter_map {len : Option Width} {es : List (Item × Item)} {rest : Bytes} {it : CborValue}
    (h : (Item.map len es).WF) (hat : AtItem (.map len es) rest it)
    (hs : len.isSome → es.length < countLimit true) :
    ∃ r, cborValueEnterContainer it = .ok r ∧ Ready len true rest (flatten es) r := by
  cases h with
  | map hl hk hv =>
    exact enter_ready (Item.WF.flatten hk hv) (by simp [countedItems, Nat.mul_comm]) hl hs
      (by simp [hat.src, Item.bytes, containerMajor, bytesAll_flatten]) hat.shows

/-- Leaving a container whose items are all read consumes the container. -/
theorem leave_consumed {len : Option Width} {isMap : Bool} {rest : Bytes} {it recursed : CborValue}
    (h : Ready len isMap rest [] recursed) (ht : it.type ≠ .tag) :
    Consumed it rest (cborValueLeaveContainer it recursed) := by
  obtain ⟨-, hu, hsrc⟩ := h
  cases len with
  | none =>
    have hu : recursed.unknownLength = true := hu
    rw [cborValueLeaveContainer, if_pos hu]
    refine ⟨advanceBytes { it with src := recursed.src } 1, ⟨rfl, rfl, rfl⟩, ht, ?_, rfl⟩
    simp [advanceBytes, hsrc, closing]
  | some w =>
    have hu : ¬ recursed.unknownLength = true := by simp [hu]
    rw [cborValueLeaveContainer, if_neg hu]
    refine ⟨{ it with src := recursed.src }, ⟨rfl, rfl, rfl⟩, ht, ?_, rfl⟩
    simp [hsrc, closing]

/-- An item that is all head. -/
theorem advanceInternal_consumed {x : Item} {rest : Bytes} {it : CborValue} {m : Nat} {w : Width}
    {n : Nat} (hat : AtItem x rest it) (hx : x.bytes = head m w n) (hm : m < 8) (hn : n < w.limit)
    (hfixed : isFixedType it.type = true) (ht : it.type ≠ .tag) :
    Consumed it rest (advanceInternal it) := by
  have hadv := extractNumberAndAdvance_head _ _ hm hn (hat.src.trans (by rw [hx]))
  have hns : ¬ (it.type == .byteString || it.type == .textString) = true := by
    intro h
    simp only [Bool.or_eq_true, beq_iff_eq] at h
    rcases h with h | h <;> rw [h] at hfixed <;> cases hfixed
  rw [advanceInternal, hadv]
  simp only [if_neg hns]
  exact ⟨{ it with src := rest }, ⟨rfl, rfl, rfl⟩, ht, rfl, rfl⟩

theorem advance_int {neg : Bool} {w : Width} {n : Nat} {rest : Bytes} {it : CborValue}
    (h : (Item.int neg w n).WF) (hat : AtItem (.int neg w n) rest it) :
    Consumed it rest (advanceInternal it) := by
  have ht : it.type = .integer := hat.shows.type
  cases h with
  | int hn =>
    exact advanceInternal_consumed hat rfl (by cases neg <;> decide) hn (by simp [ht, isFixedType])
      (by simp [ht])

theorem primType_fixed (w : Width) (n : Nat) :
    isFixedType (primType w n) = true ∧ primType w n ≠ .tag := by
  cases w with
  | tiny =>
    simp only [primType]
    split
    · simp [isFixedType]
    split
    · simp [isFixedType]
    split
    · simp [isFixedType]
    · simp [isFixedType]
  | _ => simp [primType, isFixedType]

theorem advance_prim {w : Width} {n : Nat} {rest : Bytes} {it : CborValue}
    (h : (Item.prim w n).WF) (hat : AtItem (.prim w n) rest it) :
    Consumed it rest (advanceInternal it) := by
  have ht : it.type = primType w n := hat.shows.type
  have hfixed := primType_fixed w n
  cases h with
  | prim hn h1 =>
    exact advanceInternal_consumed hat rfl (by decide) hn (by rw [ht]; exact hfixed.1)
      (by rw [ht]; exact hfixed.2)

/-- Moving past a tag leads to the tagged item, in the same frame. -/
theorem advance_tag {w : Width} {t : Nat} {x : Item} {rest : Bytes} {it : CborValue}
    (h : (Item.tag w t x).WF) (hat : AtItem (.tag w t x) rest it) :
    ∃ r, advanceInternal it = .ok r ∧ SameFrame r it ∧ AtItem x rest r := by
  have ht : it.type = .tag := hat.shows.type
  cases h with
  | tag hn hx =>
    have hadv := extractNumberAndAdvance_head 6 (x.bytes ++ rest) (by decide) hn
      (hat.src.trans (by simp only [Item.bytes, List.append_assoc]))
    rw [advanceInternal, hadv]
    simp only [ht, preparseNextValue]
    obtain ⟨r, hr, hf, hat'⟩ := nodecrement_item { it with src := x.bytes ++ rest } rest hx rfl
    exact ⟨r, by simpa [ht] using hr, ⟨hf.remaining, hf.containerIsMap, hf.nextIsMapKey⟩, hat'⟩

/-- A chunk of the right kind is cut off when all of it is there. -/
theorem getStringChunk_at (it : CborValue) {m : Nat} {w : Width} {n : Nat} {tail : Bytes}
    (hm : m < 7) (hn : n < w.limit) (ht : it.type.code = m * 32)
    (hiter : it.unknownLength = true ∨ it.beforeFirstStringChunk = true)
    (hsrc : it.src = head m w n ++ tail) :
    getStringChunk it =
      if tail.length < n then .error .unexpectedEOF
      else .ok (tail.take n, { it with src := tail.drop n, beforeFirstStringChunk := false }) := by
  have hi := w.info_lt n hn
  have hbyte := initial_toNat m w n (by omega) hn
  have hdiv : (m * 32 + w.info n) / 32 * 32 = it.type.code := by omega
  have hmod : (m * 32 + w.info n) % 32 = w.info n := by omega
  have hmore : ¬ (cborValueIsLengthKnown it && !it.beforeFirstStringChunk) = true := by
    rcases hiter with h | h <;> simp [cborValueIsLengthKnown, h]
  have hne : ¬ UInt8.ofNat (m * 32 + w.info n) = breakByte := by
    intro h
    have := congrArg UInt8.toNat h
    rw [hbyte] at this
    have : breakByte.toNat = 255 := rfl
    omega
  have hlen : (if w.info n < 24 then w.info n else ofBe ((be w.size n ++ tail).take w.size)) = n := by
    by_cases hw : w = .tiny
    · subst hw
      exact if_pos hn
    · have h24 : ¬ w.info n < 24 := by cases w <;> simp [Width.info] at *
      rw [if_neg h24]
      simpa using ofBe_argument w n hn hw
  have hsrc' : it.src = UInt8.ofNat (m * 32 + w.info n) :: (be w.size n ++ tail) := by
    rw [hsrc, head]
    rfl
  rw [getStringChunk, if_neg hmore]
  simp only [hsrc', hbyte, hmod, hdiv, if_neg hne, if_neg (Nat.not_lt.mpr (Nat.le_of_lt_succ hi)),
    bytesNeeded_info hn, hlen, ne_eq, not_true_eq_false, if_false]
  simp

/-- A chunk of the right kind is cut off whole, whatever `rest` is. -/
theorem getStringChunk_head (it : CborValue) (rest : Bytes) {m : Nat} {w : Width} {b : Bytes} (hm : m < 7)
    (hb : b.length < w.limit) (ht : it.type.code = m * 32)
    (hiter : it.unknownLength = true ∨ it.beforeFirstStringChunk = true)
    (hsrc : it.src = head m w b.length ++ b ++ rest) :
    getStringChunk it = .ok (b, { it with src := rest, beforeFirstStringChunk := false }) := by
  rw [List.append_assoc] at hsrc
  rw [getStringChunk_at it hm hb ht hiter hsrc]
  simp

/-- At the end of a string no chunk is left. -/
theorem getStringChunk_done (it : CborValue)
    (h : it.unknownLength = false ∧ it.beforeFirstStringChunk = false ∨
      it.unknownLength = true ∧ ∃ rest, it.src = breakByte :: rest) :
    getStringChunk it = .error .noMoreStringChunks := by
  rcases h with ⟨hu, hb⟩ | ⟨hu, rest, hsrc⟩
  · simp [getStringChunk, cborValueIsLengthKnown, hu, hb]
  · simp [getStringChunk, cborValueIsLengthKnown, hu, hsrc]

theorem iterateStringChunks_chunks (it : CborValue) {m : Nat} {cs : List (Width × Bytes)}
    {rest : Bytes} {fuel : Nat} (hm : m < 7) (hcs : ∀ c ∈ cs, c.2.length < c.1.limit)
    (ht : it.type.code = m * 32) (hu : it.unknownLength = true)
    (hsrc : it.src = chunksBytes m cs ++ breakByte :: rest) (hf : cs.length < fuel) :
    ∃ before, iterateStringChunks fuel it = .ok (chunksContent cs,
      { it with src := breakByte :: rest, beforeFirstStringChunk := before }) := by
  induction cs generalizing it fuel with
  | nil =>
    obtain ⟨fuel, rfl⟩ : ∃ k, fuel = k + 1 := ⟨fuel - 1, by simp at hf; omega⟩
    have hdone := getStringChunk_done it (.inr ⟨hu, rest, by simpa [chunksBytes] using hsrc⟩)
    simp only [chunksBytes, List.nil_append] at hsrc
    refine ⟨it.beforeFirstStringChunk, ?_⟩
    simp only [iterateStringChunks, hdone, chunksContent, ← hsrc]
  | cons c cs ih =>
    obtain ⟨fuel, rfl⟩ : ∃ k, fuel = k + 1 := ⟨fuel - 1, by simp at hf; omega⟩
    have hchunk := getStringChunk_head it (chunksBytes m cs ++ breakByte :: rest) hm
      (hcs c (by simp)) ht (.inl hu) (by simpa [chunksBytes] using hsrc)
    obtain ⟨before, hrest⟩ := ih
      { it with src := chunksBytes m cs ++ breakByte :: rest, beforeFirstStringChunk := false }
      (fun d hd => hcs d (List.mem_cons_of_mem _ hd)) ht hu rfl (Nat.lt_of_succ_lt_succ hf)
    exact ⟨before, by simp only [iterateStringChunks, hchunk, hrest, chunksContent]⟩

theorem length_le_chunksBytes (m : Nat) (cs : List (Width × Bytes)) :
    cs.length ≤ (chunksBytes m cs).length := by
  induction cs with
  | nil => simp
  | cons c cs ih =>
    simp only [chunksBytes, List.length_append, List.length_cons, head_length]
    omega

theorem dupString_iterate {it it' : CborValue} {content : Bytes}
    (h : iterateStringChunks (it.src.length + 2) (beginStringIteration it) = .ok (content, it')) :
    cborValueDupString it =
      (finishStringIteration it').map fun next => (content, next) := by
  rw [cborValueDupString, h]
  simp only
  cases finishStringIteration it' <;> rfl

/-- A string is duplicated whole, in one piece or in chunks. -/
theorem dupString_item {text : Bool} {s : Str} {rest : Bytes} {it : CborValue} (h : s.WF)
    (hat : AtItem (.str text s) rest it) :
    ∃ r, Consumed it rest r ∧ cborValueDupString it = r.map fun it' => (s.content, it') := by
  have ht : it.type = if text then .textString else .byteString := hat.shows.type
  have hcode : it.type.code = strMajor text * 32 := by cases text <;> simp [ht, CborType.code, strMajor]
  have hnt : it.type ≠ .tag := by cases text <;> simp [ht]
  have hm := strMajor_lt text
  cases s with
  | plain w b =>
    have hu : it.unknownLength = false := hat.shows.unknownLength
    have hbegin : beginStringIteration it = { it with beforeFirstStringChunk := true } := by
      rw [beginStringIteration, if_pos (by simpa [cborValueIsLengthKnown] using hu)]
    have hchunk := getStringChunk_head { it with beforeFirstStringChunk := true } rest
      hm h hcode (.inr rfl) (by simp [hat.src, Item.bytes])
    have hdone := getStringChunk_done
      { it with src := rest, beforeFirstStringChunk := false } (.inl ⟨hu, rfl⟩)
    have hiter : iterateStringChunks (it.src.length + 2) (beginStringIteration it) =
        .ok (b, { it with src := rest, beforeFirstStringChunk := false }) := by
      rw [hbegin]
      simp only [iterateStringChunks, hchunk, hdone, List.append_nil]
    rw [dupString_iterate hiter, finishStringIteration,
      if_pos (by simpa [cborValueIsLengthKnown] using hu)]
    exact ⟨_, ⟨{ it with src := rest, beforeFirstStringChunk := false }, ⟨rfl, rfl, rfl⟩, hnt, rfl,
      rfl⟩, rfl⟩
  | chunked cs =>
    have hu : it.unknownLength = true := hat.shows.unknownLength
    have hbegin : beginStringIteration it =
        { it with src := chunksBytes (strMajor text) cs ++ breakByte :: rest
                  beforeFirstStringChunk := true } := by
      rw [beginStringIteration, if_neg (by simpa [cborValueIsLengthKnown] using hu)]
      simp [advanceBytes, hat.src, Item.bytes]
    have hfuel : cs.length < it.src.length + 2 := by
      have := length_le_chunksBytes (strMajor text) cs
      simp only [hat.src, Item.bytes, List.length_cons, List.length_append]
      omega
    have hiter : ∃ before, iterateStringChunks (it.src.length + 2) (beginStringIteration it) =
        .ok (chunksContent cs,
          { it with src := breakByte :: rest, beforeFirstStringChunk := before }) := by
      rw [hbegin]
      exact iterateStringChunks_chunks
        { it with src := chunksBytes (strMajor text) cs ++ breakByte :: rest
                  beforeFirstStringChunk := true } hm h hcode hu rfl hfuel
    obtain ⟨before, hiter⟩ := hiter
    rw [dupString_iterate hiter, finishStringIteration,
      if_neg (by simpa [cborValueIsLengthKnown] using hu)]
    exact ⟨_, ⟨{ it with src := rest, beforeFirstStringChunk := before }, ⟨rfl, rfl, rfl⟩, hnt, rfl,
      rfl⟩, rfl⟩

end Tinycbor
