import FirebaseFfi.Tinycbor.Parser

namespace Tinycbor
open Cbor

/-- The type the parser shows for a major type 7 item. -/
def primType : Width → Nat → CborType
  | .tiny, n => if n = 20 ∨ n = 21 then .boolean else if n = 22 then .null
    else if n = 23 then .undefined else .simple
  | .one, _ => .simple
  | .two, _ => .halfFloat
  | .four, _ => .float
  | .eight, _ => .double

def itemType : Item → CborType
  | .int _ _ _ => .integer
  | .str text _ => if text then .textString else .byteString
  | .array _ _ => .array
  | .map _ _ => .map
  | .tag _ _ _ => .tag
  | .prim w n => primType w n

/-- The width of an item's head, if it has a definite one. -/
def itemWidth : Item → Option Width
  | .int _ w _ => some w
  | .str _ (.plain w _) => some w
  | .str _ (.chunked _) => none
  | .array len _ => len
  | .map len _ => len
  | .tag w _ _ => some w
  | .prim w _ => some w

/-- The number the parser extracts from an item, whatever its type. -/
def itemNumber : Item → Nat
  | .int _ _ n => n
  | .str _ (.plain _ b) => b.length
  | .str _ (.chunked _) => 31
  | .array len xs => if len.isSome then xs.length else 31
  | .map len es => if len.isSome then es.length else 31
  | .tag _ t _ => t
  | .prim w n => if w = .tiny ∧ n = 20 then 0 else n

def itemNegative : Item → Bool
  | .int neg _ _ => neg
  | _ => false

/-- The argument does not fit `extra` and is left in the source. -/
def isWide (w : Width) : Bool := w = .four ∨ w = .eight

/-- The fields of a cursor that stay when it moves on inside a container. -/
structure SameFrame (it it' : CborValue) : Prop where
  remaining : it.remaining = it'.remaining
  containerIsMap : it.containerIsMap = it'.containerIsMap
  nextIsMapKey : it.nextIsMapKey = it'.nextIsMapKey

theorem SameFrame.trans {a b c : CborValue} (h : SameFrame a b) (h' : SameFrame b c) :
    SameFrame a c :=
  ⟨h.remaining.trans h'.remaining, h.containerIsMap.trans h'.containerIsMap,
    h.nextIsMapKey.trans h'.nextIsMapKey⟩

/-- What a preparsed cursor shows of the item before it. -/
structure Shows (type : CborType) (width : Option Width) (number : Nat) (negative : Bool)
    (it : CborValue) : Prop where
  type : it.type = type
  unknownLength : it.unknownLength = width.isNone
  tooLarge : it.tooLarge = width.any isWide
  number : extractInt64Helper it = number
  negative : it.negativeInteger = negative

/-- A cursor that stands before the item `x`, with `rest` after it. -/
structure AtItem (x : Item) (rest : Bytes) (it : CborValue) : Prop where
  src : it.src = x.bytes ++ rest
  shows : Shows (itemType x) (itemWidth x) (itemNumber x) (itemNegative x) it

theorem bytesNeeded_info {w : Width} {n : Nat} (h : n < w.limit) :
    bytesNeeded (w.info n) = w.size := by
  cases w with
  | tiny =>
    simp only [Width.limit] at h
    simp [bytesNeeded, Width.info, Width.size, h]
  | _ => rfl

theorem preparseNumber_head {it : CborValue} {w : Width} {n : Nat} (hn : n < w.limit)
    (h64 : it.is64Bit = false) (hl : it.tooLarge = false) (tail : Bytes) :
    preparseNumber it (be w.size n ++ tail) (w.info n) =
      { it with extra := if isWide w then 0 else n, tooLarge := isWide w, is64Bit := w = .eight } := by
  obtain ⟨src, remaining, extra, type, is64, large, neg, before, unknown, isMap, key⟩ := it
  subst h64 hl
  unfold preparseNumber
  rw [bytesNeeded_info hn]
  cases w with
  | tiny => simp [Width.size, Width.info, isWide]
  | one =>
    have := ofBe_argument .one n hn (by simp)
    simp only [Width.size] at this
    simp [Width.size, this, isWide]
  | two =>
    have := ofBe_argument .two n hn (by simp)
    simp only [Width.size] at this
    simp [Width.size, this, isWide]
  | four => simp [Width.size, isWide]
  | eight => simp [Width.size, isWide]

/-- A number is extracted from where the head's width puts it. -/
theorem extract_head {it : CborValue} {b : UInt8} {w : Width} {n : Nat} {tail : Bytes}
    (hn : n < w.limit) (hsrc : it.src = b :: (be w.size n ++ tail)) (hl : it.tooLarge = isWide w)
    (h64 : it.is64Bit = (w = .eight : Bool)) (he : isWide w = false → it.extra = n) :
    extractInt64Helper it = n := by
  unfold extractInt64Helper
  cases w with
  | four =>
    have := ofBe_argument .four n hn (by simp)
    simp only [Width.size] at this
    simpa [hl, isWide, h64, hsrc, Width.size] using this
  | eight =>
    have := ofBe_argument .eight n hn (by simp)
    simp only [Width.size] at this
    simpa [hl, isWide, h64, hsrc, Width.size] using this
  | _ => simp [hl, isWide] at *; exact he

/-- The simple values that are types of their own differ from the others only in type. -/
theorem preparseSimple_prim {it : CborValue} {w : Width} {n : Nat} (hn : n < w.limit)
    (h1 : w = .one → 32 ≤ it.extra) (hl : it.tooLarge = isWide w)
    (ht : it.type = .simple) :
    preparseSimple it (w.info n) =
      .ok { it with type := primType w n, extra := if w = .tiny ∧ n = 20 then 0 else it.extra } := by
  cases w with
  | tiny =>
    simp only [Width.info, Width.limit] at *
    obtain ⟨src, remaining, extra, type, is64, large, neg, before, unknown, isMap, key⟩ := it
    subst ht
    unfold preparseSimple primType
    split
    · simp
    · simp
    · simp
    · simp
    · omega
    · omega
    · omega
    · omega
    · next h20 h21 h22 h23 _ _ _ _ =>
      simp only [Except.ok.injEq, CborValue.mk.injEq, true_and, and_true]
      rw [if_neg h20, if_neg (not_or.mpr ⟨h20, h21⟩), if_neg h22, if_neg h23]
      exact ⟨rfl, rfl⟩
  | one =>
    have := h1 rfl
    simp [preparseSimple, Width.info, primType, ← ht, Nat.not_lt.mpr this]
  | two => simp [preparseSimple, Width.info, primType]
  | four =>
    have : it.tooLarge = true := hl
    simp [preparseSimple, Width.info, primType, ← this]
  | eight =>
    have : it.tooLarge = true := hl
    simp [preparseSimple, Width.info, primType, ← this]

theorem preparse_head (it : CborValue) (m : Nat) (tail : Bytes) {w : Width} {n : Nat} (hm : m < 7)
    (hn : n < w.limit) (hsrc : it.src = head m w n ++ tail) :
    ∃ r, preparseValue it = .ok r ∧ r.src = it.src ∧ SameFrame r it ∧
      Shows (majorType m) (some w) n (m = 1) r := by
  have hi := w.info_lt n hn
  have hb := initial_toNat m w n (by omega) hn
  have hdiv : (m * 32 + w.info n) / 32 = m := by omega
  have hmod : (m * 32 + w.info n) % 32 = w.info n := by omega
  have hfit : ¬ (be w.size n ++ tail).length < bytesNeeded (w.info n) := by
    simp [bytesNeeded_info hn]
  simp only [head, List.cons_append] at hsrc
  unfold preparseValue
  simp only [hsrc, hb, hdiv, hmod, if_neg (Nat.not_lt.mpr (Nat.le_of_lt_succ hi)), if_neg hfit,
    if_neg (show m ≠ 7 by omega)]
  rw [preparseNumber_head hn rfl rfl]
  by_cases h1 : m = 1
  · simp only [if_pos h1]
    refine ⟨_, rfl, by simp, ⟨rfl, rfl, rfl⟩, ⟨rfl, rfl, rfl, ?_, by simp [h1]⟩⟩
    exact extract_head hn rfl rfl rfl (fun h => by simp [h])
  · simp only [if_neg h1]
    refine ⟨_, rfl, by simp, ⟨rfl, rfl, rfl⟩, ⟨rfl, rfl, rfl, ?_, by simp [h1]⟩⟩
    exact extract_head hn rfl rfl rfl (fun h => by simp [h])

theorem preparse_prim (it : CborValue) (tail : Bytes) {w : Width} {n : Nat} (hn : n < w.limit)
    (h1 : w = .one → 32 ≤ n) (hsrc : it.src = head 7 w n ++ tail) :
    ∃ r, preparseValue it = .ok r ∧ r.src = it.src ∧ SameFrame r it ∧
      Shows (primType w n) (some w) (if w = .tiny ∧ n = 20 then 0 else n) false r := by
  have hi := w.info_lt n hn
  have hb := initial_toNat 7 w n (by omega) hn
  have hdiv : (7 * 32 + w.info n) / 32 = 7 := by omega
  have hmod : (7 * 32 + w.info n) % 32 = w.info n := by omega
  have hfit : ¬ (be w.size n ++ tail).length < bytesNeeded (w.info n) := by
    simp [bytesNeeded_info hn]
  simp only [head, List.cons_append] at hsrc
  unfold preparseValue
  simp only [hsrc, hb, hdiv, hmod, if_neg (Nat.not_lt.mpr (Nat.le_of_lt_succ hi)), if_neg hfit,
    if_neg (show ¬ 7 = 1 by decide), if_true]
  rw [preparseNumber_head hn rfl rfl, preparseSimple_prim hn ?_ rfl rfl]
  · refine ⟨_, rfl, by simp, ⟨rfl, rfl, rfl⟩, ⟨rfl, rfl, rfl, ?_, rfl⟩⟩
    by_cases h20 : w = .tiny ∧ n = 20
    · simp [h20.1, h20.2, extractInt64Helper, isWide]
    · rw [if_neg h20, if_neg h20]
      exact extract_head hn rfl rfl rfl (fun h => by simp [h])
  · intro hw
    subst hw
    simpa [isWide] using h1 rfl

theorem preparse_open (it : CborValue) (m : Nat) {tail : Bytes} (hm : 2 ≤ m ∧ m ≤ 5)
    (hsrc : it.src = openByte m :: tail) :
    ∃ r, preparseValue it = .ok r ∧ r.src = it.src ∧ SameFrame r it ∧
      Shows (majorType m) none 31 false r := by
  have hb := openByte_toNat m (by omega)
  have hdiv : (m * 32 + 31) / 32 = m := by omega
  have hmod : (m * 32 + 31) % 32 = 31 := by omega
  have hfixed : isFixedType (majorType m) = false := by
    obtain rfl | rfl | rfl | rfl : m = 2 ∨ m = 3 ∨ m = 4 ∨ m = 5 := by omega
    all_goals rfl
  unfold preparseValue
  simp only [hsrc, hb, hdiv, hmod, hfixed]
  exact ⟨_, rfl, by simp, ⟨rfl, rfl, rfl⟩, ⟨rfl, rfl, rfl, rfl, rfl⟩⟩

theorem majorType_str (text : Bool) :
    majorType (strMajor text) = if text then .textString else .byteString := by
  cases text <;> rfl

/-- Before a well-formed item the parser finds that item. -/
theorem preparse_item (it : CborValue) {x : Item} {rest : Bytes} (h : x.WF)
    (hsrc : it.src = x.bytes ++ rest) :
    ∃ r, preparseValue it = .ok r ∧ SameFrame r it ∧ AtItem x rest r := by
  have hat : ∀ {type width number negative},
      (∃ r, preparseValue it = .ok r ∧ r.src = it.src ∧ SameFrame r it ∧
        Shows type width number negative r) →
      type = itemType x → width = itemWidth x → number = itemNumber x →
      negative = itemNegative x →
      ∃ r, preparseValue it = .ok r ∧ SameFrame r it ∧ AtItem x rest r := by
    rintro _ _ _ _ ⟨r, hr, hs, hf, hshow⟩ rfl rfl rfl rfl
    exact ⟨r, hr, hf, ⟨hs.trans hsrc, hshow⟩⟩
  cases h with
  | @int neg w n hn =>
    have := preparse_head it (intMajor neg) rest (by have := intMajor_lt neg; omega) hn hsrc
    exact hat this (by cases neg <;> rfl) rfl rfl (by cases neg <;> rfl)
  | @str text s hs =>
    have hm : strMajor text < 7 := strMajor_lt text
    cases s with
    | plain w b =>
      have := preparse_head it (strMajor text) (b ++ rest) hm hs
        (by rw [hsrc]; simp [Item.bytes])
      exact hat this (majorType_str text) rfl rfl (by cases text <;> rfl)
    | chunked cs =>
      have := preparse_open it (strMajor text) (by cases text <;> decide)
        (by rw [hsrc]; rfl)
      exact hat this (majorType_str text) rfl rfl rfl
  | @array len xs hl hx =>
    cases len with
    | some w =>
      have := preparse_head it 4 (bytesAll xs ++ rest) (by decide) (hl w rfl)
        (by rw [hsrc]; simp [Item.bytes, opening, closing])
      exact hat this rfl rfl rfl rfl
    | none =>
      have := preparse_open it 4 (by decide) (by rw [hsrc]; rfl)
      exact hat this rfl rfl rfl rfl
  | @map len es hl hk hv =>
    cases len with
    | some w =>
      have := preparse_head it 5 (bytesEntries es ++ rest) (by decide) (hl w rfl)
        (by rw [hsrc]; simp [Item.bytes, opening, closing])
      exact hat this rfl rfl rfl rfl
    | none =>
      have := preparse_open it 5 (by decide) (by rw [hsrc]; rfl)
      exact hat this rfl rfl rfl rfl
  | @tag w t y ht hy =>
    have := preparse_head it 6 (y.bytes ++ rest) (by decide) ht
      (by rw [hsrc]; simp [Item.bytes])
    exact hat this rfl rfl rfl rfl
  | @prim w n hn h1 =>
    have := preparse_prim it rest hn h1 hsrc
    exact hat this rfl rfl rfl rfl

end Tinycbor
