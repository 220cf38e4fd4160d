import FirebaseFfi.Tinycbor.Encoder

namespace Tinycbor
open Cbor

/-- Room for `n` more bytes. -/
def Fits (enc : CborEncoder) (n : Nat) : Prop :=
  match enc.sink with
  | .buffer written size => written.length + n ≤ size
  | .counting _ => False

/-- The encoder after `b` went into its buffer. -/
def CborEncoder.put (enc : CborEncoder) (b : Bytes) : CborEncoder :=
  match enc.sink with
  | .buffer written size => { enc with sink := .buffer (written ++ b) size }
  | .counting _ => enc

/-- The encoder after `k` items were counted. -/
def CborEncoder.spend (enc : CborEncoder) (k : Nat) : CborEncoder :=
  { enc with remaining := enc.remaining - k }

@[simp] theorem put_remaining (enc : CborEncoder) (b : Bytes) :
    (enc.put b).remaining = enc.remaining := by
  unfold CborEncoder.put; split <;> rfl

@[simp] theorem put_unknownLength (enc : CborEncoder) (b : Bytes) :
    (enc.put b).unknownLength = enc.unknownLength := by
  unfold CborEncoder.put; split <;> rfl

@[simp] theorem put_nil (enc : CborEncoder) : enc.put [] = enc := by
  obtain ⟨sink, r, u⟩ := enc
  cases sink <;> simp [CborEncoder.put]

@[simp] theorem put_put (enc : CborEncoder) (a b : Bytes) :
    (enc.put a).put b = enc.put (a ++ b) := by
  obtain ⟨sink, r, u⟩ := enc
  cases sink <;> simp [CborEncoder.put]

@[simp] theorem spend_zero (enc : CborEncoder) : enc.spend 0 = enc := rfl

@[simp] theorem spend_spend (enc : CborEncoder) (j k : Nat) :
    (enc.spend j).spend k = enc.spend (j + k) := by
  simp [CborEncoder.spend, Nat.sub_sub]

@[simp] theorem spend_put (enc : CborEncoder) (b : Bytes) (k : Nat) :
    (enc.spend k).put b = (enc.put b).spend k := by
  obtain ⟨sink, r, u⟩ := enc
  cases sink <;> simp [CborEncoder.put, CborEncoder.spend]

@[simp] theorem fits_spend (enc : CborEncoder) (k n : Nat) : Fits (enc.spend k) n ↔ Fits enc n :=
  Iff.rfl

/-- Room for two pieces is room for the first and then for the second. -/
theorem fits_add (enc : CborEncoder) (a b : Bytes) :
    Fits enc (a ++ b).length ↔ Fits enc a.length ∧ Fits (enc.put a) b.length := by
  obtain ⟨sink, r, u⟩ := enc
  cases sink with
  | counting n => simp [Fits]
  | buffer w s =>
    simp only [Fits, CborEncoder.put, List.length_append]
    omega

theorem append_fits (enc : CborEncoder) {b : Bytes} (h : Fits enc b.length) :
    appendToBuffer enc b = (none, enc.put b) := by
  obtain ⟨sink, r, u⟩ := enc
  cases sink with
  | counting n => exact h.elim
  | buffer w s =>
    have hn : ¬ s < w.length + b.length := Nat.not_lt.mpr h
    simp [appendToBuffer, CborEncoder.put, hn]

/-- A non-empty piece without room is reported and turns the encoder to counting. -/
theorem append_full (enc : CborEncoder) {b : Bytes} (h : ¬ Fits enc b.length) (hb : b ≠ []) :
    (appendToBuffer enc b).1 = some .outOfMemory ∧
      ∃ n, 0 < n ∧ (appendToBuffer enc b).2.sink = .counting n := by
  have hpos := List.length_pos_iff.mpr hb
  obtain ⟨sink, r, u⟩ := enc
  cases sink with
  | counting n =>
    have hn : 0 < n + b.length := by omega
    exact ⟨by simp [appendToBuffer, hn], _, hn, by simp [appendToBuffer, hn]⟩
  | buffer w s =>
    have hn : s < w.length + b.length := Nat.lt_of_not_le h
    exact ⟨by simp [appendToBuffer, hn], b.length - (s - w.length), by omega,
      by simp [appendToBuffer, hn]⟩

theorem append_counting {enc : CborEncoder} {n : Nat} (h : enc.sink = .counting n) (hn : 0 < n)
    (b : Bytes) : (appendToBuffer enc b).1 = some .outOfMemory := by
  have hp : 0 < n + b.length := by omega
  simp [appendToBuffer, h, hp]

theorem head_ne_nil (m : Nat) (w : Width) (n : Nat) : head m w n ≠ [] := by simp [head]

theorem encodeNumber_fits {enc : CborEncoder} {ui m : Nat}
    (h : Fits enc (head m (.shortest ui) ui).length) :
    encodeNumber enc ui m = (none, (enc.put (head m (.shortest ui) ui)).spend 1) := by
  change appendToBuffer (enc.spend 1) _ = _
  rw [append_fits (enc.spend 1) h, spend_put]

theorem encodeNumber_full {enc : CborEncoder} {ui m : Nat}
    (h : ¬ Fits enc (head m (.shortest ui) ui).length) :
    (encodeNumber enc ui m).1 = some .outOfMemory ∧
      ∃ n, 0 < n ∧ (encodeNumber enc ui m).2.sink = .counting n :=
  append_full (enc.spend 1) h (head_ne_nil _ _ _)

/-- A whole string: its head in the shortest width, then its bytes. -/
def strBytes (text : Bool) (s : Bytes) : Bytes :=
  head (strMajor text) (.shortest s.length) s.length ++ s

theorem encodeString_fits {enc : CborEncoder} {text : Bool} {s : Bytes}
    (h : Fits enc (strBytes text s).length) :
    encodeString enc text s = (none, (enc.put (strBytes text s)).spend 1) := by
  obtain ⟨hh, hs⟩ := (fits_add _ _ _).mp h
  simp only [encodeString, encodeNumber_fits hh, Option.isSome_none, Bool.false_eq_true,
    false_and, if_false]
  rw [append_fits _ (by simpa using hs)]
  simp [strBytes]

theorem encodeString_full {enc : CborEncoder} {text : Bool} {s : Bytes}
    (h : ¬ Fits enc (strBytes text s).length) :
    (encodeString enc text s).1 = some .outOfMemory := by
  by_cases hh : Fits enc (head (strMajor text) (.shortest s.length) s.length).length
  · have hs : ¬ Fits (enc.put (head (strMajor text) (.shortest s.length) s.length)) s.length :=
      fun hs => h ((fits_add _ _ _).mpr ⟨hh, hs⟩)
    have hne : s ≠ [] := by
      rintro rfl
      apply h
      simpa [strBytes] using hh
    simp only [encodeString, encodeNumber_fits hh, Option.isSome_none, Bool.false_eq_true,
      false_and, if_false]
    exact (append_full (CborEncoder.spend _ 1) hs hne).1
  · obtain ⟨he, n, hn, hc⟩ := encodeNumber_full hh
    simp only [encodeString]
    rw [if_neg (by simp [he])]
    exact append_counting hc hn s

/-- A child of `n` items, each of `per` encoder calls. -/
def child (enc : CborEncoder) (remaining : Nat) (unknown : Bool) (b : Bytes) : CborEncoder :=
  ({ sink := enc.sink, remaining := remaining, unknownLength := unknown } : CborEncoder).put b

@[simp] theorem fits_child (enc : CborEncoder) (r : Nat) (u : Bool) (b : Bytes) (n : Nat) :
    Fits (child enc r u b) n ↔ Fits (enc.put b) n := by
  obtain ⟨sink, r', u'⟩ := enc
  cases sink <;> simp [child, CborEncoder.put, Fits]

theorem createArray_fits {enc : CborEncoder} {n : Nat} (hn : n < sizeMax)
    (h : Fits enc (head 4 (.shortest n) n).length) :
    cborEncoderCreateArray enc (some n) =
      ⟨none, enc.spend 1, child enc (n + 1) false (head 4 (.shortest n) n)⟩ := by
  have hm : (1 * n + 1) % (sizeMax + 1) = n + 1 := by
    rw [Nat.one_mul]
    exact Nat.mod_eq_of_lt (by omega)
  simp only [cborEncoderCreateArray, createContainer, encodeNumberNoUpdate, Option.isNone_some,
    Nat.reduceEqDiff, if_false, hm]
  rw [append_fits { sink := enc.sink, remaining := n + 1, unknownLength := false } h]
  rfl

theorem createMap_fits {enc : CborEncoder} {n : Nat} (hn : n ≤ sizeMax / 2)
    (h : Fits enc (head 5 (.shortest n) n).length) :
    cborEncoderCreateMap enc (some n) =
      ⟨none, enc.spend 1, child enc (2 * n + 1) false (head 5 (.shortest n) n)⟩ := by
  have hm : (2 * n + 1) % (sizeMax + 1) = 2 * n + 1 :=
    Nat.mod_eq_of_lt (by unfold sizeMax at *; omega)
  rw [cborEncoderCreateMap, if_neg (by simpa using hn)]
  simp only [createContainer, encodeNumberNoUpdate, Option.isNone_some, if_true, hm]
  rw [append_fits { sink := enc.sink, remaining := 2 * n + 1, unknownLength := false } h]
  rfl

theorem createArray_full {enc : CborEncoder} {n : Nat}
    (h : ¬ Fits enc (head 4 (.shortest n) n).length) :
    (cborEncoderCreateArray enc (some n)).err = some .outOfMemory ∧
      (cborEncoderCreateArray enc (some n)).parent = enc.spend 1 :=
  ⟨(append_full { sink := enc.sink, remaining := _, unknownLength := false } h
    (head_ne_nil _ _ _)).1, rfl⟩

theorem createMap_full {enc : CborEncoder} {n : Nat} (hn : n ≤ sizeMax / 2)
    (h : ¬ Fits enc (head 5 (.shortest n) n).length) :
    (cborEncoderCreateMap enc (some n)).err = some .outOfMemory ∧
      (cborEncoderCreateMap enc (some n)).parent = enc.spend 1 := by
  rw [cborEncoderCreateMap, if_neg (by simpa using hn)]
  exact ⟨(append_full { sink := enc.sink, remaining := _, unknownLength := false } h
    (head_ne_nil _ _ _)).1, rfl⟩

/-- Closing a container whose items were all written hands its position to the parent. -/
theorem close_fits {parent enc : CborEncoder} {b : Bytes} (h : Fits enc b.length)
    (hp : ∃ k, parent = enc.spend k) {c : CborEncoder} (hc : c = (child enc 1 false b)) :
    cborEncoderCloseContainer parent c = (none, parent.put b) := by
  obtain ⟨k, rfl⟩ := hp
  subst hc
  obtain ⟨sink, r, u⟩ := enc
  cases sink with
  | counting n => exact h.elim
  | buffer w s => simp [cborEncoderCloseContainer, child, CborEncoder.put, CborEncoder.spend]

end Tinycbor
