import FirebaseFfi.Tinycbor.Room

namespace Tinycbor
open Cbor

/-- Bytes found no room, and the encoder only counts. -/
def Lost (enc : CborEncoder) : Prop := ∃ n, 0 < n ∧ enc.sink = .counting n

/-- `f` appends `b` where there is room and loses bytes where there is not. What
was lost before stays lost. Nobody has to look at the results in between. -/
structure Streams (f : CborEncoder → CborEncoder) (b : Bytes) : Prop where
  fits : ∀ enc, Fits enc b.length → (f enc).sink = (enc.put b).sink
  full : ∀ enc, Fits enc 0 → ¬ Fits enc b.length → Lost (f enc)
  lost : ∀ enc, Lost enc → Lost (f enc)
  unknownLength : ∀ enc, (f enc).unknownLength = enc.unknownLength

section SameSink

variable {c d : CborEncoder}

theorem fits_sink (h : c.sink = d.sink) (n : Nat) : Fits c n ↔ Fits d n := by
  rw [Fits, Fits, h]

theorem lost_sink (h : c.sink = d.sink) : Lost c ↔ Lost d := by
  rw [Lost, Lost, h]

theorem put_sink (h : c.sink = d.sink) (b : Bytes) : (c.put b).sink = (d.put b).sink := by
  obtain ⟨sink, r, u⟩ := c
  obtain ⟨sink', r', u'⟩ := d
  obtain rfl : sink = sink' := h
  cases sink <;> rfl

theorem append_sink (h : c.sink = d.sink) (b : Bytes) :
    (appendToBuffer c b).2.sink = (appendToBuffer d b).2.sink := by
  simp only [appendToBuffer, h]
  split <;> split <;> simp [h]

end SameSink

theorem append_unknownLength (enc : CborEncoder) (d : Bytes) :
    (appendToBuffer enc d).2.unknownLength = enc.unknownLength := by
  unfold appendToBuffer
  split <;> split <;> rfl

theorem create_unknownLength (enc : CborEncoder) (m : Nat) :
    (createContainer enc none m).container.unknownLength = true :=
  append_unknownLength { sink := enc.sink, remaining := 0, unknownLength := true } [openByte m]

theorem streams_nothing : Streams (fun enc => enc) [] where
  fits enc _ := by rw [put_nil]
  full _ h hn := absurd h hn
  lost _ h := h
  unknownLength _ := rfl

theorem streams_append (b : Bytes) : Streams (fun enc => (appendToBuffer enc b).2) b where
  fits enc h := by rw [append_fits enc h]
  full enc h0 hn := by
    have hb : b ≠ [] := by
      intro hb
      rw [hb] at hn
      exact hn h0
    exact (append_full enc hn hb).2
  lost enc h := by
    obtain ⟨n, hn, hsink⟩ := h
    have hp : 0 < n + b.length := by omega
    exact ⟨n + b.length, hp, by simp [appendToBuffer, hsink, hp]⟩
  unknownLength enc := append_unknownLength enc b

section Sequences

variable {f g : CborEncoder → CborEncoder} {a b : Bytes}

theorem Streams.next (hf : Streams f a) (hg : Streams g b) :
    Streams (fun enc => g (f enc)) (a ++ b) where
  fits enc h := by
    obtain ⟨ha, hb⟩ := (fits_add enc a b).mp h
    have hsink := hf.fits enc ha
    rw [hg.fits _ ((fits_sink hsink _).mpr hb), put_sink hsink, put_put]
  full enc h0 hn := by
    by_cases ha : Fits enc a.length
    · have hsink := hf.fits enc ha
      have hb : ¬ Fits (enc.put a) b.length := fun hb => hn ((fits_add enc a b).mpr ⟨ha, hb⟩)
      have h0' : Fits (enc.put a) 0 := ((fits_add enc a []).mp (by simpa using ha)).2
      exact hg.full _ ((fits_sink hsink _).mpr h0') (mt (fits_sink hsink _).mp hb)
    · exact hg.lost _ (hf.full enc h0 ha)
  lost enc h := hg.lost _ (hf.lost enc h)
  unknownLength enc := by rw [hg.unknownLength, hf.unknownLength]

/-- A second step that is left out after a first that failed makes no difference,
as a first that fails has lost bytes already. -/
theorem Streams.unless (hf : Streams f a) (hg : Streams g b) {p : CborEncoder → Bool}
    (hp : ∀ enc, Fits enc a.length → p enc = true) :
    Streams (fun enc => if p enc then g (f enc) else f enc) (a ++ b) where
  fits enc h := by
    have hfits := hp enc ((fits_add enc a b).mp h).1
    simp only [hfits, if_true]
    exact (hf.next hg).fits enc h
  full enc h0 hn := by
    by_cases hpass : p enc
    · simp only [hpass, if_true]
      exact (hf.next hg).full enc h0 hn
    · simp only [hpass]
      exact hf.full enc h0 fun ha => hpass (hp enc ha)
  lost enc h := by
    split
    · exact (hf.next hg).lost enc h
    · exact hf.lost enc h
  unknownLength enc := by
    split
    · exact (hf.next hg).unknownLength enc
    · exact hf.unknownLength enc

/-- A loop in which each turn writes its piece. -/
theorem Streams.fold {α : Type} {step : CborEncoder → α → CborEncoder} {piece : α → Bytes}
    {xs : List α} (h : ∀ x ∈ xs, Streams (fun enc => step enc x) (piece x)) :
    Streams (fun enc => xs.foldl step enc) (xs.flatMap piece) := by
  induction xs with
  | nil => exact streams_nothing
  | cons x xs ih =>
    have hrest := ih fun y hy => h y (List.mem_cons_of_mem _ hy)
    exact (h x List.mem_cons_self).next hrest

/-- What is written is all there is. The one count at the end tells. -/
theorem Streams.init (hf : Streams f b) (size : Nat) :
    cborEncoderGetExtraBytesNeeded (f (cborEncoderInit size)) = 0 ↔ b.length ≤ size := by
  have hroom : Fits (cborEncoderInit size) b.length ↔ b.length ≤ size := by
    simp [Fits, cborEncoderInit]
  constructor
  · intro h
    by_contra hn
    obtain ⟨n, hpos, hsink⟩ := hf.full _ (by simp [Fits, cborEncoderInit]) (mt hroom.mp hn)
    simp only [cborEncoderGetExtraBytesNeeded, hsink] at h
    omega
  · intro h
    rw [cborEncoderGetExtraBytesNeeded, hf.fits _ (hroom.mpr h)]
    rfl

theorem Streams.buffer (hf : Streams f b) {size : Nat} (h : b.length ≤ size) :
    cborEncoderGetBuffer (f (cborEncoderInit size)) = b := by
  have hroom : Fits (cborEncoderInit size) b.length := by simpa [Fits, cborEncoderInit] using h
  rw [cborEncoderGetBuffer, hf.fits _ hroom]
  rfl

end Sequences

theorem streams_number (ui m : Nat) :
    Streams (fun enc => (encodeNumber enc ui m).2) (head m (.shortest ui) ui) where
  fits enc h := by simp [encodeNumber_fits h, CborEncoder.spend]
  full enc _ hn := (encodeNumber_full hn).2
  lost enc h := (streams_append _).lost (saturatedDecrement enc) h
  unknownLength enc := append_unknownLength (saturatedDecrement enc) _

/-- A head without room is no error that stops the content. -/
theorem encodeString_continues (enc : CborEncoder) (text : Bool) (s : Bytes) :
    encodeString enc text s = appendToBuffer (encodeNumber enc s.length (strMajor text)).2 s := by
  have hoom : ¬ ((encodeNumber enc s.length (strMajor text)).1.isSome ∧
      (encodeNumber enc s.length (strMajor text)).1 ≠ some .outOfMemory) := by
    by_cases hf : Fits enc (head (strMajor text) (.shortest s.length) s.length).length
    · simp [encodeNumber_fits hf]
    · simp [(encodeNumber_full hf).1]
  simp only [encodeString]
  rw [if_neg hoom]

theorem streams_textStringz (s : Bytes) :
    Streams (fun enc => (cborEncodeTextStringz enc s).2) (strBytes true (cString s)) := by
  have h := (streams_number (cString s).length (strMajor true)).next (streams_append (cString s))
  simp only [cborEncodeTextStringz, cborEncodeTextString, encodeString_continues]
  exact h

theorem streams_int (value : Int64) :
    Streams (fun enc => (cborEncodeInt enc value).2)
      (if value.toInt < 0 then head 1 (.shortest (-1 - value.toInt).toNat) (-1 - value.toInt).toNat
        else head 0 (.shortest value.toInt.toNat) value.toInt.toNat) := by
  unfold cborEncodeInt
  split
  · exact streams_number _ 1
  · exact streams_number _ 0

/-- Within a container of indefinite length a loss is a loss of the parent's too. -/
theorem Streams.container {f : CborEncoder → CborEncoder} {b : Bytes} (hf : Streams f b) (m : Nat) :
    Streams (fun enc => (cborEncoderCloseContainer (createContainer enc none m).parent
      (f (createContainer enc none m).container)).2) ([openByte m] ++ b ++ [breakByte]) := by
  have hwhole := ((streams_append [openByte m]).next hf).next (streams_append [breakByte])
  have hchild : ∀ enc, (f (createContainer enc none m).container).unknownLength = true := by
    intro enc
    rw [hf.unknownLength]
    exact create_unknownLength enc m
  -- The child begins with its parent's sink and ends with what becomes the parent's.
  have hsame : ∀ enc : CborEncoder, ∃ c : CborEncoder, c.sink = enc.sink ∧
      (cborEncoderCloseContainer (createContainer enc none m).parent
        (f (createContainer enc none m).container)).2.sink =
      (appendToBuffer (f (appendToBuffer c [openByte m]).2) [breakByte]).2.sink := by
    intro enc
    refine ⟨{ sink := enc.sink, remaining := 0, unknownLength := true }, rfl, ?_⟩
    simp only [cborEncoderCloseContainer, hchild, if_true]
    apply append_sink
    rfl
  refine ⟨?_, ?_, ?_, ?_⟩
  · intro enc h
    obtain ⟨c, hc, hsink⟩ := hsame enc
    rw [hsink, ← put_sink hc]
    exact hwhole.fits c ((fits_sink hc _).mpr h)
  · intro enc h0 hn
    obtain ⟨c, hc, hsink⟩ := hsame enc
    exact (lost_sink hsink).mpr
      (hwhole.full c ((fits_sink hc _).mpr h0) (mt (fits_sink hc _).mp hn))
  · intro enc h
    obtain ⟨c, hc, hsink⟩ := hsame enc
    exact (lost_sink hsink).mpr (hwhole.lost c ((lost_sink hc).mpr h))
  · intro enc
    simp only [cborEncoderCloseContainer, hchild, if_true]
    exact append_unknownLength _ _

end Tinycbor
