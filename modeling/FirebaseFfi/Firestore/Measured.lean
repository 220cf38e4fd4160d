import FirebaseFfi.Firestore.Snapshots
import FirebaseFfi.Tinycbor.Streams

namespace Firestore
open Cbor Tinycbor

/-- Encoded in a buffer of the size that encoding it with none asks for. -/
def measured (encode : CborEncoder → Option CborError × CborEncoder) : Bytes :=
  let size := cborEncoderGetExtraBytesNeeded (encode ⟨.counting 0, 2, false⟩).2
  cborEncoderGetBuffer (encode (cborEncoderInit size)).2

/-- An encoder of `b` that asks for as many bytes. -/
structure Measures (encode : CborEncoder → Option CborError × CborEncoder) (b : Bytes) : Prop where
  streams : Streams (fun enc => (encode enc).2) b
  counts : cborEncoderGetExtraBytesNeeded (encode ⟨.counting 0, 2, false⟩).2 = b.length

section Measured

variable {encode : CborEncoder → Option CborError × CborEncoder} {b : Bytes}

theorem Measures.measured (h : Measures encode b) : measured encode = b := by
  unfold Firestore.measured
  rw [h.counts]
  exact h.streams.buffer (Nat.le_refl _)

theorem append_counts (enc : CborEncoder) {n : Nat} (h : enc.sink = .counting n) :
    (appendToBuffer enc b).2.sink = .counting (n + b.length) := by
  unfold appendToBuffer
  rw [h]
  dsimp only
  split
  · rfl
  · next hzero =>
    rw [h]
    congr 1
    omega

theorem number_counts (ui m : Nat) {enc : CborEncoder} {n : Nat} (h : enc.sink = .counting n) :
    (encodeNumber enc ui m).2.sink = .counting (n + (head m (.shortest ui) ui).length) :=
  append_counts (saturatedDecrement enc) h

theorem measures_number (ui m : Nat) :
    Measures (fun enc => encodeNumber enc ui m) (head m (.shortest ui) ui) := by
  refine ⟨streams_number ui m, ?_⟩
  rw [cborEncoderGetExtraBytesNeeded, number_counts ui m rfl, Nat.zero_add]

theorem measures_int (i : Int64) : Measures (fun enc => cborEncodeInt enc i) (intItem i).bytes := by
  unfold cborEncodeInt intItem
  split
  · exact measures_number _ 1
  · exact measures_number _ 0

theorem measures_double (d : UInt64) :
    Measures (fun enc => cborEncodeDouble enc d) (doubleItem d).bytes := by
  have hstreams := streams_append (0xfb :: be 8 d.toNat)
  refine ⟨⟨?_, ?_, ?_, ?_⟩, ?_⟩
  · intro enc h
    have hsame : (saturatedDecrement enc).sink = enc.sink := rfl
    exact (hstreams.fits (saturatedDecrement enc) h).trans (put_sink hsame _)
  · intro enc h0 h
    exact hstreams.full (saturatedDecrement enc) h0 h
  · intro enc h
    exact hstreams.lost (saturatedDecrement enc) h
  · intro enc
    exact hstreams.unknownLength (saturatedDecrement enc)
  · show cborEncoderGetExtraBytesNeeded (appendToBuffer _ _).2 = _
    rw [cborEncoderGetExtraBytesNeeded, append_counts _ rfl, Nat.zero_add]
    rfl

theorem measures_text (s : Bytes) :
    Measures (fun enc => cborEncodeTextString enc s) (textItem s).bytes := by
  have h := (streams_number s.length (strMajor true)).next (streams_append s)
  unfold cborEncodeTextString
  refine ⟨?_, ?_⟩
  · simp only [encodeString_continues]
    exact h
  · rw [encodeString_continues, cborEncoderGetExtraBytesNeeded,
      append_counts _ (number_counts _ _ rfl), Nat.zero_add, ← List.length_append]
    rfl

end Measured

/-- The reason of a listener that has ended is a text item. -/
theorem errorPayload_eq (text : Bytes) : errorPayload text = (textItem text).bytes :=
  (measures_text text).measured

end Firestore
