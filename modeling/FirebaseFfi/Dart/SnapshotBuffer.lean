import FirebaseFfi.Dart.ChildOrder

namespace Dart
open Cbor

/-- FdbSnapshotHeader, with both of its lengths cut to 32 bits. -/
def fdbSnapshotHeader (postedNs seq : Int64) (valueLen orderLen : Nat) : Bytes :=
  le 4 0xfdb50000 ++ le 4 1 ++ le 8 seq.toUInt64.toNat ++ le 8 postedNs.toUInt64.toNat ++
    le 4 valueLen ++ le 4 orderLen

def postSnapshot (postedNs seq : Int64) (payload order : Bytes) : Bytes :=
  fdbSnapshotHeader postedNs seq payload.length order.length ++ (payload ++ order)

/-- Of Firestore, without an order. -/
def postDocument (postedNs seq : Int64) (payload : Bytes) : Bytes :=
  fdbSnapshotHeader postedNs seq payload.length 0 ++ payload

def postedNsOf (bytes : Bytes) : Except Thrown Int64 := do
  return (UInt64.ofNat (← field 16 8 bytes)).toInt64

section Regions

variable (bytes : Bytes)

def valueLen : Nat := ofLe ((bytes.drop 24).take 4)

def orderLen : Nat := ofLe ((bytes.drop 28).take 4)

/-- What the header gives the value. A length of zero leaves it the rest of the
buffer. -/
def valueRegion : Bytes :=
  if valueLen bytes = 0 then bytes.drop snapshotHeaderBytes
  else (bytes.drop snapshotHeaderBytes).take (valueLen bytes)

def orderRegion : Bytes :=
  (bytes.drop (snapshotHeaderBytes + valueLen bytes)).take (orderLen bytes)

/-- The value that a payload is decoded as. -/
def decodedValue (package : CborPackage) (payload : Bytes) : Except Thrown Object :=
  match package.decode payload >>= package.toObject with
  | .ok object => .ok object
  | .error _ => .error .formatException

def decodedOrder (package : CborPackage) (order : Bytes) : Option DbChildOrder :=
  match package.decode order >>= package.toObject >>= decodeOrder package.toString with
  | .ok order => order
  | .error _ => none

/-- The buffer is shorter than its header, or the declared value is within it. -/
def Bounded : Prop :=
  bytes.length < snapshotHeaderBytes ∨ snapshotHeaderBytes + valueLen bytes ≤ bytes.length

/-- The same header and as many bytes. -/
structure SameHeader (other : Bytes) : Prop where
  length : other.length = bytes.length
  header : other.take snapshotHeaderBytes = bytes.take snapshotHeaderBytes

/-- The two readers answer with a value or a FormatException, and with an order
or null. A value that is declared longer than the rest of the buffer is a FormatException,
and they do not depend on a byte outside the header and their regions. -/
structure Handled : Prop where
  value : ∀ package, (∃ object, decodeSnapshotValue package bytes = .ok object) ∨
    decodeSnapshotValue package bytes = .error .formatException
  overlong : ∀ package, snapshotHeaderBytes ≤ bytes.length →
    bytes.length < snapshotHeaderBytes + valueLen bytes →
    decodeSnapshotValue package bytes = .error .formatException
  order : ∀ package, ∃ order, decodeSnapshotOrder package bytes = .ok order
  valueWithin : ∀ package other, SameHeader bytes other → valueRegion other = valueRegion bytes →
    decodeSnapshotValue package other = decodeSnapshotValue package bytes
  orderWithin : ∀ package other, SameHeader bytes other → orderRegion other = orderRegion bytes →
    decodeSnapshotOrder package other = decodeSnapshotOrder package bytes

end Regions

section Readers

variable {bytes : Bytes} (package : CborPackage)

theorem field_ok {offset width : Nat} (h : offset + width ≤ bytes.length) :
    field offset width bytes = .ok (ofLe ((bytes.drop offset).take width)) := by
  rw [field, if_neg (Nat.not_lt.mpr h)]

theorem field_valueLen (h : snapshotHeaderBytes ≤ bytes.length) :
    field 24 4 bytes = .ok (valueLen bytes) :=
  field_ok (Nat.le_trans (by decide) h)

theorem field_orderLen (h : snapshotHeaderBytes ≤ bytes.length) :
    field 28 4 bytes = .ok (orderLen bytes) :=
  field_ok h

theorem valueRegion_eq :
    (bytes.take (if valueLen bytes = 0 then bytes.length
      else snapshotHeaderBytes + valueLen bytes)).drop snapshotHeaderBytes = valueRegion bytes := by
  unfold valueRegion
  split
  · rw [List.take_length]
  · rw [List.drop_take, Nat.add_sub_cancel_left]

/-- Every path through decodeSnapshotValue. -/
theorem decodeSnapshotValue_eq :
    decodeSnapshotValue package bytes =
      if bytes.length < snapshotHeaderBytes then .error .formatException
      else if bytes.length = snapshotHeaderBytes then .ok .null
      else if bytes.length < snapshotHeaderBytes + valueLen bytes then .error .other
      else decodedValue package (valueRegion bytes) := by
  unfold decodeSnapshotValue
  split
  · rfl
  · next hlong =>
    split
    · rfl
    · have hstop : bytes.length < (if valueLen bytes = 0 then bytes.length
          else snapshotHeaderBytes + valueLen bytes) ↔
          bytes.length < snapshotHeaderBytes + valueLen bytes := by
        split <;> omega
      rw [field_valueLen (Nat.not_lt.mp hlong), ok_bind]
      simp only [hstop, valueRegion_eq]
      rfl

/-- Every path through decodeSnapshotOrder. -/
theorem decodeSnapshotOrder_eq :
    decodeSnapshotOrder package bytes =
      if bytes.length < snapshotHeaderBytes then .ok none
      else if orderLen bytes = 0 then .ok none
      else if bytes.length < snapshotHeaderBytes + valueLen bytes + orderLen bytes then .ok none
      else .ok (decodedOrder package (orderRegion bytes)) := by
  unfold decodeSnapshotOrder
  split
  · rfl
  · next hlong =>
    have hlength := Nat.not_lt.mp hlong
    have hregion : (bytes.take (snapshotHeaderBytes + valueLen bytes + orderLen bytes)).drop
        (snapshotHeaderBytes + valueLen bytes) = orderRegion bytes := by
      rw [orderRegion, List.drop_take, Nat.add_sub_cancel_left]
    rw [field_valueLen hlength, field_orderLen hlength, ok_bind, ok_bind]
    simp only [hregion, decodedOrder]
    cases package.decode (orderRegion bytes) >>= package.toObject >>= decodeOrder package.toString with
    | ok order => rfl
    | error e => rfl

end Readers

section Handles

variable {bytes : Bytes}

theorem decodedValue_answers (package : CborPackage) (payload : Bytes) :
    (∃ object, decodedValue package payload = .ok object) ∨
      decodedValue package payload = .error .formatException := by
  unfold decodedValue
  split
  · next object _ => exact .inl ⟨object, rfl⟩
  · exact .inr rfl

theorem SameHeader.slice {other : Bytes} (h : SameHeader bytes other) {offset width : Nat}
    (hin : offset + width ≤ snapshotHeaderBytes) :
    (other.drop offset).take width = (bytes.drop offset).take width := by
  have hcut : ∀ b : Bytes, (b.drop offset).take width =
      ((b.take snapshotHeaderBytes).drop offset).take width := by
    intro b
    rw [List.drop_take, List.take_take, Nat.min_eq_left (by omega)]
  rw [hcut, h.header, ← hcut]

theorem SameHeader.valueLen {other : Bytes} (h : SameHeader bytes other) :
    valueLen other = valueLen bytes :=
  congrArg ofLe (h.slice (by decide))

theorem SameHeader.orderLen {other : Bytes} (h : SameHeader bytes other) :
    orderLen other = orderLen bytes :=
  congrArg ofLe (h.slice (by decide))

/-- The readers handle exactly the buffers that do not declare more value than
they have. -/
theorem handled_iff (bytes : Bytes) : Handled bytes ↔ Bounded bytes := by
  constructor
  · intro h
    by_contra hbounded
    obtain ⟨hlong, hover⟩ := not_or.mp hbounded
    -- With only a header the value is null, and with more of it a RangeError.
    have hthrows := h.overlong idlePackage (Nat.not_lt.mp hlong) (Nat.not_le.mp hover)
    rw [decodeSnapshotValue_eq, if_neg hlong] at hthrows
    split at hthrows
    · cases hthrows
    · rw [if_pos (Nat.not_le.mp hover)] at hthrows
      cases hthrows
  · intro h
    refine ⟨?_, ?_, ?_, ?_, ?_⟩
    · intro package
      rw [decodeSnapshotValue_eq]
      split
      · exact .inr rfl
      · split
        · exact .inl ⟨_, rfl⟩
        · rw [if_neg (by rcases h with h | h <;> omega)]
          exact decodedValue_answers package _
    · intro package hlong hover
      rcases h with h | h <;> omega
    · intro package
      rw [decodeSnapshotOrder_eq]
      split
      · exact ⟨_, rfl⟩
      · split
        · exact ⟨_, rfl⟩
        · split <;> exact ⟨_, rfl⟩
    · intro package other hsame hregion
      rw [decodeSnapshotValue_eq, decodeSnapshotValue_eq, hsame.length, hsame.valueLen, hregion]
    · intro package other hsame hregion
      rw [decodeSnapshotOrder_eq, decodeSnapshotOrder_eq, hsame.length, hsame.valueLen,
        hsame.orderLen, hregion]

/-- A header that declares two bytes of value, and one byte behind it. -/
def overlong : Bytes := fdbSnapshotHeader 0 1 2 0 ++ [0xf6]

/-- What is thrown is not a FormatException. -/
theorem handled_broken : ¬ ∀ bytes, Handled bytes := by
  intro h
  have hformat := (h overlong).overlong idlePackage (by decide) (by decide)
  cases hformat

end Handles

/-- A buffer is read as what it was made of, and as nothing else. -/
structure ReadBack (bytes : Bytes) (postedNs seq : Int64) (payload order : Bytes) : Prop where
  decodesValue : ∀ package, decodeSnapshotValue package bytes =
    if payload = [] then .ok .null else decodedValue package payload
  decodesOrder : ∀ package, decodeSnapshotOrder package bytes =
    .ok (if order = [] then none else decodedOrder package order)
  regions : valueRegion bytes = payload ∧ orderRegion bytes = order
  whole : bytes.drop snapshotHeaderBytes = payload ++ order
  readsSeq : seqOf bytes = .ok seq
  readsPostedNs : postedNsOf bytes = .ok postedNs

section Layout

variable (postedNs seq : Int64) (v o : Nat) (body : Bytes)

@[simp] theorem fdbSnapshotHeader_length :
    (fdbSnapshotHeader postedNs seq v o).length = snapshotHeaderBytes := by
  simp [fdbSnapshotHeader, snapshotHeaderBytes]

theorem header_word {n : Int64} {bytes : Bytes} {offset : Nat}
    (h : field offset 8 bytes = .ok (ofLe (le 8 n.toUInt64.toNat))) :
    (do return (UInt64.ofNat (← field offset 8 bytes)).toInt64) = (.ok n : Except Thrown Int64) := by
  have hlt : n.toUInt64.toNat < 256 ^ 8 := n.toUInt64.toNat_lt
  rw [h, ofLe_le, Nat.mod_eq_of_lt hlt, ok_bind, UInt64.ofNat_toNat, Int64.toInt64_toUInt64]
  rfl

theorem header_seq : seqOf (fdbSnapshotHeader postedNs seq v o ++ body) = .ok seq := by
  apply header_word
  have hsplit : fdbSnapshotHeader postedNs seq v o ++ body =
      (le 4 0xfdb50000 ++ le 4 1) ++ (le 8 seq.toUInt64.toNat ++
        (le 8 postedNs.toUInt64.toNat ++ le 4 v ++ le 4 o ++ body)) := by
    simp [fdbSnapshotHeader]
  rw [hsplit]
  exact field_append

theorem header_postedNs :
    postedNsOf (fdbSnapshotHeader postedNs seq v o ++ body) = .ok postedNs := by
  apply header_word
  have hsplit : fdbSnapshotHeader postedNs seq v o ++ body =
      (le 4 0xfdb50000 ++ le 4 1 ++ le 8 seq.toUInt64.toNat) ++ (le 8 postedNs.toUInt64.toNat ++
        (le 4 v ++ le 4 o ++ body)) := by
    simp [fdbSnapshotHeader]
  rw [hsplit]
  exact field_append

theorem header_valueLen :
    valueLen (fdbSnapshotHeader postedNs seq v o ++ body) = v % 2 ^ 32 := by
  have hsplit : fdbSnapshotHeader postedNs seq v o ++ body =
      (le 4 0xfdb50000 ++ le 4 1 ++ le 8 seq.toUInt64.toNat ++ le 8 postedNs.toUInt64.toNat) ++
        (le 4 v ++ (le 4 o ++ body)) := by
    simp [fdbSnapshotHeader]
  have hfield : field 24 4 (fdbSnapshotHeader postedNs seq v o ++ body) = .ok (ofLe (le 4 v)) := by
    rw [hsplit]
    exact field_append
  rw [field_valueLen (by simp)] at hfield
  rw [Except.ok.inj hfield]
  exact ofLe_le 4 v

theorem header_orderLen :
    orderLen (fdbSnapshotHeader postedNs seq v o ++ body) = o % 2 ^ 32 := by
  have hsplit : fdbSnapshotHeader postedNs seq v o ++ body =
      (le 4 0xfdb50000 ++ le 4 1 ++ le 8 seq.toUInt64.toNat ++ le 8 postedNs.toUInt64.toNat ++
        le 4 v) ++ (le 4 o ++ body) := by
    simp [fdbSnapshotHeader]
  have hfield : field 28 4 (fdbSnapshotHeader postedNs seq v o ++ body) = .ok (ofLe (le 4 o)) := by
    rw [hsplit]
    exact field_append
  rw [field_orderLen (by simp)] at hfield
  rw [Except.ok.inj hfield]
  exact ofLe_le 4 o

end Layout

section Posts

variable (postedNs seq : Int64) {payload order : Bytes}

theorem postSnapshot_empty :
    postSnapshot postedNs seq payload [] = postDocument postedNs seq payload := by
  rw [postSnapshot, List.append_nil]
  rfl

/-- An order needs a value before it, for a value length of zero would leave the
order to the value. -/
theorem postSnapshot_readBack (hvalue : payload ≠ [] ∨ order = [])
    (hp : payload.length < 2 ^ 32) (ho : order.length < 2 ^ 32) :
    ReadBack (postSnapshot postedNs seq payload order) postedNs seq payload order := by
  have hlength : (postSnapshot postedNs seq payload order).length =
      snapshotHeaderBytes + (payload.length + order.length) := by
    simp [postSnapshot]
  have hdrop : (postSnapshot postedNs seq payload order).drop snapshotHeaderBytes =
      payload ++ order := by
    rw [postSnapshot, ← fdbSnapshotHeader_length postedNs seq payload.length order.length,
      List.drop_left]
  have hvalueLen : valueLen (postSnapshot postedNs seq payload order) = payload.length := by
    rw [postSnapshot, header_valueLen, Nat.mod_eq_of_lt hp]
  have horderLen : orderLen (postSnapshot postedNs seq payload order) = order.length := by
    rw [postSnapshot, header_orderLen, Nat.mod_eq_of_lt ho]
  have hvalueRegion : valueRegion (postSnapshot postedNs seq payload order) = payload := by
    rw [valueRegion, hvalueLen, hdrop]
    split
    · next hzero =>
      have hnil := List.eq_nil_of_length_eq_zero hzero
      rcases hvalue with hne | rfl
      · exact absurd hnil hne
      · rw [List.append_nil]
    · exact List.take_left
  have horderRegion : orderRegion (postSnapshot postedNs seq payload order) = order := by
    rw [orderRegion, hvalueLen, horderLen, ← List.drop_drop, hdrop, List.drop_left,
      List.take_length]
  refine ⟨?_, ?_, ⟨hvalueRegion, horderRegion⟩, hdrop, header_seq .., header_postedNs ..⟩
  · intro package
    rw [decodeSnapshotValue_eq, hlength, hvalueLen, hvalueRegion, if_neg (by omega),
      if_neg (by omega : ¬ snapshotHeaderBytes + (payload.length + order.length) <
        snapshotHeaderBytes + payload.length)]
    by_cases hnil : payload = []
    · have horder : order = [] := hvalue.resolve_left fun h => h hnil
      simp [hnil, horder]
    · have hpos := List.length_pos_iff.mpr hnil
      rw [if_neg (by omega), if_neg hnil]
  · intro package
    rw [decodeSnapshotOrder_eq, hlength, hvalueLen, horderLen, horderRegion, if_neg (by omega),
      if_neg (by omega : ¬ snapshotHeaderBytes + (payload.length + order.length) <
        snapshotHeaderBytes + payload.length + order.length)]
    by_cases hnil : order = []
    · simp [hnil]
    · have hpos := List.length_pos_iff.mpr hnil
      rw [if_neg (by omega), if_neg hnil]

/-- PostSnapshot with a value, and the posts without an order, are read back. -/
theorem posts_read_back (hp : payload.length < 2 ^ 32) (ho : order.length < 2 ^ 32) :
    (payload ≠ [] →
      ReadBack (postSnapshot postedNs seq payload order) postedNs seq payload order) ∧
    ReadBack (fdbPostBuffer postedNs.toUInt64 seq payload) postedNs seq payload [] ∧
    ReadBack (postDocument postedNs seq payload) postedNs seq payload [] := by
  have hdocument : ReadBack (postDocument postedNs seq payload) postedNs seq payload [] := by
    rw [← postSnapshot_empty]
    exact postSnapshot_readBack postedNs seq (.inr rfl) hp (by decide)
  exact ⟨fun hne => postSnapshot_readBack postedNs seq (.inl hne) hp ho, hdocument, hdocument⟩

/-- A null with an order of no children. -/
theorem posts_read_back_null :
    ([0xf6] ≠ ([] : Bytes) →
      ReadBack (postSnapshot 7 (-1) [0xf6] [0x80]) 7 (-1) [0xf6] [0x80]) ∧
    ReadBack (fdbPostBuffer (7 : Int64).toUInt64 (-1) [0xf6]) 7 (-1) [0xf6] [] ∧
    ReadBack (postDocument 7 (-1) [0xf6]) 7 (-1) [0xf6] [] :=
  posts_read_back 7 (-1) (by decide) (by decide)

end Posts

end Dart
