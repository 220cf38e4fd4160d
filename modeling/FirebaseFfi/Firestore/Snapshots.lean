import FirebaseFfi.Dart.Snapshot
import FirebaseFfi.Firestore.RoundTrip
import FirebaseFfi.Machine.Run

namespace Firestore
open Cbor Tinycbor
open Dart (ascii)

/-- A snapshot of one document, with its data when the document exists. -/
structure Snapshot where
  data : Option MapFieldValue
  sized : ∀ m, data = some m → (FieldValue.map m).Sized

/-- What PostDocument is called with. -/
structure Posted where
  seq : Int64
  payload : Bytes
  deriving DecidableEq

/-- A failed SerializeDocument leaves its output empty. -/
def serialized (snap : Snapshot) : Bytes := (snap.data.bind serializeDocument).getD []

/-- What the callback of fdb_fs_get posts. `result` is null when the future holds
no snapshot. -/
def Callback.fdbFsGet (error : Int64) (result : Option Snapshot) : Posted :=
  if error ≠ 0 then ⟨-1, []⟩
  else
    match result.bind Snapshot.data with
    | none => ⟨1, []⟩
    | some m =>
      match serializeDocument m with
      | none => ⟨-2, []⟩
      | some payload => ⟨1, payload⟩

/-- Encoded in a buffer of the size that encoding it with none asks for. -/
def errorPayload (text : Bytes) : Bytes :=
  let size := cborEncoderGetExtraBytesNeeded (cborEncodeTextString ⟨.counting 0, 2, false⟩ text).2
  cborEncoderGetBuffer (cborEncodeTextString (cborEncoderInit size) text).2

def listenErrorText (error : Int) (message : Bytes) : Bytes :=
  ascii ("error " ++ toString error) ++ if message.isEmpty then [] else ascii ": " ++ message

/-- The callback of fdb_fs_listen, with its counter as it was. -/
def Callback.fdbFsListen (seq : Int64) (error : Int) (message : Bytes) (snap : Snapshot) :
    Int64 × Posted :=
  if error = 0 then (seq + 1, ⟨seq + 1, serialized snap⟩)
  else (seq, ⟨-1, errorPayload (listenErrorText error message)⟩)

/-- What fdb_fs_txn_begin answers a get with. -/
def Callback.fdbFsTxnGet (code : Int) (snap : Snapshot) : Posted :=
  if code ≠ 0 then ⟨-1, []⟩ else ⟨1, serialized snap⟩

def Posted.Absent (p : Posted) : Prop := p.payload = [] ∧ 0 ≤ p.seq

/-- A post tells a document that is there, one that is absent and one that could
not be serialized apart. One that is there comes whole. -/
structure Reported (snap : Snapshot) (p : Posted) : Prop where
  absent : p.Absent ↔ snap.data = none
  present : ∀ m, snap.data = some m →
    (∃ b, serializeDocument m = some b ∧ b = documentBytes m ∧ p.payload = b ∧ 0 ≤ p.seq) ∨
      (serializeDocument m = none ∧ p.seq < 0)

/-- The counter of a listener before a snapshot. It counts them from 0, and its
overflow is undefined. -/
structure Counter where
  value : Int64
  nonneg : 0 ≤ value
  bounded : value ≠ Int64.maxValue

/-- Each path, once the SDK has a snapshot. -/
structure ReportedAlike (snap : Snapshot) (counter : Counter) : Prop where
  get : Reported snap (Callback.fdbFsGet 0 (some snap))
  listen : Reported snap (Callback.fdbFsListen counter.value 0 [] snap).2
  txn : Reported snap (Callback.fdbFsTxnGet 0 snap)

theorem serializeDocumentLoop_fails {m : MapFieldValue} (h : (FieldValue.map m).Sized)
    {attempts cap : Nat} (hlong : cap * 2 ^ attempts < (documentBytes m).length) :
    serializeDocumentLoop m (attempts + 1) cap = none := by
  induction attempts generalizing cap with
  | zero =>
    have hroom := encodeMap_room h cap
    rw [if_neg (by simpa using hlong)] at hroom
    obtain ⟨enc, henc⟩ := hroom
    rw [serializeDocumentLoop, henc]
    rfl
  | succ attempts ih =>
    have hcap : cap ≤ cap * 2 ^ (attempts + 1) := Nat.le_mul_of_pos_right _ (by positivity)
    have hroom := encodeMap_room h cap
    rw [if_neg (by omega)] at hroom
    obtain ⟨enc, henc⟩ := hroom
    rw [serializeDocumentLoop, henc]
    apply ih
    rwa [Nat.mul_assoc, ← Nat.pow_succ']

/-- SerializeDocument gives the whole encoding, or nothing when it is longer than
the largest buffer. -/
theorem serializeDocument_eq {m : MapFieldValue} (h : (FieldValue.map m).Sized) :
    serializeDocument m =
      if (documentBytes m).length ≤ largestBuffer then some (documentBytes m) else none := by
  split
  · next hfit => exact serializeDocumentLoop_fits h hfit
  · next hlong => exact serializeDocumentLoop_fails h (Nat.lt_of_not_le hlong)

theorem documentBytes_ne_nil (m : MapFieldValue) : documentBytes m ≠ [] := by
  rw [documentBytes, itemOf, mapItem_bytes]
  simp [head]

section Paths

variable {snap : Snapshot} {seq : Int64}

/-- An absent document is an empty payload, and any other its encoding. -/
theorem reported_fits (hseq : 0 ≤ seq)
    (h : ∀ m, snap.data = some m → (documentBytes m).length ≤ largestBuffer) :
    Reported snap ⟨seq, serialized snap⟩ := by
  cases hdata : snap.data with
  | none => exact ⟨by simp [Posted.Absent, serialized, hdata, hseq], by simp [hdata]⟩
  | some m =>
    have hserialized : serializeDocument m = some (documentBytes m) := by
      rw [serializeDocument_eq (snap.sized m hdata), if_pos (h m hdata)]
    have hpayload : serialized snap = documentBytes m := by simp [serialized, hdata, hserialized]
    refine ⟨?_, ?_⟩
    · simp [Posted.Absent, hpayload, documentBytes_ne_nil, hdata]
    · intro n hn
      obtain rfl : m = n := Option.some.inj (hdata.symm.trans hn)
      exact .inl ⟨_, hserialized, rfl, hpayload, hseq⟩

/-- Where the result of SerializeDocument is ignored, a document that is too long
passes for an absent one. -/
theorem not_reported_long (hseq : 0 ≤ seq) {m : MapFieldValue} (hdata : snap.data = some m)
    (hlong : largestBuffer < (documentBytes m).length) :
    ¬ Reported snap ⟨seq, serialized snap⟩ := by
  have hserialized : serializeDocument m = none := by
    rw [serializeDocument_eq (snap.sized m hdata), if_neg (Nat.not_le.mpr hlong)]
  have habsent : (⟨seq, serialized snap⟩ : Posted).Absent :=
    ⟨by simp [serialized, hdata, hserialized], hseq⟩
  intro h
  have := h.absent.mp habsent
  rw [hdata] at this
  cases this

/-- fdb_fs_get, which looks at the result, has a code for it. -/
theorem get_reported (snap : Snapshot) : Reported snap (Callback.fdbFsGet 0 (some snap)) := by
  cases hdata : snap.data with
  | none => exact ⟨by simp [Callback.fdbFsGet, Posted.Absent, hdata], by simp [hdata]⟩
  | some m =>
    cases hserialized : serializeDocument m with
    | none =>
      have hget : Callback.fdbFsGet 0 (some snap) = ⟨-2, []⟩ := by
        simp [Callback.fdbFsGet, hdata, hserialized]
      rw [hget]
      refine ⟨by simp [Posted.Absent, hdata], ?_⟩
      intro n hn
      obtain rfl : m = n := Option.some.inj (hdata.symm.trans hn)
      exact .inr ⟨hserialized, by decide⟩
    | some payload =>
      have hget : Callback.fdbFsGet 0 (some snap) = ⟨1, serialized snap⟩ := by
        simp [Callback.fdbFsGet, serialized, hdata, hserialized]
      rw [hget]
      apply reported_fits (by decide)
      intro n hn
      obtain rfl : m = n := Option.some.inj (hdata.symm.trans hn)
      by_contra hlong
      rw [serializeDocument_eq (snap.sized m hdata), if_neg hlong] at hserialized
      cases hserialized

end Paths

/-- The three paths report a snapshot alike exactly when the document, if it
exists, is no longer than the largest buffer. -/
theorem reportedAlike_iff (snap : Snapshot) (counter : Counter) :
    ReportedAlike snap counter ↔
      ∀ m, snap.data = some m → (documentBytes m).length ≤ largestBuffer := by
  constructor
  · intro h m hdata
    by_contra hlong
    exact not_reported_long (by decide) hdata (Nat.lt_of_not_le hlong) h.txn
  · intro h
    have hnext : 0 ≤ counter.value + 1 :=
      Int64.le_of_lt (Machine.lt_succ_of_le counter.bounded counter.nonneg)
    exact ⟨get_reported snap, reported_fits hnext h, reported_fits (by decide) h⟩

/-- A document with one blob, of zeros. -/
def blobDocument (size : Nat) : MapFieldValue := [([0x61], .blob (List.replicate size 0))]

theorem blobDocument_sized {size : Nat} (h : size ≤ maxSize) :
    (FieldValue.map (blobDocument size)).Sized := by
  refine .map (by simp [blobDocument, maxSize, sizeMax]) ?_ ?_
  · simp [blobDocument, maxSize, sizeMax]
  · intro e he
    obtain rfl := List.mem_singleton.mp he
    exact .blob (by rwa [List.length_replicate])

theorem blobDocument_length (size : Nat) : size < (documentBytes (blobDocument size)).length := by
  rw [documentBytes, itemOf, mapItem_bytes]
  simp only [blobDocument, entriesOf, itemOf, blobItem, bytesEntries, Item.bytes, List.length_append,
    List.length_replicate, head_length]
  omega

def noSnapshots : Counter := ⟨0, by decide, by decide⟩

/-- A blob of 16 MiB makes a document that passes for an absent one. -/
theorem reportedAlike_broken : ¬ ∀ snap counter, ReportedAlike snap counter := by
  intro h
  have hsized : (FieldValue.map (blobDocument largestBuffer)).Sized :=
    blobDocument_sized (by decide)
  let snap : Snapshot :=
    ⟨some (blobDocument largestBuffer), fun m hm => Option.some.inj hm ▸ hsized⟩
  have htxn := (h snap noSnapshots).txn
  exact not_reported_long (by decide) rfl (blobDocument_length largestBuffer) htxn

end Firestore
