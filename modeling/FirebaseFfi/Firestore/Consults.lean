import FirebaseFfi.Firestore.ApplyWrites
import FirebaseFfi.Machine.Oracle

namespace Firestore
open Cbor Tinycbor Machine

/-- A run that throws only where the SDK makes no document of a path. -/
abbrev Consults {α : Type} (run : Document → Except Failure α) : Prop := Asks .threw run

section Consults

variable {α : Type}

theorem Consults.refused : Consults fun _ => (.error .refused : Except Failure α) :=
  .const fun h => by cases h

theorem Consults.checked (r : Except CborError α) : Consults fun _ => checked r := by
  cases r with
  | error e => exact .refused
  | ok a => exact .ok a

theorem consults_loop {σ : Type} {body : Document → CborValue → σ → Except Failure (CborValue × σ)}
    (hbody : ∀ it acc, Consults fun document => body document it acc) (fuel : Nat) (it : CborValue)
    (acc : σ) : Consults fun document => whileNotAtEnd .outOfFuel (body document) fuel it acc := by
  induction fuel generalizing it acc with
  | zero => exact .const fun h => by cases h
  | succ fuel ih =>
    by_cases h0 : it.remaining = 0
    · simp only [whileNotAtEnd_done h0]
      exact .ok _
    · simp only [whileNotAtEnd_step h0]
      exact (hbody it acc).bind fun p => ih p.1 p.2

end Consults

section Decoders

variable {decode : Document → Decoder}

theorem decodeArray_consults (hdec : ∀ it, Consults fun document => decode document it)
    (it : CborValue) : Consults fun document => decodeArray (decode document) it := by
  refine (Consults.checked _).bind fun elem => ?_
  refine Asks.bind (consults_loop (fun it acc => ?_) _ _ _) fun p => ?_
  · exact (hdec it).bind fun _ => .ok _
  · exact (Consults.checked _).bind fun _ => .ok _

theorem decodeMap_consults (hdec : ∀ it, Consults fun document => decode document it)
    (it : CborValue) : Consults fun document => decodeMap (decode document) it := by
  refine (Consults.checked _).bind fun entry => ?_
  refine Asks.bind (consults_loop (fun it acc => ?_) _ _ _) fun p => ?_
  · unfold decodeEntry
    split
    · exact (Consults.checked _).bind fun p => (hdec p.2).bind fun _ => .ok _
    · exact .refused
  · exact (Consults.checked _).bind fun _ => .ok _

theorem readCborDouble_consults (it : CborValue) : Consults fun _ => readCborDouble it := by
  unfold readCborDouble
  split
  · exact .ok _
  · exact .ok _
  · exact .ok _
  · exact .ok _
  · exact .refused

theorem decodeTimestamp_consults (it : CborValue) : Consults fun _ => decodeTimestamp it :=
  (Consults.checked _).bind fun _ => (Consults.checked _).bind fun _ =>
    (Consults.checked _).bind fun _ => (Consults.checked _).bind fun _ => .ok _

theorem decodeGeoPoint_consults (it : CborValue) : Consults fun _ => decodeGeoPoint it :=
  (Consults.checked _).bind fun _ => (readCborDouble_consults _).bind fun _ =>
    (Consults.checked _).bind fun _ => (readCborDouble_consults _).bind fun _ =>
      (Consults.checked _).bind fun _ => (Consults.checked _).bind fun _ => .ok _

theorem decodeIncrementInt_consults (it : CborValue) : Consults fun _ => decodeIncrementInt it :=
  (Consults.checked _).bind fun _ => (Consults.checked _).bind fun _ =>
    (Consults.checked _).bind fun _ => .ok _

theorem decodeIncrementDouble_consults (it : CborValue) :
    Consults fun _ => decodeIncrementDouble it :=
  (Consults.checked _).bind fun _ => (readCborDouble_consults _).bind fun _ =>
    (Consults.checked _).bind fun _ => (Consults.checked _).bind fun _ => .ok _

theorem fixedValue_consults (it : CborValue) (value : FieldValue) :
    Consults fun _ => fixedValue it value :=
  (Consults.checked _).bind fun _ => .ok _

/-- The one place where the SDK is asked for a document. -/
theorem decodeReference_consults (it : CborValue) :
    Consults fun document => decodeReference document it := by
  refine (Consults.checked _).bind fun p => ?_
  exact .question p.1 (p.2, FieldValue.reference p.1)

theorem decodePayload_consults (hdec : ∀ it, Consults fun document => decode document it) (tag : Nat)
    (it : CborValue) : Consults fun document => decodePayload document (decode document) tag it := by
  obtain ⟨run, hrun, heq⟩ := payload_run tag it
  simp only [heq]
  cases hrun with
  | refused => exact .refused
  | sentinel => exact (Consults.checked _).bind fun _ => .ok _
  | timestamp => exact decodeTimestamp_consults it
  | geoPoint => exact decodeGeoPoint_consults it
  | reference => exact decodeReference_consults it
  | incrementInt => exact decodeIncrementInt_consults it
  | incrementDouble => exact decodeIncrementDouble_consults it
  | array => exact (decodeArray_consults hdec it).bind fun _ => .ok _

theorem decodeValue_consults (n : Nat) (it : CborValue) :
    Consults fun document => decodeValue document n it := by
  induction n generalizing it with
  | zero => exact .const fun h => by cases h
  | succ n ih =>
    simp only [decodeValue]
    split
    · exact (Consults.checked _).bind fun it => decodePayload_consults ih _ it
    · exact fixedValue_consults it _
    · exact fixedValue_consults it _
    · exact fixedValue_consults it _
    · exact (readCborDouble_consults it).bind fun d => fixedValue_consults it _
    · exact (readCborDouble_consults it).bind fun d => fixedValue_consults it _
    · exact (readCborDouble_consults it).bind fun d => fixedValue_consults it _
    · exact (Consults.checked _).bind fun _ => .ok _
    · exact (Consults.checked _).bind fun _ => .ok _
    · exact (decodeArray_consults ih it).bind fun _ => .ok _
    · exact (decodeMap_consults ih it).bind fun _ => .ok _
    · exact .refused

theorem parseDocumentCbor_consults (cbor : Bytes) :
    Consults fun document => parseDocumentCbor document cbor := by
  refine (Consults.checked _).bind fun it => ?_
  split
  · exact (decodeMap_consults (decodeValue_consults cbor.length) it).bind fun _ => .ok _
  · exact Consults.refused

theorem documentAt_consults (path : Bytes) : Consults fun document => documentAt document path :=
  .question path path

theorem readText_consults (it : CborValue) : Consults fun _ => readText it := by
  unfold readText
  split
  · exact (Consults.checked _).bind fun _ => .ok _
  · exact .refused

theorem decodeCall_consults (hdec : ∀ it, Consults fun document => decode document it)
    (op path : Bytes) (item : CborValue) :
    Consults fun document => decodeCall document (decode document) op path item := by
  unfold decodeCall
  split
  · exact (documentAt_consults path).bind fun _ => .ok _
  · split
    · exact (decodeMap_consults hdec item).bind fun _ => (documentAt_consults path).bind fun _ => .ok _
    · split
      · exact (decodeMap_consults hdec item).bind fun _ =>
          (documentAt_consults path).bind fun _ => .ok _
      · exact .refused

theorem decodeWrite_consults (hdec : ∀ it, Consults fun document => decode document it)
    (entry : CborValue) :
    Consults fun document => decodeWrite document (decode document) entry := by
  unfold decodeWrite
  split
  · exact (Consults.checked _).bind fun item => (readText_consults item).bind fun p =>
      (readText_consults p.1).bind fun p' => decodeCall_consults hdec p.2 p'.2 p'.1
  · exact .refused

/-- What a turn of the loop comes to, without the calls made. -/
theorem applyEntries_turn {document : Document} {decode : Decoder} {fuel : Nat} {entry : CborValue}
    {txn : List SdkWrite} (hend : cborValueAtEnd entry = false) :
    (applyEntries document decode (fuel + 1) entry txn).2 =
      (decodeWrite document decode entry >>= fun w => checked (cborValueAdvance entry) >>= fun next =>
        (applyEntries document decode fuel next (txn ++ [w])).2) := by
  rw [applyEntries, if_neg (by rw [hend]; exact Bool.false_ne_true)]
  cases decodeWrite document decode entry with
  | error e => rfl
  | ok w => cases cborValueAdvance entry <;> rfl

theorem applyEntries_consults (hdec : ∀ it, Consults fun document => decode document it) (fuel : Nat)
    (entry : CborValue) (txn : List SdkWrite) :
    Consults fun document => (applyEntries document (decode document) fuel entry txn).2 := by
  induction fuel generalizing entry txn with
  | zero => exact .const fun h => by cases h
  | succ fuel ih =>
    cases hend : cborValueAtEnd entry with
    | true =>
      simp only [applyEntries, hend, if_true]
      exact .ok _
    | false =>
      simp only [applyEntries_turn hend]
      exact (decodeWrite_consults hdec entry).bind fun w => (Consults.checked _).bind fun next =>
        ih next (txn ++ [w])

theorem enterWrites_consults (cbor : Bytes) : Consults fun _ => enterWrites cbor := by
  refine (Consults.checked _).bind fun array => ?_
  split
  · exact Consults.checked _
  · exact Consults.refused

theorem applyWrites_consults (cbor : Bytes) :
    Consults fun document => (applyWrites document cbor).2 := by
  by_cases hempty : cbor.isEmpty = true
  · simp only [applyWrites, if_pos hempty]
    exact .ok ()
  · have hrun : ∀ document, (applyWrites document cbor).2 = (enterWrites cbor >>= fun entry =>
        (applyEntries document (decodeValue document cbor.length) (cbor.length + 1) entry []).2) := by
      intro document
      rw [applyWrites, if_neg hempty]
      cases enterWrites cbor <;> rfl
    simp only [hrun]
    exact (enterWrites_consults cbor).bind fun entry =>
      applyEntries_consults (decodeValue_consults cbor.length) _ entry []

end Decoders

end Firestore
