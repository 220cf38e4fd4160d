import FirebaseFfi.Dart.Value
import FirebaseFfi.Firestore.DecodeReads

namespace Firestore
open Cbor Tinycbor
open Dart (bind_ok)

/-- A run that does not end for want of fuel. -/
def Ends {α : Type} (r : Except Failure α) : Prop := r ≠ .error .outOfFuel

section Ends

variable {α β : Type}

theorem Ends.ok (a : α) : Ends (.ok a) := by
  intro h
  cases h

theorem Ends.refused : Ends (.error .refused : Except Failure α) := by
  intro h
  cases h

theorem Ends.threw : Ends (.error .threw : Except Failure α) := by
  intro h
  cases h

theorem Ends.checked (r : Except CborError α) : Ends (checked r) := by
  cases r with
  | error e => exact .refused
  | ok a => exact .ok a

/-- Its failure is none for want of fuel, whatever it is passed on as. -/
theorem Ends.error {r : Except Failure α} {e : Failure} (h : Ends r) (he : r = .error e) :
    Ends (.error e : Except Failure β) := by
  intro heq
  cases heq
  exact h he

theorem Ends.bind {r : Except Failure α} {f : α → Except Failure β} (h : Ends r)
    (hf : ∀ a, r = .ok a → Ends (f a)) : Ends (r >>= f) := by
  cases r with
  | error e =>
    intro he
    cases he
    exact h rfl
  | ok a => exact hf a rfl

end Ends

theorem checked_ok {α : Type} {r : Except CborError α} {a : α} (h : checked r = .ok a) :
    r = .ok a := by
  cases r with
  | error e => cases h
  | ok b =>
    cases h
    rfl

/-- A decoder takes some of the input of every value, and `n` bytes are not too
many for the levels it has left. -/
structure Terminates {α : Type} (n : Nat)
    (decode : CborValue → Except Failure (CborValue × α)) : Prop where
  shrinks : ∀ {it r v}, Live it → decode it = .ok (r, v) → Shrinks it r
  ends : ∀ {it}, Live it → 0 < n → it.src.length ≤ n → Ends (decode it)

/-- A loop over what a container holds, which is left at its end. -/
def overContainer {σ α : Type} (body : CborValue → σ → Except Failure (CborValue × σ)) (acc : σ)
    (give : σ → α) (it : CborValue) : Except Failure (CborValue × α) := do
  let elem ← checked (cborValueEnterContainer it)
  let (elem, acc) ← whileNotAtEnd .outOfFuel body (it.src.length + 1) elem acc
  let it ← checked (cborValueLeaveContainer it elem)
  return (it, give acc)

/-- A turn that decodes one element and appends it. -/
def pushElement {α : Type} (decode : CborValue → Except Failure (CborValue × α)) (elem : CborValue)
    (items : List α) : Except Failure (CborValue × List α) := do
  let (elem, v) ← decode elem
  return (elem, items ++ [v])

section Containers

variable {σ α : Type} {body : CborValue → σ → Except Failure (CborValue × σ)} {acc : σ}
  {give : σ → α} {n : Nat} {it r entry : CborValue}

theorem overContainer_shrinks {v : α} (hbody : Progresses body) (hit : Started it)
    (h : overContainer body acc give it = .ok (r, v)) : Shrinks it r := by
  obtain ⟨elem, henter, h⟩ := bind_ok h
  obtain ⟨p, hloop, h⟩ := bind_ok h
  obtain ⟨out, hleave, h⟩ := bind_ok h
  cases h
  have hentered := enter_shrinks hit.src_ne (checked_ok henter)
  obtain ⟨hle, -⟩ := whileNotAtEnd_src hbody hentered.live hloop
  exact leave_shrinks (Nat.lt_of_le_of_lt hle hentered.length) (checked_ok hleave)

/-- Also where the cursor stands at no container. -/
theorem overContainer_within (hbody : Progresses body)
    (hends : ∀ it acc, Started it → it.src.length ≤ n → Ends (body it acc))
    (henter : cborValueEnterContainer it = .ok entry) (hn : entry.src.length ≤ n) :
    Ends (overContainer body acc give it) := by
  obtain ⟨k, hsrc, hlive⟩ := enter_src henter
  have hle : entry.src.length ≤ it.src.length := by
    rw [hsrc, List.length_drop]
    omega
  rw [overContainer, henter]
  refine (Ends.ok entry).bind fun entry hentry => ?_
  cases hentry
  refine Ends.bind ?_ fun p _ => (Ends.checked _).bind fun _ _ => .ok _
  exact whileNotAtEnd_fuel hbody hends hlive hn (by omega)

theorem overContainer_ends (hbody : Progresses body)
    (hends : ∀ it acc, Started it → it.src.length ≤ n → Ends (body it acc)) (hit : Started it)
    (hn : it.src.length ≤ n + 1) : Ends (overContainer body acc give it) := by
  cases henter : cborValueEnterContainer it with
  | error e =>
    rw [overContainer, henter]
    exact .refused
  | ok entry =>
    have hlt := (enter_shrinks hit.src_ne henter).length
    exact overContainer_within hbody hends henter (by omega)

variable {decode : CborValue → Except Failure (CborValue × α)}

theorem pushElement_progresses (hdec : Terminates n decode) : Progresses (pushElement decode) := by
  intro it items it' items' hit h
  obtain ⟨p, hp, h⟩ := bind_ok h
  cases h
  exact hdec.shrinks (.inl hit) hp

theorem pushElement_ends (hdec : Terminates n decode) (it : CborValue) (items : List α)
    (hit : Started it) (hn : it.src.length ≤ n) : Ends (pushElement decode it items) := by
  have hpos := hit.length_pos
  exact (hdec.ends (.inl hit) (by omega) hn).bind fun _ _ => .ok _

end Containers

section Fields

variable {n : Nat} {decode : Decoder} {it r : CborValue}

theorem readCborDouble_ends (it : CborValue) : Ends (readCborDouble it) := by
  intro h
  cases readCborDouble_error h

theorem decodeEntry_progresses (hdec : Terminates n decode) : Progresses (decodeEntry decode) := by
  intro it acc it' acc' hit h
  unfold decodeEntry at h
  split at h
  · obtain ⟨p, hkey, h⟩ := bind_ok h
    obtain ⟨p', hvalue, h⟩ := bind_ok h
    cases h
    have hfirst := dupString_shrinks hit (checked_ok hkey)
    have hsecond := hdec.shrinks hfirst.live hvalue
    exact ⟨Nat.lt_trans hsecond.length hfirst.length, hsecond.live⟩
  · cases h

theorem decodeEntry_ends (hdec : Terminates n decode) (it : CborValue) (acc : MapFieldValue)
    (hit : Started it) (hn : it.src.length ≤ n) : Ends (decodeEntry decode it acc) := by
  unfold decodeEntry
  split
  · refine (Ends.checked _).bind fun p hkey => ?_
    have hfirst := dupString_shrinks hit (checked_ok hkey)
    have hlt := hfirst.length
    exact (hdec.ends hfirst.live (by omega) (by omega)).bind fun _ _ => .ok _
  · exact .refused

theorem decodeArray_eq (decode : Decoder) (it : CborValue) :
    decodeArray decode it = overContainer (pushElement decode) [] id it := rfl

theorem decodeMap_eq (decode : Decoder) (it : CborValue) :
    decodeMap decode it = overContainer (decodeEntry decode) [] id it := rfl

theorem decodeArray_shrinks (hdec : Terminates n decode) {vs : List FieldValue} (hit : Started it)
    (h : decodeArray decode it = .ok (r, vs)) : Shrinks it r := by
  rw [decodeArray_eq] at h
  exact overContainer_shrinks (pushElement_progresses hdec) hit h

theorem decodeMap_shrinks (hdec : Terminates n decode) {m : MapFieldValue} (hit : Started it)
    (h : decodeMap decode it = .ok (r, m)) : Shrinks it r := by
  rw [decodeMap_eq] at h
  exact overContainer_shrinks (decodeEntry_progresses hdec) hit h

theorem decodeArray_ends (hdec : Terminates n decode) (hit : Started it)
    (hn : it.src.length ≤ n + 1) : Ends (decodeArray decode it) := by
  rw [decodeArray_eq]
  exact overContainer_ends (pushElement_progresses hdec) (pushElement_ends hdec) hit hn

theorem decodeMap_within (hdec : Terminates n decode) {entry : CborValue}
    (henter : cborValueEnterContainer it = .ok entry) (hn : entry.src.length ≤ n) :
    Ends (decodeMap decode it) := by
  rw [decodeMap_eq]
  exact overContainer_within (decodeEntry_progresses hdec) (decodeEntry_ends hdec) henter hn

theorem decodeMap_ends (hdec : Terminates n decode) (hit : Started it)
    (hn : it.src.length ≤ n + 1) : Ends (decodeMap decode it) := by
  rw [decodeMap_eq]
  exact overContainer_ends (decodeEntry_progresses hdec) (decodeEntry_ends hdec) hit hn

/-- Two elements are passed over before the pair is left. -/
theorem pair_shrinks {pair pair' pair'' : CborValue} (hit : Started it)
    (henter : checked (cborValueEnterContainer it) = .ok pair)
    (hfirst : checked (cborValueAdvance pair) = .ok pair')
    (hsecond : checked (cborValueAdvance pair') = .ok pair'')
    (hleave : checked (cborValueLeaveContainer it pair'') = .ok r) : Shrinks it r := by
  have hentered := enter_shrinks hit.src_ne (checked_ok henter)
  have hone := advance_shrinks hentered.live (checked_ok hfirst)
  have htwo := advance_shrinks hone.live (checked_ok hsecond)
  have hlt := Nat.lt_trans htwo.length (Nat.lt_trans hone.length hentered.length)
  exact leave_shrinks hlt (checked_ok hleave)

theorem single_shrinks {elem elem' : CborValue} (hit : Started it)
    (henter : checked (cborValueEnterContainer it) = .ok elem)
    (hadv : checked (cborValueAdvance elem) = .ok elem')
    (hleave : checked (cborValueLeaveContainer it elem') = .ok r) : Shrinks it r := by
  have hentered := enter_shrinks hit.src_ne (checked_ok henter)
  have hone := advance_shrinks hentered.live (checked_ok hadv)
  exact leave_shrinks (Nat.lt_trans hone.length hentered.length) (checked_ok hleave)

end Fields

section Values

variable {document : Document} {n : Nat} {decode : Decoder} {it r : CborValue} {v : FieldValue}

theorem decodeTimestamp_shrinks (hit : Started it) (h : decodeTimestamp it = .ok (r, v)) :
    Shrinks it r := by
  obtain ⟨pair, henter, h⟩ := bind_ok h
  obtain ⟨pair', hfirst, h⟩ := bind_ok h
  obtain ⟨pair'', hsecond, h⟩ := bind_ok h
  obtain ⟨out, hleave, h⟩ := bind_ok h
  cases h
  exact pair_shrinks hit henter hfirst hsecond hleave

theorem decodeGeoPoint_shrinks (hit : Started it) (h : decodeGeoPoint it = .ok (r, v)) :
    Shrinks it r := by
  obtain ⟨pair, henter, h⟩ := bind_ok h
  obtain ⟨a, -, h⟩ := bind_ok h
  obtain ⟨pair', hfirst, h⟩ := bind_ok h
  obtain ⟨b, -, h⟩ := bind_ok h
  obtain ⟨pair'', hsecond, h⟩ := bind_ok h
  obtain ⟨out, hleave, h⟩ := bind_ok h
  cases h
  exact pair_shrinks hit henter hfirst hsecond hleave

theorem decodeReference_shrinks (hit : Started it)
    (h : decodeReference document it = .ok (r, v)) : Shrinks it r := by
  obtain ⟨⟨path, next⟩, hdup, h⟩ := bind_ok h
  dsimp only at h
  split at h
  · cases h
    exact dupString_shrinks hit (checked_ok hdup)
  · cases h

theorem decodeIncrementInt_shrinks (hit : Started it) (h : decodeIncrementInt it = .ok (r, v)) :
    Shrinks it r := by
  obtain ⟨elem, henter, h⟩ := bind_ok h
  obtain ⟨elem', hadv, h⟩ := bind_ok h
  obtain ⟨out, hleave, h⟩ := bind_ok h
  cases h
  exact single_shrinks hit henter hadv hleave

theorem decodeIncrementDouble_shrinks (hit : Started it)
    (h : decodeIncrementDouble it = .ok (r, v)) : Shrinks it r := by
  obtain ⟨elem, henter, h⟩ := bind_ok h
  obtain ⟨d, -, h⟩ := bind_ok h
  obtain ⟨elem', hadv, h⟩ := bind_ok h
  obtain ⟨out, hleave, h⟩ := bind_ok h
  cases h
  exact single_shrinks hit henter hadv hleave

theorem decodePayload_shrinks (hdec : Terminates n decode) {t : Nat} (hit : Started it)
    (h : decodePayload document decode t it = .ok (r, v)) : Shrinks it r := by
  obtain ⟨run, hrun, heq⟩ := payload_run t it
  rw [heq] at h
  cases hrun with
  | refused => cases h
  | sentinel =>
    obtain ⟨next, hadv, h⟩ := bind_ok h
    cases h
    exact advance_shrinks (.inl hit) (checked_ok hadv)
  | timestamp => exact decodeTimestamp_shrinks hit h
  | geoPoint => exact decodeGeoPoint_shrinks hit h
  | reference => exact decodeReference_shrinks hit h
  | incrementInt => exact decodeIncrementInt_shrinks hit h
  | incrementDouble => exact decodeIncrementDouble_shrinks hit h
  | array =>
    obtain ⟨p, hp, h⟩ := bind_ok h
    cases h
    exact decodeArray_shrinks hdec hit hp

theorem decodeTimestamp_ends (it : CborValue) : Ends (decodeTimestamp it) :=
  (Ends.checked _).bind fun _ _ => (Ends.checked _).bind fun _ _ => (Ends.checked _).bind fun _ _ =>
    (Ends.checked _).bind fun _ _ => .ok _

theorem decodeGeoPoint_ends (it : CborValue) : Ends (decodeGeoPoint it) :=
  (Ends.checked _).bind fun _ _ => (readCborDouble_ends _).bind fun _ _ =>
    (Ends.checked _).bind fun _ _ => (readCborDouble_ends _).bind fun _ _ =>
    (Ends.checked _).bind fun _ _ => (Ends.checked _).bind fun _ _ => .ok _

theorem decodeReference_ends (document : Document) (it : CborValue) :
    Ends (decodeReference document it) := by
  refine (Ends.checked _).bind fun p _ => ?_
  split
  split
  · exact .ok _
  · exact .threw

theorem decodeIncrementInt_ends (it : CborValue) : Ends (decodeIncrementInt it) :=
  (Ends.checked _).bind fun _ _ => (Ends.checked _).bind fun _ _ => (Ends.checked _).bind fun _ _ =>
    .ok _

theorem decodeIncrementDouble_ends (it : CborValue) : Ends (decodeIncrementDouble it) :=
  (Ends.checked _).bind fun _ _ => (readCborDouble_ends _).bind fun _ _ =>
    (Ends.checked _).bind fun _ _ => (Ends.checked _).bind fun _ _ => .ok _

theorem decodePayload_ends (hdec : Terminates n decode) {t : Nat} (hit : Started it)
    (hn : it.src.length ≤ n + 1) : Ends (decodePayload document decode t it) := by
  obtain ⟨run, hrun, heq⟩ := payload_run t it
  rw [heq]
  cases hrun with
  | refused => exact .refused
  | sentinel => exact (Ends.checked _).bind fun _ _ => .ok _
  | timestamp => exact decodeTimestamp_ends _
  | geoPoint => exact decodeGeoPoint_ends _
  | reference => exact decodeReference_ends _ _
  | incrementInt => exact decodeIncrementInt_ends _
  | incrementDouble => exact decodeIncrementDouble_ends _
  | array => exact (decodeArray_ends hdec hit hn).bind fun _ _ => .ok _

theorem fixedValue_shrinks {value : FieldValue} (hit : Started it)
    (h : fixedValue it value = .ok (r, v)) : Shrinks it r := by
  obtain ⟨next, hadv, h⟩ := bind_ok h
  cases h
  have hadv := checked_ok hadv
  unfold cborValueAdvanceFixed at hadv
  split at hadv
  · cases hadv
  · exact advanceInternal_shrinks hit.src_ne hadv

theorem decodeTagged_shrinks (hdec : Terminates n decode) (hit : Started it) (ht : it.type = .tag)
    (h : decodeTagged document decode it = .ok (r, v)) : Shrinks it r := by
  obtain ⟨next, hadv, h⟩ := bind_ok h
  have hadv := checked_ok hadv
  unfold cborValueAdvanceFixed at hadv
  split at hadv
  · cases hadv
  · have htag := advanceInternal_shrinks hit.src_ne hadv
    have hpayload := decodePayload_shrinks hdec (advance_tag_started ht hadv) h
    exact ⟨Nat.lt_trans hpayload.length htag.length, hpayload.live⟩

theorem decodeTagged_ends (hdec : Terminates n decode) (hit : Started it) (ht : it.type = .tag)
    (hn : it.src.length ≤ n + 1) : Ends (decodeTagged document decode it) := by
  refine (Ends.checked _).bind fun next hadv => ?_
  have hadv := checked_ok hadv
  unfold cborValueAdvanceFixed at hadv
  split at hadv
  · cases hadv
  · have hlt := (advanceInternal_shrinks hit.src_ne hadv).length
    exact decodePayload_ends hdec (advance_tag_started ht hadv) (by omega)

theorem fixedValue_ends (it : CborValue) (value : FieldValue) : Ends (fixedValue it value) :=
  (Ends.checked _).bind fun _ _ => .ok _

/-- A level of nesting for each byte is enough. -/
theorem decodeValue_terminates (document : Document) (n : Nat) :
    Terminates n (decodeValue document n) := by
  induction n with
  | zero =>
    refine ⟨?_, ?_⟩
    · intro it r v _ h
      cases h
    · intro it _ hpos
      omega
  | succ n ih =>
    refine ⟨?_, ?_⟩
    · intro it r v hit h
      rw [decodeValue] at h
      split at h
      · next ht => exact decodeTagged_shrinks ih (hit.of_type (by rw [ht]; decide)) ht h
      · next ht => exact fixedValue_shrinks (hit.of_type (by rw [ht]; decide)) h
      · next ht => exact fixedValue_shrinks (hit.of_type (by rw [ht]; decide)) h
      · next ht => exact fixedValue_shrinks (hit.of_type (by rw [ht]; decide)) h
      · next ht =>
        obtain ⟨d, -, h⟩ := bind_ok h
        exact fixedValue_shrinks (hit.of_type (by rw [ht]; decide)) h
      · next ht =>
        obtain ⟨d, -, h⟩ := bind_ok h
        exact fixedValue_shrinks (hit.of_type (by rw [ht]; decide)) h
      · next ht =>
        obtain ⟨d, -, h⟩ := bind_ok h
        exact fixedValue_shrinks (hit.of_type (by rw [ht]; decide)) h
      · next ht =>
        obtain ⟨p, hdup, h⟩ := bind_ok h
        cases h
        exact dupString_shrinks (hit.of_type (by rw [ht]; decide)) (checked_ok hdup)
      · next ht =>
        obtain ⟨p, hdup, h⟩ := bind_ok h
        cases h
        exact dupString_shrinks (hit.of_type (by rw [ht]; decide)) (checked_ok hdup)
      · next ht =>
        obtain ⟨p, hp, h⟩ := bind_ok h
        cases h
        exact decodeArray_shrinks ih (hit.of_type (by rw [ht]; decide)) hp
      · next ht =>
        obtain ⟨p, hp, h⟩ := bind_ok h
        cases h
        exact decodeMap_shrinks ih (hit.of_type (by rw [ht]; decide)) hp
      · cases h
    · intro it hit _ hn
      rw [decodeValue]
      split
      · next ht => exact decodeTagged_ends ih (hit.of_type (by rw [ht]; decide)) ht hn
      · exact fixedValue_ends _ _
      · exact fixedValue_ends _ _
      · exact fixedValue_ends _ _
      · exact (readCborDouble_ends _).bind fun _ _ => fixedValue_ends _ _
      · exact (readCborDouble_ends _).bind fun _ _ => fixedValue_ends _ _
      · exact (readCborDouble_ends _).bind fun _ _ => fixedValue_ends _ _
      · exact (Ends.checked _).bind fun _ _ => .ok _
      · exact (Ends.checked _).bind fun _ _ => .ok _
      · next ht =>
        exact (decodeArray_ends ih (hit.of_type (by rw [ht]; decide)) hn).bind fun _ _ => .ok _
      · next ht =>
        exact (decodeMap_ends ih (hit.of_type (by rw [ht]; decide)) hn).bind fun _ _ => .ok _
      · exact .refused

end Values

theorem parserInit_live {buffer : Bytes} {it : CborValue} (h : cborParserInit buffer = .ok it) :
    it.src = buffer ∧ Started it := by
  obtain ⟨hsrc, hstarted⟩ := preparse_started h
  exact ⟨hsrc, hstarted.of_src hsrc⟩

/-- The parser of documents is never out of fuel. -/
theorem parseDocumentCbor_ends (document : Document) (cbor : Bytes) :
    Ends (parseDocumentCbor document cbor) := by
  refine (Ends.checked _).bind fun it hinit => ?_
  obtain ⟨hsrc, hstarted⟩ := parserInit_live (checked_ok hinit)
  split
  · refine Ends.bind ?_ fun _ _ => .ok _
    exact decodeMap_ends (decodeValue_terminates document cbor.length) hstarted
      (by rw [hsrc]; omega)
  · exact .refused

end Firestore
