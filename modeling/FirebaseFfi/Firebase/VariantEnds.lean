import FirebaseFfi.Database.QueryDelivery
import FirebaseFfi.Firestore.ApplyWrites

namespace Firebase
open Cbor Tinycbor
open Firestore (Ends Terminates checked checked_ok overContainer overContainer_shrinks
  overContainer_ends pushElement pushElement_progresses pushElement_ends parserInit_live)
open Dart (bind_ok)
open Database (parseVariantMap stringKeyed)

section Containers

variable {less : Less} {n : Nat} {decode : Decoder} {it r : CborValue} {v : Variant}

/-- A key is a value like any other. -/
theorem decodeVariantEntry_progresses (hdec : Terminates n decode) :
    Progresses (decodeVariantEntry less decode) := by
  intro it map it' map' hit h
  obtain ⟨p, hkey, h⟩ := bind_ok h
  obtain ⟨p', hvalue, h⟩ := bind_ok h
  cases h
  have hfirst := hdec.shrinks (.inl hit) hkey
  have hsecond := hdec.shrinks hfirst.live hvalue
  exact ⟨Nat.lt_trans hsecond.length hfirst.length, hsecond.live⟩

theorem decodeVariantEntry_ends (hdec : Terminates n decode) (it : CborValue) (map : VariantMap)
    (hit : Started it) (hn : it.src.length ≤ n) : Ends (decodeVariantEntry less decode it map) := by
  have hpos := hit.length_pos
  refine (hdec.ends (.inl hit) (by omega) hn).bind fun p hkey => ?_
  have hfirst := hdec.shrinks (.inl hit) hkey
  have hlt := hfirst.length
  exact (hdec.ends hfirst.live (by omega) (by omega)).bind fun _ _ => .ok _

theorem decodeVariantArray_eq (decode : Decoder) (it : CborValue) :
    decodeVariantArray decode it = overContainer (pushElement decode) [] .vector it := rfl

theorem decodeVariantMap_eq (decode : Decoder) (it : CborValue) :
    decodeVariantMap less decode it = overContainer (decodeVariantEntry less decode) [] .map it :=
  rfl

theorem decodeVariantArray_shrinks (hdec : Terminates n decode) (hit : Started it)
    (h : decodeVariantArray decode it = .ok (r, v)) : Shrinks it r := by
  rw [decodeVariantArray_eq] at h
  exact overContainer_shrinks (pushElement_progresses hdec) hit h

theorem decodeVariantMap_shrinks (hdec : Terminates n decode) (hit : Started it)
    (h : decodeVariantMap less decode it = .ok (r, v)) : Shrinks it r := by
  rw [decodeVariantMap_eq] at h
  exact overContainer_shrinks (decodeVariantEntry_progresses hdec) hit h

theorem decodeVariantArray_ends (hdec : Terminates n decode) (hit : Started it)
    (hn : it.src.length ≤ n + 1) : Ends (decodeVariantArray decode it) := by
  rw [decodeVariantArray_eq]
  exact overContainer_ends (pushElement_progresses hdec) (pushElement_ends hdec) hit hn

theorem decodeVariantMap_ends (hdec : Terminates n decode) (hit : Started it)
    (hn : it.src.length ≤ n + 1) : Ends (decodeVariantMap less decode it) := by
  rw [decodeVariantMap_eq]
  exact overContainer_ends (decodeVariantEntry_progresses hdec) (decodeVariantEntry_ends hdec) hit
    hn

theorem scalar_shrinks {value : Variant} (hit : Live it) (h : scalar it value = .ok (r, v)) :
    Shrinks it r := by
  obtain ⟨next, hadv, h⟩ := bind_ok h
  cases h
  exact advance_shrinks hit (checked_ok hadv)

theorem scalar_ends (it : CborValue) (value : Variant) : Ends (scalar it value) :=
  (Ends.checked _).bind fun _ _ => .ok _

theorem decodeVariant_shrinks (hdec : Terminates n (decodeVariant less n)) (hit : Live it)
    (h : decodeVariant less (n + 1) it = .ok (r, v)) : Shrinks it r := by
  rw [decodeVariant] at h
  split at h
  · exact scalar_shrinks hit h
  · exact scalar_shrinks hit h
  · exact scalar_shrinks hit h
  · exact scalar_shrinks hit h
  · exact scalar_shrinks hit h
  · exact scalar_shrinks hit h
  · exact scalar_shrinks hit h
  · next ht =>
    obtain ⟨p, hdup, h⟩ := bind_ok h
    cases h
    exact dupString_shrinks (hit.of_type (by rw [ht]; decide)) (checked_ok hdup)
  · next ht =>
    obtain ⟨p, hdup, h⟩ := bind_ok h
    cases h
    exact dupString_shrinks (hit.of_type (by rw [ht]; decide)) (checked_ok hdup)
  · next ht => exact decodeVariantArray_shrinks hdec (hit.of_type (by rw [ht]; decide)) h
  · next ht => exact decodeVariantMap_shrinks hdec (hit.of_type (by rw [ht]; decide)) h
  · cases h

theorem decodeVariant_ends (hdec : Terminates n (decodeVariant less n)) (hit : Live it)
    (hn : it.src.length ≤ n + 1) : Ends (decodeVariant less (n + 1) it) := by
  rw [decodeVariant]
  split
  · exact scalar_ends _ _
  · exact scalar_ends _ _
  · exact scalar_ends _ _
  · exact scalar_ends _ _
  · exact scalar_ends _ _
  · exact scalar_ends _ _
  · exact scalar_ends _ _
  · exact (Ends.checked _).bind fun _ _ => .ok _
  · exact (Ends.checked _).bind fun _ _ => .ok _
  · next ht => exact decodeVariantArray_ends hdec (hit.of_type (by rw [ht]; decide)) hn
  · next ht => exact decodeVariantMap_ends hdec (hit.of_type (by rw [ht]; decide)) hn
  · exact .refused

/-- A level of nesting for each byte is enough. -/
theorem decodeVariant_terminates (less : Less) (n : Nat) : Terminates n (decodeVariant less n) := by
  induction n with
  | zero =>
    refine ⟨?_, ?_⟩
    · intro it r v _ h
      cases h
    · intro it _ hpos
      omega
  | succ n ih => exact ⟨decodeVariant_shrinks ih, fun hit _ => decodeVariant_ends ih hit⟩

end Containers

theorem parseVariant_ends (less : Less) (cbor : Bytes) : Ends (parseVariant less cbor) := by
  refine (Ends.checked _).bind fun it hinit => ?_
  obtain ⟨hsrc, hstarted⟩ := parserInit_live (checked_ok hinit)
  have hpos := hstarted.length_pos
  rw [hsrc] at hpos
  refine ((decodeVariant_terminates less cbor.length).ends (.inl hstarted) hpos ?_).bind
    fun _ _ => .ok _
  rw [hsrc]

/-- Where no map comes of the bytes, they were refused, or they are no map with
strings for keys. -/
theorem parseVariantMap_none {less : Less} {cbor : Bytes}
    (h : parseVariantMap less cbor = none) :
    (∃ e, parseVariant less cbor = .error e ∧ e ≠ .outOfFuel) ∨
      ∃ v, parseVariant less cbor = .ok v ∧ ∀ es, v = .map es → stringKeyed .empty es = none := by
  have hends := parseVariant_ends less cbor
  cases hparse : parseVariant less cbor with
  | error e =>
    refine .inl ⟨e, rfl, ?_⟩
    intro he
    subst he
    exact hends hparse
  | ok v =>
    refine .inr ⟨v, rfl, ?_⟩
    intro es hv
    subst hv
    rw [parseVariantMap, hparse] at h
    exact h

/-- What the decoders of the library make of any bytes at all. -/
structure DecodersEnd (less : Less) (sdk : Firestore.Sdk) (path cbor : Bytes) : Prop where
  variant : Ends (parseVariant less cbor)
  variantMap : parseVariantMap less cbor = none →
    (∃ e, parseVariant less cbor = .error e ∧ e ≠ .outOfFuel) ∨
      ∃ v, parseVariant less cbor = .ok v ∧ ∀ es, v = .map es → stringKeyed .empty es = none
  document : Ends (Firestore.parseDocumentCbor sdk.document cbor)
  writes : Ends (Firestore.applyWrites sdk.document cbor).2
  query : Ends (Firestore.buildQuery sdk path cbor)
  /-- More turns of the loop would not change what the pre-pass answers. -/
  group : ∀ {map entry : CborValue} {fuel : Nat}, cborParserInit cbor = .ok map →
    cborValueEnterContainer map = .ok entry → cbor.length < fuel →
      Firestore.wantsCollectionGroup fuel entry =
        Firestore.wantsCollectionGroup (cbor.length + 1) entry
  strings : ∀ it, Finishes (cborValueDupString it)
  advances : ∀ it, Finishes (cborValueAdvance it)

/-- No bytes keep a decoder of the library from ending: each loop takes some of
the input in every turn, and no more levels are entered than there are bytes. -/
theorem decoders_end (less : Less) (sdk : Firestore.Sdk) (path cbor : Bytes) :
    DecodersEnd less sdk path cbor where
  variant := parseVariant_ends less cbor
  variantMap := parseVariantMap_none
  document := Firestore.parseDocumentCbor_ends sdk.document cbor
  writes := Firestore.applyWrites_ends sdk.document cbor
  query := Firestore.buildQuery_ends sdk path cbor
  group := by
    intro map entry fuel hinit henter hfuel
    obtain ⟨hsrc, hstarted⟩ := parserInit_live hinit
    have hentered := enter_shrinks hstarted.src_ne henter
    have hlt := hentered.length
    rw [hsrc] at hlt
    exact Firestore.wantsCollectionGroup_fuel hentered.live (by omega) (by omega)
  strings := dupString_finishes
  advances := advance_finishes

end Firebase
