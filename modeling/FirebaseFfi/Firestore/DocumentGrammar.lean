import FirebaseFfi.Firestore.Grammar

namespace Firestore
open Cbor Tinycbor

/-- Input that starts with a well-formed map in which no map has a key twice. -/
structure DocumentInput where
  len : Option Width
  entries : List (Item × Item)
  rest : Bytes
  wf : (Item.map len entries).WF
  distinct : DistinctKeys (.map len entries)

def DocumentInput.item (d : DocumentInput) : Item := .map d.len d.entries

def DocumentInput.bytes (d : DocumentInput) : Bytes := d.item.bytes ++ d.rest

def Accepts (document : Document) (d : DocumentInput) : Prop :=
  ∃ m, parseDocumentCbor document d.bytes = .ok m

/-- The item follows the document encoding. -/
def Conforms (d : DocumentInput) : Prop := ∃ m, Denotes d.item (.map m)

/-- Exactly the conforming items are accepted, each as what it denotes. -/
def ParsedAsDenoted (document : Document) (d : DocumentInput) : Prop :=
  (Accepts document d ↔ Conforms d) ∧
    ∀ m, parseDocumentCbor document d.bytes = .ok m → Denotes d.item (.map m)

/-- Either the item conforms and nothing in it is refused, or it does not
conform and, read in order, a deviation the decoder checks comes before any
item of a shape that it takes for granted. -/
def DeviationsChecked (document : Document) (d : DocumentInput) : Prop :=
  (Conforms d ∧ Taken document d.item) ∨
    (¬ Conforms d ∧ readDocument document d.len d.entries = .fails)

theorem readItem_document {document : Document} {d : DocumentInput} :
    readItem document d.item =
      (do return .map (← readDocument document d.len d.entries)) := by
  rw [DocumentInput.item, readItem, readDocument]
  split <;> rfl

/-- A conforming document is read as one it denotes, unless something in it is refused. -/
theorem Conforms.settles {document : Document} {d : DocumentInput} (h : Conforms d) :
    Settles (Taken document d.item) (fun m => Denotes d.item (.map m))
      (readDocument document d.len d.entries) := by
  obtain ⟨m, hm⟩ := h
  have hitem := hm.settles document d.wf d.distinct
  rw [readItem_document] at hitem
  cases hr : readDocument document d.len d.entries with
  | error e =>
    rw [hr] at hitem
    cases e <;> exact hitem
  | ok m =>
    rw [hr] at hitem
    exact hitem

theorem parse_ok {document : Document} {d : DocumentInput} {m : MapFieldValue}
    (h : readDocument document d.len d.entries = .ok m) :
    parseDocumentCbor document d.bytes = .ok m := by
  have hparse := parseDocumentCbor_reads document d.rest d.wf
  rw [h] at hparse
  exact hparse

theorem parse_fails {document : Document} {d : DocumentInput}
    (h : readDocument document d.len d.entries = .fails) : ¬ Accepts document d := by
  have hparse := parseDocumentCbor_reads document d.rest d.wf
  rw [h] at hparse
  obtain ⟨f, hf⟩ := hparse
  rintro ⟨m, hm⟩
  have : Except.ok m = Except.error f := hm.symm.trans hf
  cases this

theorem parsed_of_taken {document : Document} {d : DocumentInput} (h : Conforms d)
    (ht : Taken document d.item) : ParsedAsDenoted document d := by
  obtain ⟨m, hm, hden⟩ := h.settles.value ht
  have hok := parse_ok hm
  refine ⟨⟨fun _ => h, fun _ => ⟨m, hok⟩⟩, fun m' hm' => ?_⟩
  rw [hok] at hm'
  cases hm'
  exact hden

theorem parsed_of_fails {document : Document} {d : DocumentInput} (h : ¬ Conforms d)
    (hf : readDocument document d.len d.entries = .fails) : ParsedAsDenoted document d := by
  have hno := parse_fails hf
  exact ⟨⟨fun ha => absurd ha hno, fun hc => absurd hc h⟩, fun m hm => absurd ⟨m, hm⟩ hno⟩

/-- Where every deviation is checked, exactly the conforming documents are
accepted, as what they denote. Elsewhere this is so only by the accident of
bytes refused after a shape taken for granted has put the cursor out of step. -/
theorem document_grammar (document : Document) (d : DocumentInput) :
    (DeviationsChecked document d → ParsedAsDenoted document d) ∧
      (Accepts document d ∨ readDocument document d.len d.entries ≠ .unchecked →
        (ParsedAsDenoted document d ↔ DeviationsChecked document d)) := by
  have hif : DeviationsChecked document d → ParsedAsDenoted document d := by
    rintro (⟨hc, ht⟩ | ⟨hc, hf⟩)
    · exact parsed_of_taken hc ht
    · exact parsed_of_fails hc hf
  refine ⟨hif, fun hrun => ⟨fun hp => ?_, hif⟩⟩
  by_cases hc : Conforms d
  · refine .inl ⟨hc, ?_⟩
    by_contra ht
    exact parse_fails (hc.settles.fails ht) (hp.1.mpr hc)
  · have hno : ¬ Accepts document d := fun ha => hc (hp.1.mp ha)
    have hchecked := hrun.resolve_left hno
    refine .inr ⟨hc, ?_⟩
    cases hr : readDocument document d.len d.entries with
    | ok m => exact absurd ⟨m, parse_ok hr⟩ hno
    | error e =>
      cases e with
      | unchecked => exact absurd hr hchecked
      | fails => rfl

/-- A field that holds 2 ^ 63, one more than an int64 can be. -/
def beyondInt64 : DocumentInput where
  len := some .tiny
  entries := [(textItem [0x61], .int false .eight (2 ^ 63))]
  rest := []
  wf := by
    refine .map (by simp [Width.limit]) ?_ ?_
    · simp only [List.mem_singleton, forall_eq]
      exact textItem_wf (by simp [maxSize, sizeMax])
    · simp only [List.mem_singleton, forall_eq]
      exact .int (by simp [Width.limit])
  distinct := by
    refine .map (by simp [textKeys, textItem]) ?_
    simp only [List.mem_singleton, forall_eq]
    exact .int

theorem beyondInt64_wraps :
    parseDocumentCbor (fun _ => true) beyondInt64.bytes =
      .ok [([0x61], .integer (Int64.ofInt (-2 ^ 63)))] := by rfl

theorem document_grammar_broken : ¬ ∀ document d, ParsedAsDenoted document d := by
  intro h
  obtain ⟨-, hden⟩ := h (fun _ => true) beyondInt64
  have hm := hden _ beyondInt64_wraps
  cases hm with
  | map hes =>
    cases hes with
    | cons hv _ =>
      cases hv with
      | integer hi =>
        generalize hz : (Int64.ofInt (-2 ^ 63)).toInt = z at hi
        cases hi
        revert hz
        decide

end Firestore
