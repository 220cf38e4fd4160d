import FirebaseFfi.Firestore.QueryGrammar
import FirebaseFfi.Firestore.TxnState

namespace Firestore
open Cbor Tinycbor Machine
open Dart (ascii bind_ok)

/-- A call on the writer, a Transaction or a WriteBatch. -/
inductive SdkWrite
  | set (path : Bytes) (data : MapFieldValue) (merge : Bool)
  | update (path : Bytes) (data : MapFieldValue)
  | delete (path : Bytes)

/-- `g_firestore->Document(path)` -/
def documentAt (document : Document) (path : Bytes) : Except Failure Bytes :=
  if document path then .ok path else .error .threw

/-- The call an op stands for, with the cursor at its data. What follows in the
entry is not looked at. -/
def decodeCall (document : Document) (decodeValue : Decoder) (op path : Bytes) (item : CborValue) :
    Except Failure SdkWrite :=
  if op = ascii "delete" then do
    return .delete (← documentAt document path)
  else if op = ascii "set" ∨ op = ascii "merge" then do
    let (_, data) ← decodeMap decodeValue item
    return .set (← documentAt document path) data (op = ascii "merge")
  else if op = ascii "update" then do
    let (_, data) ← decodeMap decodeValue item
    return .update (← documentAt document path) data
  else
    .error .refused

def decodeWrite (document : Document) (decodeValue : Decoder) (entry : CborValue) :
    Except Failure SdkWrite :=
  if entry.type == .array then do
    let item ← checked (cborValueEnterContainer entry)
    let (item, op) ← readText item
    let (item, path) ← readText item
    decodeCall document decodeValue op path item
  else
    .error .refused

/-- The loop over the entries, with the calls made so far. A call is made before
the cursor moves on. -/
def applyEntries (document : Document) (decodeValue : Decoder) :
    Nat → CborValue → List SdkWrite → List SdkWrite × Except Failure Unit
  | 0, _, txn => (txn, .error .outOfFuel)
  | fuel + 1, entry, txn =>
    if cborValueAtEnd entry then (txn, .ok ())
    else match decodeWrite document decodeValue entry with
      | .error e => (txn, .error e)
      | .ok w =>
        match cborValueAdvance entry with
        | .error _ => (txn ++ [w], .error .refused)
        | .ok entry => applyEntries document decodeValue fuel entry (txn ++ [w])

/-- The cursor at the first entry. -/
def enterWrites (cbor : Bytes) : Except Failure CborValue := do
  let array ← checked (cborParserInit cbor)
  if array.type == .array then checked (cborValueEnterContainer array) else .error .refused

def applyWrites (document : Document) (cbor : Bytes) : List SdkWrite × Except Failure Unit :=
  if cbor.isEmpty then ([], .ok ())
  else match enterWrites cbor with
    | .error e => ([], .error e)
    | .ok entry =>
      applyEntries document (decodeValue document cbor.length) (cbor.length + 1) entry []

/-- How fdb_fs_batch_commit ends, and the calls of the batch it committed. -/
structure BatchCommit where
  code : Except Failure Int64
  committed : Option (List SdkWrite)

/-- `ready` is `g_firestore != nullptr`. -/
def fdbFsBatchCommit (ready : Bool) (document : Document) (writes : Bytes) : BatchCommit :=
  if !ready then ⟨.ok (-1), none⟩
  else match applyWrites document writes with
    | (batch, .ok ()) => ⟨.ok 0, some batch⟩
    | (_, .error .refused) => ⟨.ok (-3), none⟩
    | (_, .error e) => ⟨.error e, none⟩

/-- What ApplyWrites comes to in the update function. -/
def applied (document : Document) (writes : Bytes) : Applied :=
  match (applyWrites document writes).2 with
  | .ok () => .ok
  | .error .threw => .threw
  | .error _ => .refused

/-- The update function goes on as ApplyWrites does on the writes it took. -/
def Applies (document : Document) (s : Native) : Action → Prop
  | .apply r => ∀ writes, s.lambda = .applying writes → r = applied document writes
  | _ => True

/-- The cursors at the entries of a list, which advancing leads to. -/
inductive EntryAt (cbor : Bytes) : CborValue → Prop
  | first {entry} : enterWrites cbor = .ok entry → EntryAt cbor entry
  | next {entry entry'} : EntryAt cbor entry → cborValueAtEnd entry = false →
      cborValueAdvance entry = .ok entry' → EntryAt cbor entry'

/-- Some entry cannot be decoded, or be passed over. -/
def EntryFails (document : Document) (cbor : Bytes) : Prop :=
  ∃ entry, EntryAt cbor entry ∧ cborValueAtEnd entry = false ∧
    ((∃ e, decodeWrite document (decodeValue document cbor.length) entry = .error e) ∨
      ∃ e, cborValueAdvance entry = .error e)

section Ends

variable {document : Document} {n fuel : Nat} {decode : Decoder} {entry : CborValue}
  {txn : List SdkWrite}

theorem documentAt_ends (path : Bytes) : Ends (documentAt document path) := by
  unfold documentAt
  split
  · exact .ok path
  · exact .threw

/-- The data of a set or an update, wherever the cursor stands for it. -/
theorem data_ends (hdec : Terminates n decode) {item : CborValue} (hn : item.src.length ≤ n)
    (path : Bytes) (f : Bytes → MapFieldValue → SdkWrite) :
    Ends (do
      let (_, data) ← decodeMap decode item
      return f (← documentAt document path) data) := by
  refine Ends.bind ?_ fun p _ => (documentAt_ends path).bind fun _ _ => .ok _
  cases henter : cborValueEnterContainer item with
  | error e =>
    rw [decodeMap, henter]
    exact .refused
  | ok entered =>
    obtain ⟨k, hsrc, -⟩ := enter_src henter
    refine decodeMap_within hdec henter ?_
    rw [hsrc, List.length_drop]
    omega

theorem decodeCall_ends (hdec : Terminates n decode) (op path : Bytes) {item : CborValue}
    (hn : item.src.length ≤ n) : Ends (decodeCall document decode op path item) := by
  unfold decodeCall
  split
  · exact (documentAt_ends _).bind fun _ _ => .ok _
  · split
    · exact data_ends hdec hn _ fun path data => .set path data _
    · split
      · exact data_ends hdec hn _ .update
      · exact .refused

theorem decodeWrite_ends (hdec : Terminates n decode) (hit : Started entry)
    (hn : entry.src.length ≤ n) : Ends (decodeWrite document decode entry) := by
  unfold decodeWrite
  split
  · refine (Ends.checked _).bind fun item henter => ?_
    have hentered := enter_shrinks hit.src_ne (checked_ok henter)
    refine (readText_ends _).bind fun p hop => ?_
    have hfirst := readText_shrinks hentered.live hop
    refine (readText_ends _).bind fun p' hpath => ?_
    have hsecond := readText_shrinks hfirst.live hpath
    have hlt := Nat.lt_trans hsecond.length (Nat.lt_trans hfirst.length hentered.length)
    exact decodeCall_ends hdec _ _ (by omega)
  · exact .refused

theorem applyEntries_ends (hdec : Terminates n decode) (hit : Live entry)
    (hn : entry.src.length ≤ n) (hfuel : entry.src.length < fuel) :
    Ends (applyEntries document decode fuel entry txn).2 := by
  induction fuel generalizing entry txn with
  | zero => omega
  | succ fuel ih =>
    unfold applyEntries
    split
    · exact .ok ()
    · next hend =>
      have h0 : entry.remaining ≠ 0 := by simpa [cborValueAtEnd] using hend
      have hwrite : Ends (decodeWrite document decode entry) :=
        decodeWrite_ends hdec (hit.started h0) hn
      split
      · next e he =>
        exact hwrite.error he
      · split
        · exact .refused
        · next entry' hadv =>
          have hshrinks := advance_shrinks hit hadv
          exact ih hshrinks.live (by have := hshrinks.length; omega)
            (by have := hshrinks.length; omega)

theorem enterWrites_src {cbor : Bytes} (h : enterWrites cbor = .ok entry) :
    Live entry ∧ entry.src.length < cbor.length := by
  obtain ⟨array, hinit, h⟩ := bind_ok h
  obtain ⟨hsrc, hstarted⟩ := parserInit_live (checked_ok hinit)
  split at h
  · have hentered := enter_shrinks hstarted.src_ne (checked_ok h)
    exact ⟨hentered.live, by rw [← hsrc]; exact hentered.length⟩
  · cases h

theorem enterWrites_ends (cbor : Bytes) : Ends (enterWrites cbor) := by
  refine (Ends.checked _).bind fun array _ => ?_
  split
  · exact .checked _
  · exact .refused

/-- ApplyWrites is never out of fuel. -/
theorem applyWrites_ends (document : Document) (cbor : Bytes) :
    Ends (applyWrites document cbor).2 := by
  unfold applyWrites
  split
  · exact .ok ()
  · have hends := enterWrites_ends cbor
    split
    · next e he =>
      exact hends.error he
    · next entry hentry =>
      obtain ⟨hlive, hlt⟩ := enterWrites_src hentry
      exact applyEntries_ends (decodeValue_terminates document cbor.length) hlive (by omega)
        (by omega)

end Ends

section AllOrNothing

variable {document : Document} {cbor : Bytes} {decode : Decoder} {entry : CborValue}

/-- From here the loop gets to the end. -/
def Reaches (document : Document) (decode : Decoder) (entry : CborValue) : Prop :=
  ∃ fuel txn, (applyEntries document decode fuel entry txn).2 = .ok ()

/-- Where the loop gets to the end, the entry at hand is decoded and passed
over, and the loop gets to the end from the next. -/
theorem Reaches.passes (h : Reaches document decode entry) (hend : cborValueAtEnd entry = false) :
    (∃ w, decodeWrite document decode entry = .ok w) ∧
      ∃ entry', cborValueAdvance entry = .ok entry' ∧ Reaches document decode entry' := by
  obtain ⟨fuel, txn, h⟩ := h
  cases fuel with
  | zero => cases h
  | succ fuel =>
    rw [applyEntries, if_neg (by rw [hend]; exact Bool.false_ne_true)] at h
    split at h
    · cases h
    · next w hw =>
      split at h
      · cases h
      · next entry' hadv => exact ⟨⟨w, hw⟩, entry', hadv, fuel, txn ++ [w], h⟩

theorem EntryAt.reaches (hat : EntryAt cbor entry)
    (h : (applyWrites document cbor).2 = .ok ()) :
    Reaches document (decodeValue document cbor.length) entry := by
  induction hat with
  | @first entry hentry =>
    have hne : cbor ≠ [] := by
      intro hnil
      subst hnil
      cases hentry
    rw [applyWrites, if_neg (by simpa using hne), hentry] at h
    exact ⟨_, _, h⟩
  | next _ hend hadv ih =>
    obtain ⟨-, entry', hadv', hreaches⟩ := ih.passes hend
    rw [hadv] at hadv'
    cases hadv'
    exact hreaches

/-- When ApplyWrites succeeds, no entry fails. -/
theorem applied_whole (h : (applyWrites document cbor).2 = .ok ()) :
    ¬ EntryFails document cbor := by
  intro hfails
  obtain ⟨entry, hat, hend, hfails⟩ := hfails
  obtain ⟨⟨w, hw⟩, entry', hadv, -⟩ := (hat.reaches h).passes hend
  rcases hfails with ⟨e, he⟩ | ⟨e, he⟩
  · rw [hw] at he
    cases he
  · rw [hadv] at he
    cases he

/-- Of a batch with an entry that fails, nothing is committed. -/
theorem batch_whole (ready : Bool) (h : EntryFails document cbor) :
    (fdbFsBatchCommit ready document cbor).committed = none := by
  unfold fdbFsBatchCommit
  split
  · rfl
  · split
    · next batch hbatch => exact absurd h (applied_whole (by rw [hbatch]))
    · rfl
    · rfl

theorem applied_ok (h : applied document cbor = .ok) : (applyWrites document cbor).2 = .ok () := by
  unfold applied at h
  split at h
  · next hok => exact hok
  · cases h
  · cases h

end AllOrNothing

end Firestore
