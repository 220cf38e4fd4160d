import FirebaseFfi.Firestore.TransactionRun
import FirebaseFfi.Firestore.WriteLists

namespace Firestore
open Cbor Tinycbor Dart Machine

/-- Writes that are buffered and applied as one. -/
structure FirestoreBatch where
  writes : List Object

def FirestoreBatch.record (batch : FirestoreBatch) (w : Write) : FirestoreBatch :=
  ⟨batch.writes ++ [w.recorded]⟩

/-- The buffer fdb_fs_batch_commit is called with. An empty batch makes no call. -/
def FirestoreBatch.commit (package : CborPackage) (batch : FirestoreBatch) :
    Except Thrown (Option Bytes) :=
  if batch.writes.isEmpty then .ok none
  else do
    return some (package.encode
      (← encodeFirestoreValue package.toString (.list batch.writes)))

/-- The writes of a run, in order. -/
def HandlerRun.writes (run : HandlerRun) : List Write :=
  run.steps.filterMap fun
    | .get _ _ => none
    | .write w => some w

/-- The data is encodable and string-keyed, and nested below the limit of the
parser. -/
structure Write.Proper (w : Write) : Prop where
  keyed : w.DataIs StringKeyed
  shallow : w.DataIs fun d => nesting d < cborParserMaxRecursions

theorem batch_writes (batch : FirestoreBatch) (ws : List Write) :
    (ws.foldl FirestoreBatch.record batch).writes = batch.writes ++ ws.map Write.recorded := by
  induction ws generalizing batch with
  | nil => simp
  | cons w ws ih =>
    rw [List.foldl_cons, ih]
    simp [FirestoreBatch.record]

theorem recorded_writes (run : HandlerRun) : run.recorded = run.writes.map Write.recorded := by
  unfold HandlerRun.recorded HandlerRun.writes
  rw [List.map_filterMap]
  congr 1
  funext step
  cases step <;> rfl

theorem StringKeyed.storable {toString : Object → Option Bytes} {d : Object} (h : StringKeyed d) :
    Storable toString d := by
  induction h with
  | list _ ih => exact .list ih
  | arrayUnion _ ih => exact .arrayUnion ih
  | arrayRemove _ ih => exact .arrayRemove ih
  | map _ hk _ ih =>
    refine .map (fun e he => ?_) ih
    obtain ⟨s, hs⟩ := hk e he
    rw [hs]
    exact Option.some_ne_none s
  | _ => constructor

theorem Write.Proper.storable {toString : Object → Option Bytes} {w : Write} (h : w.Proper) :
    Storable toString w.recorded := by
  rw [recorded_eq]
  refine .list fun d hd => ?_
  rcases List.mem_cons.mp hd with rfl | hd
  · exact .string
  · rcases List.mem_cons.mp hd with rfl | hd
    · exact .string
    · exact (h.keyed d hd).storable

section Update

variable {document : Document} {s t : Native} {writes : Bytes}

theorem serve_not_ok (s : Native) : (serve s).1.lambda ≠ .returned (.ok writes) := by
  unfold serve
  split <;> exact fun h => by cases h

theorem served_not_ok {events : List Event} (h : serve s = (t, events)) :
    t.lambda ≠ .returned (.ok writes) := by
  have ht : (serve s).1 = t := by rw [h]
  rw [← ht]
  exact serve_not_ok s

/-- The update function that returns ok has applied its writes whole. -/
def Applied.Whole (document : Document) (s : Native) : Prop :=
  ∀ writes, s.lambda = .returned (.ok writes) → applied document writes = .ok

theorem Applied.Whole.step {a : Action} {events : List Event} (h : Applied.Whole document s)
    (hg : Applies document s a) (hstep : Firestore.step document s a = some (t, events)) :
    Applied.Whole document t := by
  intro writes ht
  cases a with
  | call c =>
    simp only [Firestore.step, Option.ite_none_right_eq_some] at hstep
    cases hstep.2
    exact h writes ht
  | lock i =>
    simp only [Firestore.step] at hstep
    split at hstep
    · cases hstep
      exact h writes ht
    · cases hstep
  | run =>
    simp only [Firestore.step, Option.ite_none_right_eq_some] at hstep
    cases hstep.2
    exact absurd ht (serve_not_ok _)
  | wake =>
    simp only [Firestore.step] at hstep
    split at hstep
    · split at hstep
      · cases hstep
      · exact absurd ht (served_not_ok (Option.some.inj hstep))
    · cases hstep
  | answer =>
    simp only [Firestore.step] at hstep
    split at hstep
    · split at hstep
      · cases hstep
        cases ht
      · cases hstep
        cases ht
    · cases hstep
  | relock =>
    simp only [Firestore.step] at hstep
    split at hstep
    · exact absurd ht (served_not_ok (Option.some.inj hstep))
    · cases hstep
  | apply r =>
    simp only [Firestore.step] at hstep
    split at hstep
    · next taken hl =>
      cases hstep
      cases ht
      exact (hg writes hl).symm
    · cases hstep
      cases ht
    · cases hstep
      cases ht
    · cases hstep
  | finish =>
    simp only [Firestore.step, Option.ite_none_right_eq_some] at hstep
    cases hstep.2
    exact h writes ht

/-- A step of the native side, whatever is seen of it. -/
def Native.step (document : Document) (s : Native) (a : Action) : Option Native :=
  (Firestore.step document s a).map Prod.fst

theorem returned_whole (h : Run (Native.step document) (Applies document) .start s)
    (hs : s.lambda = .returned (.ok writes)) : ¬ EntryFails document writes := by
  have hwhole : Applied.Whole document s := by
    refine h.invariant ?_ ?_
    · intro writes hl
      cases hl
    · intro s a t hs hg hstep
      obtain ⟨⟨t, events⟩, ht, rfl⟩ := Option.map_eq_some_iff.mp hstep
      exact hs.step hg ht
  exact applied_whole (applied_ok (hwhole writes hs))

end Update

section Lists

variable (document : Document) (package : CborPackage)

/-- The writes are passed on, each as the call it stands for, exactly when
nothing in their list is refused or changed by the way it is encoded. -/
def PassedOn (ws : List Write) (x : Item) : Prop :=
  ∃ bytes, encodeWrites package (ws.map Write.recorded) = .ok bytes ∧
    (ws.foldl FirestoreBatch.record ⟨[]⟩).commit package =
      .ok (if ws.isEmpty then none else some bytes) ∧
    (Issues document bytes ws ↔ Carriable document ws x)

theorem passed_on {ws : List Write} (hws : ∀ w ∈ ws, w.Proper) {c : Dart.CborValue}
    (hc : encodeFirestoreValue package.toString (.list (ws.map Write.recorded)) = .ok c) {x : Item}
    (hx : Emits c x) (hwf : x.WF) (hbytes : package.encode c = x.bytes) :
    PassedOn document package ws x := by
  have hlist : Issues document x.bytes ws ↔ Carriable document ws x :=
    list_issued hc hx hwf (fun w hw => (hws w hw).keyed) fun w hw => (hws w hw).shallow
  have hbatch : (ws.foldl FirestoreBatch.record ⟨[]⟩).writes = ws.map Write.recorded :=
    batch_writes ⟨[]⟩ ws
  cases ws with
  | nil =>
    refine ⟨[], rfl, rfl, iff_of_true ⟨rfl, .nil⟩ ?_⟩
    obtain ⟨cs, hcs, hc⟩ := bind_ok hc
    cases hcs
    cases hc
    cases hx with
    | list hx =>
      cases hx
      refine ⟨by simp, .array (tooMany_of_length (by decide)) (by simp), .array (by simp), by simp⟩
  | cons w ws =>
    refine ⟨x.bytes, ?_, ?_, hlist⟩
    · rw [encodeWrites, List.map_cons, List.isEmpty_cons, if_neg Bool.false_ne_true,
        ← List.map_cons, hc, ← hbytes]
      rfl
    · rw [FirestoreBatch.commit, hbatch, List.map_cons, List.isEmpty_cons,
        if_neg Bool.false_ne_true, ← List.map_cons, hc, ← hbytes]
      rfl

/-- Lists of writes reach the SDK whole or not at all. Recorded on a batch or in
a transaction, they are encoded, and issued as the same calls exactly when
nothing in the list is refused or changed. An attempt applies what its own run
of the handler recorded. Of a list with an entry that fails nothing is
committed. -/
theorem writes_issued :
    (∀ ws : List Write, (∀ w ∈ ws, w.Proper) →
      ∃ c, encodeFirestoreValue package.toString (.list (ws.map Write.recorded)) = .ok c ∧
        ∀ x, Emits c x → x.WF → package.encode c = x.bytes → PassedOn document package ws x) ∧
    (∀ (limit : UInt32) (txnId : Int64) (w : World),
      Run (World.step package document limit) (fun _ _ => True) (.start txnId) w →
      ∀ bytes, w.native.lambda = .applying bytes → ∃ k run, w.native.state.attempt = k + 1 ∧
        w.runs[k]? = some run ∧ run.thrown = none ∧
        encodeWrites package (run.writes.map Write.recorded) = .ok bytes) ∧
    (∀ cbor, EntryFails document cbor →
      (∀ ready, (fdbFsBatchCommit ready document cbor).committed = none) ∧
      ∀ s, Run (Native.step document) (Applies document) .start s →
        s.lambda ≠ .returned (.ok cbor)) := by
  refine ⟨?_, ?_, ?_⟩
  · intro ws hws
    have hstorable : Storable package.toString (.list (ws.map Write.recorded)) := by
      refine .list fun d hd => ?_
      obtain ⟨w, hw, rfl⟩ := List.mem_map.mp hd
      exact (hws w hw).storable
    obtain ⟨c, hc⟩ := (encodeFirestoreValue_ok _).mpr hstorable
    exact ⟨c, hc, fun x hx hwf hbytes => passed_on document package hws hc hx hwf hbytes⟩
  · intro limit txnId w hrun bytes hl
    obtain ⟨k, run, hattempt, hlast, hthrown, hbytes⟩ := (attended txnId hrun).applying hl
    rw [recorded_writes] at hbytes
    exact ⟨k, run, hattempt, hlast, hthrown, hbytes⟩
  · intro cbor hfails
    refine ⟨fun ready => batch_whole ready hfails, ?_⟩
    intro s hrun hl
    exact returned_whole hrun hl hfails

end Lists

/-- A set of one field and a delete, with the item they may be encoded as. -/
def setThenDelete : List Write :=
  [.set (ascii "c/d") [(ascii "a", .int 5)] false, .delete (ascii "c/e")]

/-- An entry that sets one field. -/
def setEntryItem (x : Item) : Item :=
  .array none [textItem (ascii "set"), textItem (ascii "c/d"), .map none [(textItem (ascii "a"), x)]]

def deleteEntryItem : Item := .array none [textItem (ascii "delete"), textItem (ascii "c/e")]

def setThenDeleteItem : Item := .array none [setEntryItem (.int false .tiny 5), deleteEntryItem]

/-- A package as far as the one list of writes. -/
def listPackage (x : Item) : CborPackage := { idlePackage with encode := fun _ => x.bytes }

theorem entry_wf {xs : List Item} (h : ∀ x ∈ xs, x.WF) : (Item.array none xs).WF :=
  .array (fun w hw => by cases hw) h

theorem setEntryItem_wf {x : Item} (hx : x.WF) : (setEntryItem x).WF := by
  refine entry_wf fun y hy => ?_
  simp only [List.mem_cons, List.not_mem_nil, or_false] at hy
  rcases hy with rfl | rfl | rfl
  · exact textItem_wf (by decide)
  · exact textItem_wf (by decide)
  · refine .map (fun w hw => by cases hw) (fun e he => ?_) fun e he => ?_
    · rw [List.mem_singleton.mp he]
      exact textItem_wf (by decide)
    · rw [List.mem_singleton.mp he]
      exact hx

theorem setEntryItem_emitted {c : Dart.CborValue} {x : Item} (hx : Emits c x) :
    Emits (.list [.string (ascii "set"), .string (ascii "c/d"), .map [(.string (ascii "a"), c)]])
      (setEntryItem x) :=
  .list (.cons (emits_text _) (.cons (emits_text _)
    (.cons (.map (.cons (emits_text _) hx .nil)) .nil)))

/-- Data of one field that is a number is proper. -/
theorem setField_proper {d : Object} (hd : StringKeyed d) (hflat : nesting d = 0) :
    (Write.set (ascii "c/d") [(ascii "a", d)] false).Proper := by
  refine ⟨fun e he => ?_, fun e he => ?_⟩
  · rw [List.mem_singleton.mp he]
    refine .map (by simp) (fun e he => ?_) fun e he => ?_
    · rw [List.mem_singleton.mp he]
      exact ⟨_, rfl⟩
    · rw [List.mem_singleton.mp he]
      exact hd
  · rw [List.mem_singleton.mp he]
    simp [documentData, nesting, nestingEntries, hflat, cborParserMaxRecursions]

theorem delete_proper (path : Bytes) : (Write.delete path).Proper :=
  ⟨fun d hd => (by cases hd), fun d hd => (by cases hd)⟩

theorem deleteEntryItem_wf : deleteEntryItem.WF := by
  refine entry_wf fun y hy => ?_
  simp only [List.mem_cons, List.not_mem_nil, or_false] at hy
  rcases hy with rfl | rfl <;> exact textItem_wf (by decide)

theorem mem_setThenDelete {w : Write} (h : w ∈ setThenDelete) :
    w = .set (ascii "c/d") [(ascii "a", .int 5)] false ∨ w = .delete (ascii "c/e") := by
  simpa [setThenDelete] using h

theorem mem_setThenDeleteItem {x : Item}
    (h : x ∈ [setEntryItem (.int false .tiny 5), deleteEntryItem]) :
    x = setEntryItem (.int false .tiny 5) ∨ x = deleteEntryItem := by
  simpa using h

theorem setThenDeleteItem_wf : setThenDeleteItem.WF := by
  refine entry_wf fun y hy => ?_
  rcases mem_setThenDeleteItem hy with rfl | rfl
  · exact setEntryItem_wf (.int (by decide))
  · exact deleteEntryItem_wf

theorem setThenDelete_proper : ∀ w ∈ setThenDelete, w.Proper := by
  intro w hw
  rcases mem_setThenDelete hw with rfl | rfl
  · exact setField_proper .int rfl
  · exact delete_proper _

theorem setThenDelete_carriable :
    Carriable (fun _ => true) setThenDelete setThenDeleteItem := by
  refine ⟨?_, ?_, ?_, fun _ _ => rfl⟩
  · intro w hw
    rcases mem_setThenDelete hw with rfl | rfl
    · intro d hd
      rw [List.mem_singleton.mp hd]
      refine .map (by simp) (fun e he => ?_) fun e he => ?_
      · rw [List.mem_singleton.mp he]
        exact ⟨_, rfl⟩
      · rw [List.mem_singleton.mp he]
        exact .int
    · intro d hd
      cases hd
  · refine .array rfl fun y hy => ?_
    rcases mem_setThenDeleteItem hy with rfl | rfl
    · refine entry_taken.mpr (.map rfl fun e he => ?_)
      rw [List.mem_singleton.mp he]
      exact .int
    · refine .array rfl fun y hy => ?_
      simp only [List.mem_cons, List.not_mem_nil, or_false] at hy
      rcases hy with rfl | rfl <;> exact .str
  · refine .array fun y hy => ?_
    rcases mem_setThenDeleteItem hy with rfl | rfl
    · refine entry_within.mpr (.map fun e he => ?_)
      rw [List.mem_singleton.mp he]
      exact .int (by simp)
    · refine .array fun y hy => ?_
      simp only [List.mem_cons, List.not_mem_nil, or_false] at hy
      rcases hy with rfl | rfl <;> exact .str

theorem setThenDelete_issued : Issues (fun _ => true) setThenDeleteItem.bytes setThenDelete := by
  obtain ⟨hlists, -, -⟩ := writes_issued (fun _ => true) (listPackage setThenDeleteItem)
  obtain ⟨c, hc, hpassed⟩ := hlists setThenDelete setThenDelete_proper
  cases hc
  have hdelete : Emits (.list [.string (ascii "delete"), .string (ascii "c/e")]) deleteEntryItem :=
    .list (.cons (emits_text _) (.cons (emits_text _) .nil))
  have hemit : Emits (.list [.list [.string (ascii "set"), .string (ascii "c/d"),
      .map [(.string (ascii "a"), .int 5)]], .list [.string (ascii "delete"),
      .string (ascii "c/e")]]) setThenDeleteItem :=
    .list (.cons (setEntryItem_emitted (@Emits.int false _ _)) (.cons hdelete .nil))
  obtain ⟨bytes, hbytes, -, hiff⟩ := hpassed setThenDeleteItem hemit setThenDeleteItem_wf rfl
  cases hbytes
  exact hiff.mpr setThenDelete_carriable

/-- A field that is the double 2 ^ 63, which is written as an integer. -/
def setWholeDouble : List Write := [.set (ascii "c/d") [(ascii "a", .double twoPow63)] false]

def setWholeDoubleItem : Item := .array none [setEntryItem (.int false .eight (2 ^ 63))]

theorem setWholeDouble_changed : (∀ w ∈ setWholeDouble, w.Proper) ∧
    ∃ c, encodeFirestoreValue (fun _ => none) (.list (setWholeDouble.map Write.recorded)) = .ok c ∧
      Emits c setWholeDoubleItem ∧ setWholeDoubleItem.WF ∧
      ¬ Issues (fun _ => true) setWholeDoubleItem.bytes setWholeDouble := by
  have hproper : ∀ w ∈ setWholeDouble, w.Proper := by
    intro w hw
    rw [List.mem_singleton.mp hw]
    exact setField_proper .double rfl
  have hemit : Emits (.list [.list [.string (ascii "set"), .string (ascii "c/d"),
      .map [(.string (ascii "a"), .float twoPow63)]]]) setWholeDoubleItem :=
    .list (.cons (setEntryItem_emitted twoPow63_emitted) .nil)
  have hwf : setWholeDoubleItem.WF := by
    refine entry_wf fun y hy => ?_
    rw [List.mem_singleton.mp hy]
    exact setEntryItem_wf twoPow63_wf
  have hc : encodeFirestoreValue (fun _ => none) (.list (setWholeDouble.map Write.recorded)) =
      .ok _ := rfl
  refine ⟨hproper, _, hc, hemit, hwf, fun h => ?_⟩
  have hcarriable := (list_issued hc hemit hwf (fun w hw => (hproper w hw).keyed)
    fun w hw => (hproper w hw).shallow).mp h
  have hentry := within_array.mp hcarriable.within _ (List.mem_singleton.mpr rfl)
  have hdata := within_map.mp (entry_within.mp hentry) _ (List.mem_singleton.mpr rfl)
  exact absurd (within_int.mp hdata) (by simp)

end Firestore
