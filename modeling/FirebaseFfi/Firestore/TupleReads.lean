import FirebaseFfi.Firestore.NumberReads

namespace Firestore
open Cbor Tinycbor

theorem length_lt_bytesAll {x : Item} {xs : List Item} (h : x ∈ xs) :
    x.bytes.length ≤ (bytesAll xs).length := by
  induction xs with
  | nil => cases h
  | cons y ys ih =>
    simp only [bytesAll, List.length_append]
    rcases List.mem_cons.mp h with rfl | h
    · omega
    · have := ih h
      omega

section Elements

variable {len : Option Width} {isMap : Bool} {rest : Bytes} {x : Item} {xs : List Item}
  {it : CborValue}

/-- `get_int64` followed by `advance`. -/
def intStep (it : CborValue) : Except Failure (CborValue × Int64) := do
  let i := cborValueGetInt64 it
  let it ← checked (cborValueAdvance it)
  return (it, i)

/-- `ReadCborDouble` followed by `advance`. -/
def doubleStep (it : CborValue) : Except Failure (CborValue × UInt64) := do
  let d ← readCborDouble it
  let it ← checked (cborValueAdvance it)
  return (it, d)

/-- What a step over an element has to do for the tuples below. -/
structure StepReads {α : Type} (read : Item → Reading α)
    (step : CborValue → Except Failure (CborValue × α)) : Prop where
  item : ∀ {len isMap rest x xs it}, x.WF → (∀ y ∈ xs, y.WF) → Ready len isMap rest (x :: xs) it →
    Reads (read x) (step it) fun v r => ∃ it', r = .ok (it', v) ∧ Ready len isMap rest xs it'
  done : ∀ {len isMap rest it}, Ready len isMap rest [] it → step it = .error .refused

/-- Nothing is read at the end of a container. -/
theorem advance_end (h : Ready len isMap rest [] it) :
    cborValueAdvance it = .error .advancePastEOF := if_pos h.1

theorem advance_number (hx : (∃ neg w n, x = .int neg w n) ∨ ∃ w n, x = .prim w n) (hwf : x.WF)
    (hxs : ∀ y ∈ xs, y.WF) (h : Ready len isMap rest (x :: xs) it) :
    ∃ it', cborValueAdvance it = .ok it' ∧ Ready len isMap rest xs it' := by
  obtain ⟨neg, w, n, rfl⟩ | ⟨w, n, rfl⟩ := hx
  · have hfixed : isFixedType it.type = true := by simp [h.1.shows.type, itemType, isFixedType]
    rw [advance_fixed h.not_done hfixed]
    exact h.next hxs (advance_int hwf h.1)
  · have hfixed : isFixedType it.type = true := by
      rw [h.1.shows.type]
      exact (primType_fixed w n).1
    rw [advance_fixed h.not_done hfixed]
    exact h.next hxs (advance_prim hwf h.1)

theorem intStep_reads : StepReads readInt intStep where
  item := by
    intro len isMap rest x xs it hx hxs h
    cases x with
    | int neg w n =>
      obtain ⟨it', hr, hready⟩ := advance_number (.inl ⟨neg, w, n, rfl⟩) hx hxs h
      refine ⟨it', ?_, hready⟩
      rw [intStep, hr, getInt64_item h.1]
      rfl
    | _ => trivial
  done := by
    intro len isMap rest it h
    rw [intStep, advance_end h]
    rfl

theorem readDouble_ok {d : UInt64} (h : readDouble x = .ok d) :
    (∃ neg w n, x = .int neg w n) ∨ ∃ w n, x = .prim w n := by
  cases x with
  | int neg w n => exact .inl ⟨neg, w, n, rfl⟩
  | prim w n => exact .inr ⟨w, n, rfl⟩
  | _ => cases h

theorem doubleStep_reads : StepReads readDouble doubleStep where
  item := by
    intro len isMap rest x xs it hx hxs h
    have hread := readCborDouble_item h.1
    cases hd : readDouble x with
    | error e =>
      rw [hd] at hread
      cases e with
      | unchecked => trivial
      | fails =>
        obtain ⟨f, hf⟩ := hread
        refine ⟨f, ?_⟩
        rw [doubleStep, hf]
        rfl
    | ok d =>
      rw [hd] at hread
      have hread : readCborDouble it = .ok d := hread
      obtain ⟨it', hr, hready⟩ := advance_number (readDouble_ok hd) hx hxs h
      refine ⟨it', ?_, hready⟩
      rw [doubleStep, hread, hr]
      rfl
  done := by
    intro len isMap rest it h
    rw [doubleStep, advance_end h]
    cases hd : readCborDouble it with
    | ok d => rfl
    | error e =>
      rw [readCborDouble_error hd]
      rfl

theorem pair_reads {α : Type} {read : Item → Reading α}
    {step : CborValue → Except Failure (CborValue × α)} (hstep : StepReads read step)
    (hxs : ∀ y ∈ xs, y.WF) (h : Ready len isMap rest xs it) :
    Reads (readPair read xs)
      (do
        let (it, a) ← step it
        let (it, b) ← step it
        return (it, (a, b)))
      fun v r => ∃ it', r = .ok (it', v) ∧ Ready len isMap rest [] it' := by
  cases xs with
  | nil =>
    rw [hstep.done h]
    exact ⟨_, rfl⟩
  | cons x xs =>
    have hx := hxs x (by simp)
    have hxs := fun y hy => hxs y (List.mem_cons_of_mem x hy)
    have h1 := (hstep.item hx hxs h).imp (g := fun v r =>
      ∃ b : CborValue × α, r = .ok b ∧ b.2 = v ∧ Ready len isMap rest xs b.1)
      (fun v r ⟨it', hr, hready⟩ => ⟨(it', v), hr, rfl, hready⟩)
    cases xs with
    | nil =>
      refine h1.bind fun a b hb => ?_
      obtain ⟨it', a'⟩ := b
      obtain ⟨rfl, hready⟩ := hb
      simp only [hstep.done hready]
      exact ⟨_, rfl⟩
    | cons y ys =>
      have hy := hxs y (by simp)
      have hys := fun z hz => hxs z (List.mem_cons_of_mem y hz)
      have h2 : ∀ it', Ready len isMap rest (y :: ys) it' → Reads (read y) (step it') (fun v r =>
          ∃ b : CborValue × α, r = .ok b ∧ b.2 = v ∧ Ready len isMap rest ys b.1) :=
        fun it' hready => (hstep.item hy hys hready).imp
          (fun v r ⟨it'', hr, hready⟩ => ⟨(it'', v), hr, rfl, hready⟩)
      cases ys with
      | nil =>
        refine h1.bind fun a b hb => ?_
        obtain ⟨it', a'⟩ := b
        obtain ⟨rfl, hready⟩ := hb
        refine (h2 it' hready).bind fun a b hb => ?_
        obtain ⟨it'', b'⟩ := b
        obtain ⟨rfl, hready⟩ := hb
        exact ⟨it'', rfl, hready⟩
      | cons z zs =>
        refine h1.bind fun a b hb => ?_
        obtain ⟨it', a'⟩ := b
        exact (h2 it' hb.2).bind fun _ _ _ => trivial

theorem single_reads {α : Type} {read : Item → Reading α}
    {step : CborValue → Except Failure (CborValue × α)} (hstep : StepReads read step)
    (hxs : ∀ y ∈ xs, y.WF) (h : Ready len isMap rest xs it) :
    Reads (readSingle read xs) (step it)
      fun v r => ∃ it', r = .ok (it', v) ∧ Ready len isMap rest [] it' := by
  cases xs with
  | nil =>
    rw [hstep.done h]
    exact ⟨_, rfl⟩
  | cons x xs =>
    have hx := hxs x (by simp)
    have hxs := fun y hy => hxs y (List.mem_cons_of_mem x hy)
    have h1 := hstep.item hx hxs h
    cases xs with
    | nil => exact h1
    | cons y ys =>
      cases hread : read x with
      | ok v => simp only [readSingle, hread]; trivial
      | error e =>
        rw [hread] at h1
        cases e with
        | unchecked => simp only [readSingle, hread]; trivial
        | fails => simp only [readSingle, hread]; exact h1

end Elements

/-- Entering a container, reading its items and leaving it consumes it. -/
theorem container_reads {α β : Type} {len : Option Width} {isMap : Bool} {rest : Bytes}
    {xs : List Item} {it : CborValue} {reading : Reading α}
    {body : CborValue → Except Failure (CborValue × α)} (ht : it.type ≠ .tag)
    (henter : ∃ r, cborValueEnterContainer it = .ok r ∧ Ready len isMap rest xs r)
    (hbody : ∀ r, Ready len isMap rest xs r → Reads reading (body r) fun v res =>
      ∃ it', res = .ok (it', v) ∧ Ready len isMap rest [] it')
    (f : α → β) :
    Reads (do return f (← reading))
      (do
        let recursed ← checked (cborValueEnterContainer it)
        let (recursed, v) ← body recursed
        let it ← checked (cborValueLeaveContainer it recursed)
        return (it, f v))
      (ConsumedAs it rest) := by
  obtain ⟨r, hr, hready⟩ := henter
  rw [hr]
  refine ((hbody r hready).imp (g := fun v res =>
    ∃ b : CborValue × α, res = .ok b ∧ b.2 = v ∧ Ready len isMap rest [] b.1)
    (fun v res ⟨it', h, hready⟩ => ⟨(it', v), h, rfl, hready⟩)).bind fun v b hb => ?_
  obtain ⟨it', v'⟩ := b
  obtain ⟨rfl, hready⟩ := hb
  exact ⟨_, leave_consumed hready ht, checked_bind _ _⟩

section Tagged

variable {len : Option Width} {xs : List Item} {rest : Bytes} {it : CborValue}

theorem array_not_tag (hat : AtItem (.array len xs) rest it) : it.type ≠ .tag := by
  simp [hat.shows.type, itemType]

theorem enter_small (h : (Item.array len xs).WF) (hat : AtItem (.array len xs) rest it)
    (hs : tooMany false len xs.length = false) :
    ∃ r, cborValueEnterContainer it = .ok r ∧ Ready len false rest xs r := by
  refine enter_array h hat fun hl => ?_
  simpa [tooMany, hl] using hs

theorem array_items (h : (Item.array len xs).WF) : ∀ x ∈ xs, x.WF := by
  cases h with
  | array _ hx => exact hx

theorem decodeTimestamp_reads (h : (Item.array len xs).WF) (hat : AtItem (.array len xs) rest it)
    (hs : tooMany false len xs.length = false) :
    Reads (readTimestamp xs) (decodeTimestamp it) (ConsumedAs it rest) := by
  have hrun := container_reads (array_not_tag hat) (enter_small h hat hs)
    (fun r hr => pair_reads intStep_reads (array_items h) hr)
    (f := fun p : Int64 × Int64 => FieldValue.timestamp p.1 p.2.toInt32)
  simpa only [readTimestamp, decodeTimestamp, intStep, bind_assoc, pure_bind] using hrun

theorem decodeGeoPoint_reads (h : (Item.array len xs).WF) (hat : AtItem (.array len xs) rest it)
    (hs : tooMany false len xs.length = false) :
    Reads (readGeoPoint xs) (decodeGeoPoint it) (ConsumedAs it rest) := by
  have hrun := container_reads (array_not_tag hat) (enter_small h hat hs)
    (fun r hr => pair_reads doubleStep_reads (array_items h) hr)
    (f := fun p : UInt64 × UInt64 => FieldValue.geoPoint p.1 p.2)
  simpa only [readGeoPoint, decodeGeoPoint, doubleStep, bind_assoc, pure_bind] using hrun

theorem decodeIncrementInt_reads (h : (Item.array len xs).WF)
    (hat : AtItem (.array len xs) rest it) (hs : tooMany false len xs.length = false) :
    Reads (do return .incrementInt (← readSingle readInt xs)) (decodeIncrementInt it)
      (ConsumedAs it rest) := by
  have hrun := container_reads (array_not_tag hat) (enter_small h hat hs)
    (fun r hr => single_reads intStep_reads (array_items h) hr)
    (f := FieldValue.incrementInt)
  simpa only [decodeIncrementInt, intStep, bind_assoc, pure_bind] using hrun

theorem decodeIncrementDouble_reads (h : (Item.array len xs).WF)
    (hat : AtItem (.array len xs) rest it) (hs : tooMany false len xs.length = false) :
    Reads (do return .incrementDouble (← readSingle readDouble xs)) (decodeIncrementDouble it)
      (ConsumedAs it rest) := by
  have hrun := container_reads (array_not_tag hat) (enter_small h hat hs)
    (fun r hr => single_reads doubleStep_reads (array_items h) hr)
    (f := FieldValue.incrementDouble)
  simpa only [decodeIncrementDouble, doubleStep, bind_assoc, pure_bind] using hrun

end Tagged

end Firestore
