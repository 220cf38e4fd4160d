import FirebaseFfi.Assoc.Emplace
import FirebaseFfi.Firestore.TxnState
import FirebaseFfi.Machine.Run

namespace Firestore

def TxnCall.id : TxnCall → Int64
  | .get id _ _ => id
  | .commit id _ => id
  | .abort id => id

/-- A step of the SDK's thread inside of RunTransaction. -/
def Action.threaded : Action → Bool
  | .run | .wake | .answer | .relock | .apply _ => true
  | .call _ | .lock _ | .finish => false

namespace TxnTable
open Assoc Cbor Machine

/-- A call of fdb_fs_txn_begin that has registered its own state. -/
structure Begin where
  native : Native
  id : Option Int64
  returned : Bool

def Begin.start : Begin := ⟨.start, none, false⟩

/-- g_txns and g_next_txn, beside the calls of fdb_fs_txn_begin in the order they
registered. A state is known by the place of its call. -/
structure Table where
  txns : List (Int64 × Nat)
  next : Int64
  begins : List Begin

def Table.start : Table := ⟨[], 1, []⟩

/-- `number` is `id = g_next_txn++`, which no lock covers, `answer` the return of
the id, and `complete` the callback that erases it. `call` is TxnFor. -/
inductive Action
  | register
  | number (i : Nat)
  | answer (i : Nat)
  | call (c : TxnCall)
  | lock (i n : Nat)
  | thread (i : Nat) (a : Firestore.Action)
  | complete (i : Nat)

section Step

variable (document : Bytes → Bool)

def step (s : Table) : Action → Option Table
  | .register =>
    some { s with
      txns := emplace s.txns s.next s.begins.length
      begins := s.begins ++ [.start] }
  | .number i =>
    match s.begins[i]? with
    | some ⟨native, none, returned⟩ =>
      some { s with begins := s.begins.set i ⟨native, some s.next, returned⟩, next := s.next + 1 }
    | _ => none
  | .answer i =>
    match s.begins[i]? with
    | some ⟨native, some id, false⟩ =>
      some { s with begins := s.begins.set i ⟨native, some id, true⟩ }
    | _ => none
  | .call c =>
    match s.txns.lookup c.id with
    | some i =>
      some { s with
        begins := s.begins.modify i fun b =>
          { b with native := { b.native with callers := b.native.callers ++ [c] } } }
    | none => none
  | .lock i n =>
    match s.begins[i]? with
    | some b =>
      (Firestore.step document b.native (.lock n)).map fun r =>
        { s with begins := s.begins.set i { b with native := r.1 } }
    | none => none
  | .thread i a =>
    match s.begins[i]? with
    | some ⟨native, some id, returned⟩ =>
      if a.threaded then
        (Firestore.step document native a).map fun r =>
          { s with begins := s.begins.set i ⟨r.1, some id, returned⟩ }
      else none
    | _ => none
  | .complete i =>
    match s.begins[i]? with
    | some ⟨native, some id, returned⟩ =>
      (Firestore.step document native .finish).map fun r =>
        { s with
          txns := erase s.txns id
          begins := s.begins.set i ⟨r.1, some id, returned⟩ }
    | _ => none

/-- No id is returned twice. From its return to its completion it finds the state
of its own call, and an entry goes only with the completion of its own call. -/
structure Sound (s : Table) : Prop where
  unique : ∀ {i j : Nat} {b c : Begin}, s.begins[i]? = some b → s.begins[j]? = some c → b.id ≠ none →
    b.id = c.id → i = j
  mapped : ∀ {i : Nat} {b : Begin} {id : Int64}, s.begins[i]? = some b → b.id = some id →
    b.returned = true → b.native.registered = true → s.txns.lookup id = some i
  kept : ∀ {a : Action} {u : Table} {k : Int64} {i : Nat}, step document s a = some u →
    s.txns.lookup k = some i → a ≠ .complete i → u.txns.lookup k = some i

end Step

/-- No call registers while another has its number still to take, and the counter
does not overflow. -/
def Orderly (s : Table) : Action → Prop
  | .register => ∀ b ∈ s.begins, b.id ≠ none
  | .number _ => s.next ≠ Int64.maxValue
  | _ => True

/-- The id under which a call has its state or will have it, and whether it is
still to complete. -/
def Table.face (s : Table) (i : Nat) : Option (Int64 × Bool) :=
  s.begins[i]?.map fun b => (b.id.getD s.next, b.native.registered)

structure Inv (s : Table) : Prop where
  entry : ∀ k i, s.txns.lookup k = some i ↔ s.face i = some (k, true)
  distinct : ∀ {i j k p q}, s.face i = some (k, p) → s.face j = some (k, q) → i = j
  below : ∀ {i : Nat} {b : Begin} {id : Int64}, s.begins[i]? = some b → b.id = some id →
    id.toInt < s.next.toInt
  fresh : ∀ {i : Nat} {b : Begin}, s.begins[i]? = some b → b.id = none →
    b.native.registered = true

theorem inv_start : Inv .start := by
  refine ⟨?_, ?_, ?_, ?_⟩
  · intro k i
    simp [Table.start, Table.face]
  · intro i j k p q h
    simp [Table.start, Table.face] at h
  · intro i b id h
    simp [Table.start] at h
  · intro i b h
    simp [Table.start] at h

variable {s u : Table} {i : Nat} {b c : Begin}

def Begin.outline (b : Begin) : Option Int64 × Bool := (b.id, b.native.registered)

/-- A step that leaves the table, the counter and every id alone, and completes
nothing. -/
structure Quiet (s u : Table) : Prop where
  txns : u.txns = s.txns
  next : u.next = s.next
  begins : ∀ i : Nat, u.begins[i]?.map Begin.outline = s.begins[i]?.map Begin.outline

theorem face_outline (s : Table) (i : Nat) :
    s.face i = (s.begins[i]?.map Begin.outline).map fun o => (o.1.getD s.next, o.2) := by
  rw [Option.map_map]
  rfl

theorem Quiet.face (h : Quiet s u) (i : Nat) : u.face i = s.face i := by
  rw [face_outline, face_outline, h.begins, h.next]

theorem Quiet.back (h : Quiet s u) (hu : u.begins[i]? = some b) :
    ∃ c, s.begins[i]? = some c ∧ c.id = b.id ∧ c.native.registered = b.native.registered := by
  have hb := h.begins i
  rw [hu, Option.map_some] at hb
  obtain ⟨c, hc, heq⟩ := Option.map_eq_some_iff.mp hb.symm
  exact ⟨c, hc, (Prod.mk.inj heq).1, (Prod.mk.inj heq).2⟩

theorem Quiet.inv (h : Quiet s u) (hi : Inv s) : Inv u := by
  refine ⟨?_, ?_, ?_, ?_⟩
  · intro k i
    rw [h.txns, h.face, hi.entry]
  · intro i j k p q hp hq
    rw [h.face] at hp hq
    exact hi.distinct hp hq
  · intro i b id hb hid
    obtain ⟨c, hc, hcid, -⟩ := h.back hb
    rw [h.next]
    exact hi.below hc (hcid.trans hid)
  · intro i b hb hid
    obtain ⟨c, hc, hcid, hreg⟩ := h.back hb
    rw [← hreg]
    exact hi.fresh hc (hcid.trans hid)

/-- A call that keeps its id and does not complete. -/
theorem quiet_set (hb : s.begins[i]? = some b) (hc : c.outline = b.outline) :
    Quiet s { s with begins := s.begins.set i c } := by
  refine ⟨rfl, rfl, ?_⟩
  intro j
  rw [List.getElem?_set]
  split
  · next hij =>
    subst hij
    have hlt := (List.getElem?_eq_some_iff.mp hb).1
    rw [if_pos hlt, hb, Option.map_some, Option.map_some, hc]
  · rfl

theorem quiet_modify {f : Begin → Begin} (hf : ∀ b, (f b).outline = b.outline) :
    Quiet s { s with begins := s.begins.modify i f } := by
  refine ⟨rfl, rfl, ?_⟩
  intro j
  rw [List.getElem?_modify]
  cases s.begins[j]? with
  | none => rfl
  | some b =>
    show some (Begin.outline (if i = j then f b else b)) = some b.outline
    split
    · rw [hf]
    · rfl

theorem inner_registered {document : Bytes → Bool} {n : Native} {a : Firestore.Action}
    {r : Native × List Event} (h : Firestore.step document n a = some r) (ha : a ≠ .finish) :
    r.1.registered = n.registered := by
  cases a with
  | finish => exact absurd rfl ha
  | call c =>
    simp only [Firestore.step] at h
    split at h
    · cases h
      rfl
    · cases h
  | lock i =>
    simp only [Firestore.step] at h
    split at h
    · cases h
      rfl
    · cases h
  | run =>
    simp only [Firestore.step] at h
    split at h
    · cases h
      exact serve_registered _
    · cases h
  | wake =>
    simp only [Firestore.step] at h
    split at h
    · split at h
      · cases h
      · cases h
        exact serve_registered _
    · cases h
  | answer =>
    simp only [Firestore.step] at h
    split at h
    · split at h
      · cases h
        rfl
      · cases h
        rfl
    · cases h
  | relock =>
    simp only [Firestore.step] at h
    split at h
    · cases h
      exact serve_registered _
    · cases h
  | apply r =>
    simp only [Firestore.step] at h
    split at h
    · cases h
      rfl
    · cases h
      rfl
    · cases h
      rfl
    · cases h

/-- What a step is: quiet, or one of the three that make an entry, take a number
or complete. -/
inductive Change (document : Bytes → Bool) (s : Table) : Action → Table → Prop
  | quiet {a u} : Quiet s u → Change document s a u
  | register : Change document s .register
      { s with
        txns := emplace s.txns s.next s.begins.length
        begins := s.begins ++ [.start] }
  | number {i native returned} : s.begins[i]? = some ⟨native, none, returned⟩ →
      Change document s (.number i)
        { s with begins := s.begins.set i ⟨native, some s.next, returned⟩, next := s.next + 1 }
  | complete {i native id returned} : s.begins[i]? = some ⟨native, some id, returned⟩ →
      native.registered = true →
      Change document s (.complete i)
        { s with
          txns := erase s.txns id
          begins := s.begins.set i ⟨{ native with registered := false }, some id, returned⟩ }

theorem step_change {document : Bytes → Bool} {a : Action} (h : step document s a = some u) :
    Change document s a u := by
  cases a with
  | register =>
    cases h
    exact .register
  | number i =>
    simp only [step] at h
    split at h
    · next hb =>
      cases h
      exact .number hb
    · cases h
  | answer i =>
    simp only [step] at h
    split at h
    · next hb =>
      cases h
      exact .quiet (quiet_set hb rfl)
    · cases h
  | call c =>
    simp only [step] at h
    split at h
    · cases h
      exact .quiet (quiet_modify fun b => rfl)
    · cases h
  | lock i n =>
    simp only [step] at h
    split at h
    · next hb =>
      obtain ⟨r, hr, rfl⟩ := Option.map_eq_some_iff.mp h
      have hreg := inner_registered hr (by simp)
      exact .quiet (quiet_set hb (by rw [Begin.outline, Begin.outline, hreg]))
    · cases h
  | thread i a =>
    simp only [step] at h
    split at h
    · next hb =>
      split at h
      · next ha =>
        obtain ⟨r, hr, rfl⟩ := Option.map_eq_some_iff.mp h
        have hne : a ≠ .finish := by
          intro hfin
          rw [hfin] at ha
          cases ha
        have hreg := inner_registered hr hne
        exact .quiet (quiet_set hb (by rw [Begin.outline, Begin.outline, hreg]))
      · cases h
    · cases h
  | complete i =>
    simp only [step] at h
    split at h
    · next native id returned hb =>
      obtain ⟨r, hr, rfl⟩ := Option.map_eq_some_iff.mp h
      simp only [Firestore.step] at hr
      split at hr
      · next hreg =>
        cases hr
        exact .complete hb (Bool.and_eq_true_iff.mp hreg).1
      · cases hr
    · cases h

theorem face_eq (hb : s.begins[i]? = some b) :
    s.face i = some (b.id.getD s.next, b.native.registered) := by
  rw [Table.face, hb, Option.map_some]

theorem of_face {k : Int64} {p : Bool} (h : s.face i = some (k, p)) :
    ∃ b, s.begins[i]? = some b ∧ b.id.getD s.next = k ∧ b.native.registered = p := by
  obtain ⟨b, hb, heq⟩ := Option.map_eq_some_iff.mp h
  exact ⟨b, hb, (Prod.mk.inj heq).1, (Prod.mk.inj heq).2⟩

/-- When every call has its number, none has the one the counter holds. -/
theorem Inv.next_unused (hi : Inv s) (hall : ∀ b ∈ s.begins, b.id ≠ none) {p : Bool} :
    s.face i ≠ some (s.next, p) := by
  intro h
  obtain ⟨b, hb, hk, -⟩ := of_face h
  cases hid : b.id with
  | none => exact hall b (List.mem_of_getElem? hb) hid
  | some id =>
    have hlt := hi.below hb hid
    rw [hid, Option.getD_some] at hk
    rw [hk] at hlt
    exact absurd hlt (Int.lt_irrefl _)

theorem face_register (s : Table) (txns : List (Int64 × Nat)) (i : Nat) :
    ({ s with txns := txns, begins := s.begins ++ [.start] } : Table).face i =
      if i = s.begins.length then some (s.next, true) else s.face i := by
  unfold Table.face
  split
  · next hi =>
    subst hi
    rw [List.getElem?_concat_length]
    rfl
  · next hi =>
    have hget : (s.begins ++ [Begin.start])[i]? = s.begins[i]? := by
      by_cases hlt : i < s.begins.length
      · exact List.getElem?_append_left hlt
      · rw [List.getElem?_eq_none (by simp; omega), List.getElem?_eq_none (by omega)]
    rw [hget]

theorem face_length (s : Table) : s.face s.begins.length = none := by
  rw [Table.face, List.getElem?_eq_none (Nat.le_refl _), Option.map_none]

theorem Inv.register (hi : Inv s) (hall : ∀ b ∈ s.begins, b.id ≠ none) :
    Inv { s with
      txns := emplace s.txns s.next s.begins.length
      begins := s.begins ++ [.start] } := by
  have hnone : s.txns.lookup s.next = none := by
    apply Option.eq_none_iff_forall_ne_some.mpr
    intro i h
    exact hi.next_unused hall ((hi.entry _ _).mp h)
  have hback : ∀ {i : Nat} {b : Begin}, (s.begins ++ [Begin.start])[i]? = some b →
      s.begins[i]? = some b ∨ b = .start := by
    intro i b hb
    rw [List.getElem?_append] at hb
    split at hb
    · exact .inl hb
    · exact .inr (List.mem_singleton.mp (List.mem_of_getElem? hb))
  refine ⟨?_, ?_, ?_, ?_⟩
  · intro k i
    rw [face_register, lookup_emplace hnone]
    by_cases hk : k = s.next
    · subst hk
      rw [if_pos rfl]
      split
      · next hlen => simp [hlen]
      · next hlen =>
        exact iff_of_false (fun h => hlen (Option.some.inj h).symm) (hi.next_unused hall)
    · rw [if_neg hk, hi.entry]
      split
      · next hlen =>
        rw [hlen, face_length]
        exact iff_of_false (by simp) (fun h => hk (Prod.mk.inj (Option.some.inj h)).1.symm)
      · rfl
  · intro i j k p q hp hq
    rw [face_register] at hp hq
    split at hp
    · next hilen =>
      split at hq
      · next hjlen => rw [hilen, hjlen]
      · cases hp
        exact absurd hq (hi.next_unused hall)
    · split at hq
      · cases hq
        exact absurd hp (hi.next_unused hall)
      · exact hi.distinct hp hq
  · intro i b id hb hid
    rcases hback hb with hb | rfl
    · exact hi.below hb hid
    · cases hid
  · intro i b hb hid
    rcases hback hb with hb | rfl
    · exact hi.fresh hb hid
    · rfl

theorem getElem?_set_back {f : Nat} (hb : (s.begins.set f c)[i]? = some b) :
    (i = f ∧ b = c) ∨ (i ≠ f ∧ s.begins[i]? = some b) := by
  rw [List.getElem?_set] at hb
  split at hb
  · next hf =>
    split at hb
    · cases hb
      exact .inl ⟨hf.symm, rfl⟩
    · cases hb
  · next hf => exact .inr ⟨fun h => hf h.symm, hb⟩

/-- The number a call takes is the one it registered under. -/
theorem Inv.face_number (hi : Inv s) {native : Native} {returned : Bool}
    (hb : s.begins[i]? = some ⟨native, none, returned⟩) (j : Nat) :
    ({ s with
      begins := s.begins.set i ⟨native, some s.next, returned⟩
      next := s.next + 1 } : Table).face j = s.face j := by
  unfold Table.face
  dsimp only
  rw [List.getElem?_set]
  split
  · next hij =>
    subst hij
    rw [if_pos (List.getElem?_eq_some_iff.mp hb).1, hb]
    rfl
  · next hij =>
    cases hc : s.begins[j]? with
    | none => rfl
    | some c =>
      have hid : c.id ≠ none := by
        intro hid
        have hface := face_eq hc
        rw [hid] at hface
        exact hij (hi.distinct (face_eq hb) hface)
      obtain ⟨id, hid⟩ := Option.ne_none_iff_exists'.mp hid
      rw [Option.map_some, Option.map_some, hid]
      rfl

theorem Inv.number (hi : Inv s) {native : Native} {returned : Bool}
    (hb : s.begins[i]? = some ⟨native, none, returned⟩) (hmax : s.next ≠ Int64.maxValue) :
    Inv { s with
      begins := s.begins.set i ⟨native, some s.next, returned⟩
      next := s.next + 1 } := by
  have hsucc := toInt_succ hmax
  refine ⟨?_, ?_, ?_, ?_⟩
  · intro k j
    rw [hi.face_number hb, hi.entry]
  · intro j l k p q hp hq
    rw [hi.face_number hb] at hp hq
    exact hi.distinct hp hq
  · intro j c id hc hid
    rw [hsucc]
    rcases getElem?_set_back hc with ⟨-, rfl⟩ | ⟨-, hc⟩
    · cases hid
      omega
    · have := hi.below hc hid
      omega
  · intro j c hc hid
    rcases getElem?_set_back hc with ⟨-, rfl⟩ | ⟨-, hc⟩
    · cases hid
    · exact hi.fresh hc hid

theorem face_complete {native : Native} {id : Int64} {returned : Bool}
    (hb : s.begins[i]? = some ⟨native, some id, returned⟩) (j : Nat) :
    ({ s with
      txns := erase s.txns id
      begins := s.begins.set i ⟨{ native with registered := false }, some id, returned⟩ } :
        Table).face j = if j = i then some (id, false) else s.face j := by
  unfold Table.face
  dsimp only
  rw [List.getElem?_set]
  split
  · next hij =>
    subst hij
    rw [if_pos (List.getElem?_eq_some_iff.mp hb).1, if_pos rfl]
    rfl
  · next hij => rw [if_neg fun h => hij h.symm]

theorem Inv.complete (hi : Inv s) {native : Native} {id : Int64} {returned : Bool}
    (hb : s.begins[i]? = some ⟨native, some id, returned⟩) (hreg : native.registered = true) :
    Inv { s with
      txns := erase s.txns id
      begins := s.begins.set i ⟨{ native with registered := false }, some id, returned⟩ } := by
  have hface : s.face i = some (id, true) := by
    rw [face_eq hb, hreg]
    rfl
  refine ⟨?_, ?_, ?_, ?_⟩
  · intro k j
    rw [face_complete hb, lookup_erase]
    by_cases hk : k = id
    · subst hk
      rw [if_pos rfl]
      split
      · exact iff_of_false (by simp) (by simp)
      · next hj => exact iff_of_false (by simp) (fun h => hj (hi.distinct h hface))
    · rw [if_neg hk, hi.entry]
      split
      · next hj =>
        subst hj
        rw [hface]
        exact iff_of_false (fun h => hk (Prod.mk.inj (Option.some.inj h)).1.symm) (by simp)
      · rfl
  · intro j l k p q hp hq
    rw [face_complete hb] at hp hq
    split at hp
    · next hj =>
      cases hp
      split at hq
      · next hl => rw [hj, hl]
      · rw [hj]
        exact hi.distinct hface hq
    · split at hq
      · next hl =>
        cases hq
        rw [hl]
        exact hi.distinct hp hface
      · exact hi.distinct hp hq
  · intro j c k hc hid
    rcases getElem?_set_back hc with ⟨-, rfl⟩ | ⟨-, hc⟩
    · exact hi.below hb hid
    · exact hi.below hc hid
  · intro j c hc hid
    rcases getElem?_set_back hc with ⟨-, rfl⟩ | ⟨-, hc⟩
    · cases hid
    · exact hi.fresh hc hid

section Run

variable {document : Bytes → Bool}

theorem step_inv {a : Action} (hi : Inv s) (hord : Orderly s a) (h : step document s a = some u) :
    Inv u := by
  cases step_change h with
  | quiet hq => exact hq.inv hi
  | register => exact hi.register hord
  | number hb => exact hi.number hb hord
  | complete hb hreg => exact hi.complete hb hreg

theorem Inv.sound (hi : Inv s) : Sound document s := by
  refine ⟨?_, ?_, ?_⟩
  · intro i j b c hb hc hne hid
    have hface := face_eq hc
    rw [← hid] at hface
    exact hi.distinct (face_eq hb) hface
  · intro i b id hb hid _ hreg
    apply (hi.entry _ _).mpr
    rw [face_eq hb, hid, hreg]
    rfl
  · intro a u k i h hk ha
    cases step_change h with
    | quiet hq =>
      rw [hq.txns]
      exact hk
    | register => exact lookup_emplace_of_some hk
    | number _ => exact hk
    | @complete j native id returned hb hreg =>
      have hne : k ≠ id := by
        intro hkid
        have hface := face_eq hb
        dsimp only at hface
        rw [hreg] at hface
        rw [hkid] at hk
        have := hi.distinct ((hi.entry _ _).mp hk) hface
        exact ha (by rw [this])
      rw [lookup_erase, if_neg hne]
      exact hk

/-- As long as no call registers while another has its number still to take,
every id belongs to one transaction, and finds its state until it completes. -/
theorem txn_ids_kept (document : Bytes → Bool) (s : Table)
    (h : Run (step document) Orderly .start s) : Sound document s := by
  apply Inv.sound
  apply h.invariant inv_start
  intro t a u hi hord hstep
  exact step_inv hi hord hstep

/-- Two transactions, the second begun after the first has its id. -/
def inTurn : List Action :=
  [.register, .number 0, .answer 0, .register, .complete 0, .number 1, .answer 1,
    .call (.abort 2)]

theorem inTurn_kept :
    ∃ s, exec (step fun _ => true) .start inTurn = some s ∧ Sound (fun _ => true) s := by
  have hexec : exec (step fun _ => true) .start inTurn =
      some ⟨[(2, 1)], 3, [⟨⟨false, .start, .idle, []⟩, some 1, true⟩,
        ⟨⟨true, .start, .idle, [.abort 2]⟩, some 2, true⟩]⟩ := rfl
  refine ⟨_, hexec, txn_ids_kept (fun _ => true) _ (Run.of_exec hexec ?_)⟩
  have hone : (1 : Int64) ≠ Int64.maxValue := by decide
  have htwo : (1 : Int64) + 1 ≠ Int64.maxValue := by decide
  refine .next (by simp [Orderly, Table.start]) rfl ?_
  refine .next hone rfl ?_
  refine .next trivial rfl ?_
  refine .next (by simp [Orderly, Table.start]) rfl ?_
  refine .next trivial rfl ?_
  refine .next htwo rfl ?_
  refine .next trivial rfl ?_
  exact .next trivial rfl trivial

/-- Two calls register under the same number. -/
def crossing : List Action :=
  [.register, .register, .number 0, .register, .number 1, .number 2, .answer 1]

/-- The second call has lost its entry, and its id finds the third's state. -/
theorem crossing_mixed : ∃ s, Run (step fun _ => true) (fun _ _ => True) .start s ∧
    s.begins[1]? = some ⟨.start, some 2, true⟩ ∧ s.txns.lookup 2 = some 2 ∧
    ¬ Sound (fun _ => true) s := by
  have hexec : exec (step fun _ => true) .start crossing =
      some ⟨[(1, 0), (2, 2)], 4, [⟨.start, some 1, false⟩, ⟨.start, some 2, true⟩,
        ⟨.start, some 3, false⟩]⟩ := rfl
  refine ⟨_, Run.of_exec hexec (.unguarded _), rfl, rfl, ?_⟩
  intro h
  have hfound := h.mapped (i := 1) rfl rfl rfl rfl
  cases hfound

end Run

end TxnTable

end Firestore
