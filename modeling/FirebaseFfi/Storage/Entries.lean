import FirebaseFfi.Storage.InFlight

namespace InFlight
open Firebase Machine

def Request.service : Request → Service
  | .call => .functions
  | _ => .storage

/-- Some of the callback is still to run. -/
def Thread.underWay : Thread → Bool
  | .pending | .inside (_ :: _) => true
  | _ => false

/-- An entry of g_inflight whose flag is not stored. -/
def State.Undone (s : State) (i : Nat) : Prop := i ∈ s.table .storage ∧ s.isDone i = false

/-- A storage operation whose callback has not run. -/
def State.Awaited (s : State) (i : Nat) : Prop :=
  ∃ op, s.ops[i]? = some op ∧ op.request.service = .storage ∧ op.thread.underWay = true

/-- Every upload gets its copy, and no download succeeds. -/
def Finishes (less : Less) (s : State) : Action → Prop
  | .call (.put path bytes len allocated) =>
    s.ready .storage = true → (Call.put path bytes len allocated).admitted less = true →
      allocated = true
  | .complete _ (.get _) f => f.error ≠ 0
  | _ => True

/-- The table tells the operations under way from those that are over. -/
structure Tracked (less : Less) (s : State) : Prop where
  undone : ∀ i, s.Undone i ↔ s.Awaited i
  finished : ∀ (i : Nat) (op : Op), s.ops[i]? = some op → op.request.service = .storage →
    op.thread.underWay = false → op.done = true
  reclaimed : ∀ c, s.ready .storage = true → c.service = .storage → c.admitted less = true →
    ∀ i ∈ (s.enter less c).1.table .storage, (s.enter less c).1.isDone i = false
  refused : ∀ c, Finishes less s (.call c) → (s.enter less c).2 ≠ 0 → (s.enter less c).1 = s

/-- The last statement stores the flag, and no other does. -/
def Closing (statements : List Statement) : Prop :=
  ∃ first, statements = first ++ [.store] ∧ .store ∉ first

section Callbacks

theorem closing_tail {x : Statement} {rest : List Statement} (h : Closing (x :: rest)) :
    (x = .store ∧ rest = []) ∨ (x ≠ .store ∧ Closing rest) := by
  obtain ⟨first, heq, hfirst⟩ := h
  cases first with
  | nil =>
    obtain ⟨rfl, rfl⟩ := List.cons.inj heq
    exact .inl ⟨rfl, rfl⟩
  | cons y first =>
    obtain ⟨rfl, rfl⟩ := List.cons.inj heq
    right
    exact ⟨fun h => hfirst (by simp [h]), first, rfl, fun h => hfirst (List.mem_cons_of_mem _ h)⟩

theorem not_closing_nil : ¬ Closing [] := by
  intro h
  obtain ⟨first, heq, -⟩ := h
  cases first <;> cases heq

/-- The callback of a storage operation stores the flag, unless a download
succeeds. -/
theorem callback_closing {less : Less} {s : State} {i : Nat} {r : Request} {f : Future r.Result}
    (hr : r.service = .storage) (h : Finishes less s (.complete i r f)) :
    Closing (callback r f) := by
  cases r with
  | put => exact ⟨[.free, .post _], rfl, by simp⟩
  | get capacity =>
    rw [callback, if_pos (show f.error ≠ 0 from h)]
    exact ⟨[.free, .post _], rfl, by simp⟩
  | delete => exact ⟨[.post _], rfl, by simp⟩
  | metadata => exact ⟨[.post _], rfl, by simp⟩
  | downloadUrl =>
    rw [callback]
    split
    · exact ⟨[.post _], rfl, by simp⟩
    · exact ⟨[.post _], rfl, by simp⟩
  | call => cases hr

end Callbacks

variable {less : Less} {s u : State}

/-- A storage operation, with its entry in the table. -/
structure Sound (table : List Nat) (i : Nat) (op : Op) : Prop where
  started : op.thread ≠ .unstarted
  closing : ∀ statement rest, op.thread = .inside (statement :: rest) → Closing (statement :: rest)
  undone : op.thread.underWay = true → op.done = false ∧ i ∈ table
  finished : op.thread.underWay = false → op.done = true

structure Inv (s : State) : Prop where
  ops : ∀ (i : Nat) (op : Op), s.ops[i]? = some op → op.request.service = .storage →
    Sound (s.table .storage) i op
  entries : ∀ i ∈ s.table .storage, ∃ op, s.ops[i]? = some op ∧ op.request.service = .storage

theorem Inv.start (ready : Service → Bool) : Inv (.start ready) := by
  refine ⟨?_, ?_⟩
  · intro i op hop
    cases hop
  · intro i hi
    cases hi

theorem isDone_of {i : Nat} {op : Op} (h : s.ops[i]? = some op) : s.isDone i = op.done := by
  rw [State.isDone, h]
  rfl

theorem Inv.undone (h : Inv s) (i : Nat) : s.Undone i ↔ s.Awaited i := by
  constructor
  · intro hi
    obtain ⟨hi, hdone⟩ := hi
    obtain ⟨op, hop, hservice⟩ := h.entries i hi
    refine ⟨op, hop, hservice, ?_⟩
    rw [isDone_of hop] at hdone
    cases hway : op.thread.underWay with
    | true => rfl
    | false =>
      rw [(h.ops i op hop hservice).finished hway] at hdone
      cases hdone
  · intro hi
    obtain ⟨op, hop, hservice, hway⟩ := hi
    obtain ⟨hdone, hmem⟩ := (h.ops i op hop hservice).undone hway
    exact ⟨hmem, by rw [isDone_of hop, hdone]⟩

theorem Advance.request {i : Nat} {op next : Op} {a : Action} (h : Advance less s i op a next) :
    next.request = op.request := by
  cases h with
  | @run statement rest _ => cases statement <;> rfl
  | _ => rfl

/-- A thread that goes on stores the flag with the last statement. -/
theorem Advance.sound {table : List Nat} {i : Nat} {op next : Op} {a : Action}
    (h : Advance less s i op a next) (ha : Finishes less s a)
    (hservice : op.request.service = .storage) (hs : Sound table i op) : Sound table i next := by
  cases h with
  | @complete r f hr hthread =>
    have hclosing := callback_closing (hr ▸ hservice) ha
    obtain ⟨hdone, hmem⟩ := hs.undone (by rw [hthread]; rfl)
    refine ⟨fun h => (by cases h), ?_, fun _ => ⟨hdone, hmem⟩, ?_⟩
    · intro statement rest hrest
      rw [← Thread.inside.inj hrest]
      exact hclosing
    · intro hway
      cases hrest : callback r f with
      | nil =>
        rw [hrest] at hclosing
        exact absurd hclosing not_closing_nil
      | cons statement rest =>
        rw [hrest] at hway
        cases hway
  | @run statement rest hthread =>
    obtain ⟨hdone, hmem⟩ := hs.undone (by rw [hthread]; rfl)
    rcases closing_tail (hs.closing statement rest hthread) with ⟨rfl, rfl⟩ | ⟨hne, hrest⟩
    · refine ⟨fun h => (by cases h), ?_, fun h => (by cases h), fun _ => rfl⟩
      intro statement rest hrest
      cases hrest
    · have hrun : op.run rest statement = { op with thread := .inside rest } := by
        cases statement with
        | store => exact absurd rfl hne
        | _ => rfl
      rw [hrun]
      refine ⟨fun h => (by cases h), ?_, fun _ => ⟨hdone, hmem⟩, ?_⟩
      · intro statement rest' heq
        rw [← Thread.inside.inj heq]
        exact hrest
      · intro hway
        cases rest with
        | nil => exact absurd hrest not_closing_nil
        | cons x rest => cases hway
  | leave hthread =>
    have hdone := hs.finished (by rw [hthread]; rfl)
    exact ⟨fun h => (by cases h), fun _ _ h => (by cases h), fun h => (by cases h), fun _ => hdone⟩
  | unwind hthread =>
    have hdone := hs.finished (by rw [hthread]; rfl)
    exact ⟨fun h => (by cases h), fun _ _ h => (by cases h), fun h => (by cases h), fun _ => hdone⟩

theorem Inv.advance {i : Nat} {op next : Op} {a : Action} {posts : List (Nat × Post)} (hs : Inv s)
    (ha : Finishes less s a) (hop : s.ops[i]? = some op) (h : Advance less s i op a next) :
    Inv { s with ops := s.ops.set i next, posts := posts } := by
  have hlt : i < s.ops.length := (List.getElem?_eq_some_iff.mp hop).1
  refine ⟨?_, ?_⟩
  · intro j d hd hservice
    simp only [List.getElem?_set] at hd
    split at hd
    · next hij =>
      subst hij
      obtain rfl := Option.some.inj hd
      rw [h.request] at hservice
      exact h.sound ha hservice (hs.ops i op hop hservice)
    · exact hs.ops j d hd hservice
  · intro j hj
    obtain ⟨d, hd, hservice⟩ := hs.entries j hj
    by_cases hij : i = j
    · subst hij
      refine ⟨next, by simp [hlt], ?_⟩
      rw [hop] at hd
      rw [h.request, Option.some.inj hd]
      exact hservice
    · exact ⟨d, by simpa [List.getElem?_set, hij] using hd, hservice⟩

@[simp] theorem reclaim_length (v : Service) : (s.reclaim v).ops.length = s.ops.length := by
  rw [State.reclaim, List.length_mapIdx]

/-- Retain reclaims what is done and no more. -/
theorem mem_table_retain {v w : Service} {r : Request} {thread : Thread} {i : Nat} :
    i ∈ (s.retain v r thread).table w ↔
      if w = v then (i ∈ s.table v ∧ s.isDone i = false) ∨ i = s.ops.length else i ∈ s.table w := by
  rw [State.retain, State.push, reclaim_length]
  by_cases hw : w = v
  · subst hw
    rw [if_pos rfl]
    simp [State.reclaim]
  · rw [if_neg hw]
    simp [State.reclaim, Function.update_of_ne hw]

/-- What has been there is still there, with or without its reference, and one
operation is new. -/
theorem getElem_retain {v : Service} {r : Request} {thread : Thread} {i : Nat} {op : Op}
    (h : (s.retain v r thread).ops[i]? = some op) :
    (∃ d, s.ops[i]? = some d ∧ op.request = d.request ∧ op.done = d.done ∧ op.thread = d.thread) ∨
      (i = s.ops.length ∧ op = ⟨r, true, false, thread⟩) := by
  rw [State.retain, State.push, List.getElem?_append] at h
  split at h
  · rw [State.reclaim, List.getElem?_mapIdx, Option.map_eq_some_iff] at h
    obtain ⟨d, hd, rfl⟩ := h
    refine .inl ⟨d, hd, ?_⟩
    split
    · exact ⟨rfl, rfl, rfl⟩
    · exact ⟨rfl, rfl, rfl⟩
  · next hle =>
    right
    rw [reclaim_length] at h hle
    obtain ⟨hlt, heq⟩ := List.getElem?_eq_some_iff.mp h
    rw [List.length_singleton] at hlt
    have hi : i = s.ops.length := by omega
    subst hi
    rw [Nat.sub_self] at h
    exact ⟨rfl, (Option.some.inj h).symm⟩

theorem kept_retain {v : Service} {r : Request} {thread : Thread} {i : Nat} {d : Op}
    (h : s.ops[i]? = some d) : ∃ op, (s.retain v r thread).ops[i]? = some op ∧
      op.request = d.request ∧ op.done = d.done := by
  have hlt := (List.getElem?_eq_some_iff.mp h).1
  refine ⟨if i ∈ s.table v ∧ d.done = true then d.destroy else d, ?_, ?_, ?_⟩
  · rw [State.retain, State.push, List.getElem?_append_left (by simpa using hlt), State.reclaim,
      List.getElem?_mapIdx, h]
    rfl
  · split <;> rfl
  · split <;> rfl

theorem new_retain (v : Service) (r : Request) (thread : Thread) :
    (s.retain v r thread).ops[s.ops.length]? = some ⟨r, true, false, thread⟩ := by
  rw [State.retain, State.push, List.getElem?_append_right (by simp), reclaim_length,
    Nat.sub_self]
  rfl

theorem Inv.retain {v : Service} {r : Request} (hs : Inv s) (hr : r.service = v) :
    Inv (s.retain v r .pending) := by
  refine ⟨?_, ?_⟩
  · intro i op hop hservice
    rcases getElem_retain hop with ⟨d, hd, hrequest, hdone, hthread⟩ | ⟨rfl, rfl⟩
    · have hsound := hs.ops i d hd (hrequest ▸ hservice)
      refine ⟨hthread ▸ hsound.started, hthread ▸ hsound.closing, ?_, ?_⟩
      · intro hway
        obtain ⟨hundone, hmem⟩ := hsound.undone (hthread ▸ hway)
        refine ⟨hdone.trans hundone, mem_table_retain.mpr ?_⟩
        split
        · next hv => exact .inl ⟨hv ▸ hmem, (isDone_of hd).trans hundone⟩
        · exact hmem
      · intro hway
        rw [hdone]
        exact hsound.finished (hthread ▸ hway)
    · refine ⟨fun h => (by cases h), fun _ _ h => (by cases h), fun _ => ⟨rfl, ?_⟩, fun h => (by cases h)⟩
      rw [mem_table_retain, if_pos (hservice.symm.trans hr)]
      exact .inr rfl
  · intro i hi
    have hold : i ∈ s.table .storage → ∃ op, (s.retain v r .pending).ops[i]? = some op ∧
        op.request.service = .storage := by
      intro hmem
      obtain ⟨d, hd, hservice⟩ := hs.entries i hmem
      obtain ⟨op, hop, hrequest, -⟩ := @kept_retain s v r .pending i d hd
      exact ⟨op, hop, hrequest ▸ hservice⟩
    rw [mem_table_retain] at hi
    split at hi
    · next hv =>
      rcases hi with ⟨hmem, -⟩ | rfl
      · exact hold (hv ▸ hmem)
      · exact ⟨_, new_retain v r .pending, hr.trans hv.symm⟩
    · exact hold hi

theorem request_service (c : Call) : c.request.service = c.service := by
  cases c <;> rfl

/-- A call that gets to the table starts an operation. -/
theorem thread_pending {c : Call} (hc : Finishes less s (.call c))
    (hready : s.ready c.service = true) (hadmitted : c.admitted less = true) :
    c.thread = .pending := by
  cases c with
  | put path bytes len allocated =>
    obtain rfl := hc hready hadmitted
    rfl
  | _ => rfl

theorem Inv.step {a : Action} (hs : Inv s) (ha : Finishes less s a) (h : step less s a = some u) :
    Inv u := by
  by_cases hcall : ∀ c, a ≠ .call c
  · obtain ⟨i, op, next, posts, hop, hadvance, rfl⟩ := step_advance h hcall
    exact hs.advance ha hop hadvance
  · rw [not_forall_not] at hcall
    obtain ⟨c, rfl⟩ := hcall
    obtain rfl := Option.some.inj h
    rw [enter_eq]
    split
    · next hin =>
      obtain ⟨hready, hadmitted⟩ := Bool.and_eq_true_iff.mp hin
      rw [thread_pending ha hready hadmitted]
      exact hs.retain (request_service c)
    · exact hs

/-- After a call that gets to the table, none of its entries is done. -/
theorem reclaimed (s : State) (c : Call) (hready : s.ready .storage = true)
    (hservice : c.service = .storage) (hadmitted : c.admitted less = true) :
    ∀ i ∈ (s.enter less c).1.table .storage, (s.enter less c).1.isDone i = false := by
  rw [enter_eq, hservice, hready, hadmitted, Bool.and_self, if_pos rfl]
  intro i hi
  rw [mem_table_retain, if_pos rfl] at hi
  rcases hi with ⟨-, hundone⟩ | rfl
  · cases hop : (s.retain .storage c.request c.thread).ops[i]? with
    | none =>
      rw [State.isDone, hop]
      rfl
    | some op =>
      rw [isDone_of hop]
      rcases getElem_retain hop with ⟨d, hd, -, hdone, -⟩ | ⟨-, rfl⟩
      · rw [hdone, ← isDone_of hd, hundone]
      · rfl
  · rw [isDone_of (new_retain ..)]

/-- A call that starts an operation does not fail. -/
theorem enter_zero {c : Call} (hready : s.ready c.service = true) (hadmitted : c.admitted less = true)
    (hthread : c.thread = .pending) : (s.enter less c).2 = 0 := by
  have hon : ∀ (r : Request) (path : Option Cbor.Bytes), s.ready .storage = true →
      path.isSome = true → (fdbStorageOn r s path).2 = 0 := by
    intro r path hready hpath
    obtain ⟨p, rfl⟩ := Option.isSome_iff_exists.mp hpath
    simp [fdbStorageOn, hready]
  cases c with
  | put path bytes len allocated =>
    cases allocated with
    | false => cases hthread
    | true =>
      obtain ⟨hpath, hbytes⟩ := Bool.and_eq_true_iff.mp hadmitted
      obtain ⟨p, rfl⟩ := Option.isSome_iff_exists.mp hpath
      have hready : s.ready .storage = true := hready
      simp only [State.enter, fdbStoragePut, hready]
      cases bytes with
      | none =>
        have hlen : len = 0 := by simpa using hbytes
        simp [hlen]
      | some b => simp
  | get path capacity allocated =>
    obtain ⟨hpath, hallocated⟩ := Bool.and_eq_true_iff.mp hadmitted
    obtain ⟨hpath, hcapacity⟩ := Bool.and_eq_true_iff.mp hpath
    obtain ⟨p, rfl⟩ := Option.isSome_iff_exists.mp hpath
    have hready : s.ready .storage = true := hready
    have hcapacity : ¬ capacity < 0 := by simpa using hcapacity
    simp [State.enter, fdbStorageGet, hready, hcapacity, hallocated]
  | delete path => exact hon .delete path hready hadmitted
  | metadata path => exact hon .metadata path hready hadmitted
  | downloadUrl path => exact hon .downloadUrl path hready hadmitted
  | call name args =>
    obtain ⟨hname, hargs⟩ := Bool.and_eq_true_iff.mp hadmitted
    obtain ⟨n, rfl⟩ := Option.isSome_iff_exists.mp hname
    have hready : s.ready .functions = true := hready
    simp only [State.enter, fdbFunctionsCall, hready]
    cases hempty : args.isEmpty with
    | true => simp
    | false =>
      rw [hempty] at hargs
      have hparsed : (parseVariant less args).toOption.isSome = true := by simpa using hargs
      obtain ⟨v, hv⟩ := Option.isSome_iff_exists.mp hparsed
      simp [hv]

/-- A call that fails leaves the table as it was. -/
theorem refused {c : Call} (hc : Finishes less s (.call c)) (h : (s.enter less c).2 ≠ 0) :
    (s.enter less c).1 = s := by
  rw [enter_eq]
  split
  · next hin =>
    obtain ⟨hready, hadmitted⟩ := Bool.and_eq_true_iff.mp hin
    exact absurd (enter_zero hready hadmitted (thread_pending hc hready hadmitted)) h
  · rfl

/-- As long as every upload gets its copy and no download succeeds, the table
tells the operations whose callback has not run. -/
theorem entries_tracked (less : Less) (ready : Service → Bool) (s : State)
    (h : Run (step less) (Finishes less) (.start ready) s) : Tracked less s := by
  have hinv : Inv s := h.invariant (Inv.start ready) fun t a u ht ha hstep => ht.step ha hstep
  exact ⟨hinv.undone, fun i op hop hservice => (hinv.ops i op hop hservice).finished,
    reclaimed s, fun c => refused⟩

def missing : Future Nat := ⟨404, none, none⟩

/-- A download that fails, an upload, and a delete that reclaims the first. -/
def failedDownload : List Action :=
  [.call (.get (some [0x61]) 8 true), .complete 0 (.get 8) missing, .run 0, .run 0, .run 0,
    .call (.put (some [0x61]) (some [0x01]) 1 true), .call (.delete (some [0x62]))]

theorem failedDownload_tracked : ∃ s,
    exec (step fun _ _ => false) (.start fun _ => true) failedDownload = some s ∧
      s.table .storage = [1, 2] ∧ Tracked (fun _ _ => false) s := by
  have hexec : exec (step fun _ _ => false) (.start fun _ => true) failedDownload = some _ := rfl
  refine ⟨_, hexec, rfl, entries_tracked _ (fun _ => true) _ (Run.of_exec hexec ?_)⟩
  refine .next trivial rfl ?_
  refine .next (fun h => by cases h) rfl ?_
  refine .next trivial rfl ?_
  refine .next trivial rfl ?_
  refine .next trivial rfl ?_
  refine .next (fun _ _ => rfl) rfl ?_
  exact .next trivial rfl trivial

/-- A download that succeeds. -/
def downloaded : List Action :=
  [.call (.get (some [0x61]) 8 true), .complete 0 (.get 8) ⟨0, none, some (8 : Nat)⟩, .run 0,
    .leave 0, .unwind 0]

/-- Its entry is never done. -/
theorem downloaded_untracked : ∃ s,
    Run (step fun _ _ => false) (fun _ _ => True) (.start fun _ => true) s ∧
      s.ops[0]? = some ⟨.get 8, true, false, .unwound⟩ ∧ ¬ Tracked (fun _ _ => false) s := by
  have hexec : exec (step fun _ _ => false) (.start fun _ => true) downloaded = some _ := rfl
  refine ⟨_, Run.of_exec hexec (.unguarded _), rfl, ?_⟩
  intro h
  have hover := h.finished 0 ⟨.get 8, true, false, .unwound⟩ rfl rfl rfl
  cases hover

end InFlight
