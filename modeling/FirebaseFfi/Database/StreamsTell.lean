import FirebaseFfi.Database.StreamsKept

namespace Database
open Assoc Cbor Dart Machine Tinycbor
open Firebase (Less Variant byBytes itemOf)

section Tells

variable (package : CborPackage) (less : Less)

/-- The SDK tells only what can be written and read. -/
def WatchAction.Arriving : WatchAction → Prop
  | .report _ _ _ r => r.Arrives less
  | _ => True

/-- A stream that a listener was made for has told its subscriber what the SDK told
that listener, in this order and each once, as far as it has come: the rest is in
its controller and at its port. A stream without one tells at most its refusal. -/
structure Tells (w : Watching) (s : DbStream) : Prop where
  fed : ∀ l, s.source = some l →
    (∃ listener, w.listening.created[l]? = some listener ∧ Asked package less s.call listener) ∧
    (toldAll s.call (w.reports l)).2 =
      s.out.received ++ s.out.queue ++ s.inbox.queue.filterMap (s.call.handled package)
  refused : s.source = none → s.out.received <+: (s.refusal.map StreamItem.error).toList ∧
    ∀ error, s.refusal = some error → RefusedWith s.call error

/-- The listeners that the SDK has are those of the live streams, each of one of
them, under its handle and with its port. The ports that are open are those of the
live streams and of the ones whose query could not be encoded, which have no
listener. -/
structure Released (w : Watching) : Prop where
  registered : ∀ kind l, (kind, l) ∈ w.listening.registered ↔
    ∃ (i : Nat) (s : DbStream), w.streams[i]? = some s ∧ s.source = some l ∧ s.call.kind = kind ∧
      ∃ port handle, s.phase = .live port handle
  once : w.listening.registered.Nodup
  apart : ∀ {i j : Nat} {s t : DbStream} {l}, w.streams[i]? = some s → w.streams[j]? = some t →
    s.source = some l → t.source = some l → i = j
  opened : ∀ port, port ∈ w.ports ↔ ∃ (i : Nat) (s : DbStream), w.streams[i]? = some s ∧
    ((∃ handle, s.phase = .live port handle) ∨
      s.phase = .halted port ∧ s.source = none ∧ Unencodable package s.call)
  ports : w.ports.Nodup
  own : ∀ {i : Nat} {s : DbStream} {port handle}, w.streams[i]? = some s →
    s.phase = .live port handle → ∃ l listener, s.source = some l ∧
      (handle, l) ∈ w.listening.table s.call.kind ∧ w.listening.created[l]? = some listener ∧
      listener.port = port
  handles : ∀ {i j : Nat} {s t : DbStream} {port port' handle}, w.streams[i]? = some s →
    w.streams[j]? = some t → s.phase = .live port handle → t.phase = .live port' handle → i = j

end Tells

section Steps

variable {package : CborPackage} {less : Less} {w w' : Watching} {i : Nat} {s : DbStream}

/-- The listeners and the reports there are after a step: the SDK has told one
listener of something, or it has told none and there may be a new one. -/
theorem WatchInv.changes (h : WatchInv package less w) {a : WatchAction}
    (hstep : w.step package less a = some w') :
    (w'.reports = w.reports ∧ ∀ (l : Nat) x, w'.listening.created[l]? = some x →
      w.listening.created[l]? = some x ∨ w.reports l = []) ∨
    ∃ kind l postedNs r listener, a = .report kind l postedNs r ∧
      w.listening.created[l]? = some listener ∧ listener.kind = kind ∧ (∀ k ∈ r.kind, kind = k) ∧
      w.seq l ≠ Int64.maxValue ∧ w'.listening = w.listening ∧
      w'.reports = Function.update w.reports l (w.reports l ++ [(postedNs, r)]) := by
  have hbegun : ∀ {s s' : DbStream} {n database port},
      s.begin package less w.listening database port = some (n, s') → ∀ (l : Nat) x,
        n.created[l]? = some x → w.listening.created[l]? = some x ∨ w.reports l = [] := by
    intro s s' n database port hbegin l x hx
    rcases begin_cases h.listen hbegin with ⟨rfl, -⟩ | ⟨rfl, -⟩ | ⟨handle, listener, hb, -⟩
    · exact .inl hx
    · exact .inl hx
    · by_cases hl : l < w.listening.created.length
      · rw [hb.added.created, List.getElem?_append_left hl] at hx
        exact .inl hx
      · exact .inr (h.fresh l (Nat.not_lt.mp hl))
  have hlocal : ∀ {i f}, w.at i f = some w' → w'.reports = w.reports ∧
      w'.listening = w.listening := by
    intro i f hat
    obtain ⟨s', -, rfl⟩ := Option.map_eq_some_iff.mp hat
    exact ⟨rfl, rfl⟩
  cases a with
  | ask call database port =>
    refine .inl ?_
    change w.ask package less call database port = some w' at hstep
    unfold Watching.ask at hstep
    split at hstep
    · split at hstep
      · cases hstep
      · obtain ⟨⟨after, s⟩, hbegin, rfl⟩ := Option.map_eq_some_iff.mp hstep
        exact ⟨rfl, hbegun hbegin⟩
    · cases hstep
      exact ⟨rfl, fun _ _ hx => .inl hx⟩
  | listen i database port =>
    refine .inl ?_
    obtain ⟨s, -, hstep⟩ := Option.bind_eq_some_iff.mp hstep
    split at hstep
    · cases hstep
    · split at hstep
      · split at hstep
        · cases hstep
        · obtain ⟨⟨after, s'⟩, hbegin, rfl⟩ := Option.map_eq_some_iff.mp hstep
          exact ⟨rfl, hbegun hbegin⟩
      · cases hstep
        exact ⟨rfl, fun _ _ hx => .inl hx⟩
      · cases hstep
        exact ⟨rfl, fun _ _ hx => .inl hx⟩
  | report kind l postedNs r =>
    change w.report less kind l postedNs r = some w' at hstep
    unfold Watching.report at hstep
    split at hstep
    · cases hstep
    · next listener hlistener =>
      split at hstep
      · next hguard =>
        obtain ⟨hregistered, hmax, hkinds⟩ := hguard
        obtain ⟨j, t, ht, htl, hkind, -⟩ := h.owned hregistered
        obtain ⟨⟨x, hx, database, c, hc, hmade⟩, -⟩ := (h.streams ht).fed l htl
        obtain rfl := Option.some.inj (hlistener.symm.trans hx)
        refine .inr ⟨kind, l, postedNs, r, listener, rfl, hlistener,
          (listener_made hc hmade).1.trans hkind, ?_, hmax, ?_⟩
        · intro k hk
          rw [Option.mem_def.mp hk] at hkinds
          exact (by simpa using hkinds : k = kind).symm
        · obtain rfl := Option.some.inj hstep
          split <;> exact ⟨rfl, rfl⟩
      · cases hstep
  | message i =>
    obtain ⟨hreports, hlistening⟩ := hlocal hstep
    rw [hreports, hlistening]
    exact .inl ⟨rfl, fun _ _ hx => .inl hx⟩
  | microtask i =>
    obtain ⟨hreports, hlistening⟩ := hlocal hstep
    rw [hreports, hlistening]
    exact .inl ⟨rfl, fun _ _ hx => .inl hx⟩
  | deliver i =>
    obtain ⟨hreports, hlistening⟩ := hlocal hstep
    rw [hreports, hlistening]
    exact .inl ⟨rfl, fun _ _ hx => .inl hx⟩
  | cancel i =>
    refine .inl ?_
    obtain ⟨s, hi, hstep⟩ := Option.bind_eq_some_iff.mp hstep
    split at hstep
    · cases hstep
    · obtain rfl := Option.some.inj hstep
      have hcreated : ∀ handle, (fdbDbUnlisten w.listening handle).created = w.listening.created := by
        intro handle
        rcases h.listen.unlistens handle with ⟨r, -, hremoved⟩ | ⟨-, heq⟩
        · exact hremoved.created
        · rw [heq]
      refine ⟨rfl, ?_⟩
      intro l x hx
      refine .inl ?_
      revert hx
      dsimp only
      split
      · split
        · rw [hcreated]
          exact id
        · exact id
      · exact id

/-- What a listener was told is handed on by any stream of its kind. -/
def Heard (package : CborPackage) (less : Less) (w : Watching) : Prop :=
  ∀ (l : Nat) listener, w.listening.created[l]? = some listener → ∀ call : StreamCall,
    call.kind = listener.kind → Conveyed package less call (w.reports l)

theorem Heard.step (hheard : Heard package less w) (h : WatchInv package less w)
    (hp : package.Reads) (hless : OrdersEvents less) {a : WatchAction} (ha : a.Arriving less)
    (hstep : w.step package less a = some w') : Heard package less w' := by
  intro l x hx call hkind
  rcases h.changes hstep with ⟨hreports, hold⟩ |
    ⟨kind, k, postedNs, r, listener, rfl, hlistener, hlkind, hr, hmax, hsame, hreports⟩
  · rw [hreports]
    rcases hold l x hx with hx | hnone
    · exact hheard l x hx call hkind
    · rw [hnone]
      exact .nil
  · rw [hsame] at hx
    rw [hreports]
    by_cases hl : l = k
    · subst hl
      obtain rfl := Option.some.inj (hlistener.symm.trans hx)
      rw [Function.update_self]
      refine (hheard l listener hx call hkind).snoc hp hless ha ?_ ?_
      · intro j hj
        rw [hkind, hlkind]
        exact hr j hj
      · rw [← h.seq]
        exact hmax
    · rw [Function.update_of_ne hl]
      exact hheard l x hx call hkind

theorem WatchInv.tells (h : WatchInv package less w) (hheard : Heard package less w)
    (hi : w.streams[i]? = some s) : Tells package less w s := by
  have hs := h.streams hi
  refine ⟨?_, ?_⟩
  · intro l hl
    obtain ⟨⟨listener, hlistener, hasked⟩, hsent⟩ := hs.fed l hl
    refine ⟨⟨listener, hlistener, hasked⟩, ?_⟩
    obtain ⟨database, c, hc, hmade⟩ := hasked
    have hconveyed := hheard l listener hlistener s.call (listener_made hc hmade).1.symm
    have hne : s.source ≠ none := by
      rw [hl]
      exact Option.some_ne_none l
    have hrelays : Channel.Relays (s.call.handled package) s.inbox s.out := by
      have hadded := hs.added
      rw [(hs.started hne).2] at hadded
      rw [Channel.Relays, hadded]
      exact List.append_nil _
    rw [← hconveyed.items, ← hsent]
    exact hrelays.flow
  · intro hnone
    have hflow := s.inbox.flow
    rw [hs.unfed hnone] at hflow
    have hadded := hs.added
    rw [(List.append_eq_nil_iff.mp hflow.symm).1] at hadded
    refine ⟨?_, fun error he => hs.refused error (.inr (.inr he))⟩
    have hgiven := s.out.received_prefix
    rw [hadded] at hgiven
    exact hgiven

/-- A stream that was made no listener for has none. -/
theorem StreamInv.unlistened {n : Listening} {reports : Nat → List (Int64 × Report)}
    (h : StreamInv package less n reports s) {port : Int64} (hphase : s.phase = .halted port) :
    s.source = none := by
  by_contra hne
  rcases (h.started hne).1 with ⟨port, handle, hlive⟩ | hcancelled
  · cases hphase.symm.trans hlive
  · cases hphase.symm.trans hcancelled

theorem WatchInv.opened (h : WatchInv package less w) (port : Int64) :
    port ∈ w.ports ↔ ∃ (i : Nat) (s : DbStream), w.streams[i]? = some s ∧
      ((∃ handle, s.phase = .live port handle) ∨
        s.phase = .halted port ∧ s.source = none ∧ Unencodable package s.call) := by
  rw [Watching.ports, List.mem_filterMap]
  constructor
  · rintro ⟨s, hs, hport⟩
    obtain ⟨i, hi⟩ := List.getElem?_of_mem hs
    refine ⟨i, s, hi, ?_⟩
    cases hphase : s.phase with
    | live p handle =>
      rw [hphase] at hport
      obtain rfl := Option.some.inj hport
      exact .inl ⟨handle, rfl⟩
    | halted p =>
      rw [hphase] at hport
      obtain rfl := Option.some.inj hport
      have hinv := h.streams hi
      exact .inr ⟨rfl, hinv.unlistened hphase, hinv.halted p hphase⟩
    | _ =>
      rw [hphase] at hport
      cases hport
  · rintro ⟨i, s, hi, ⟨handle, hphase⟩ | ⟨hphase, -⟩⟩ <;>
      exact ⟨s, List.mem_of_getElem? hi, by rw [hphase]; rfl⟩

/-- One handle is given to one listener, which is of one stream. -/
theorem WatchInv.handles (h : WatchInv package less w) {i j : Nat} {s t : DbStream}
    {port port' handle : Int64} (hi : w.streams[i]? = some s) (hj : w.streams[j]? = some t)
    (hs : s.phase = .live port handle) (ht : t.phase = .live port' handle) : i = j := by
  obtain ⟨l, x, hl⟩ := (h.streams hi).live port handle hs
  obtain ⟨k, y, hk⟩ := (h.streams hj).live port' handle ht
  have heq := List.inj_on_of_nodup_map h.listen.once (h.listen.live _ _ hl.held)
    (h.listen.live _ _ hk.held) rfl
  have hsame : l = k := congrArg Returned.listener heq
  exact h.apart hi hj hl.source (hsame ▸ hk.source)

theorem WatchInv.released (h : WatchInv package less w) : Released package w := by
  refine ⟨?_, h.listen.nodup, h.apart, h.opened, ?_, ?_, h.handles⟩
  · intro kind l
    refine ⟨h.owned, ?_⟩
    rintro ⟨i, s, hi, hl, hkind, port, handle, hphase⟩
    obtain ⟨k, listener, hkeeps⟩ := (h.streams hi).live port handle hphase
    obtain rfl := Option.some.inj (hl.symm.trans hkeeps.source)
    refine (h.listen.registered kind l).mpr ⟨handle, ?_⟩
    rw [← hkind]
    exact hkeeps.held
  · rw [Watching.ports, List.Nodup, List.pairwise_filterMap, List.pairwise_iff_getElem]
    intro i j hi hj hlt p hp q hq heq
    subst heq
    exact hlt.ne (h.ports (List.getElem?_eq_getElem hi) (List.getElem?_eq_getElem hj) hp hq)
  · intro i s port handle hi hphase
    obtain ⟨l, listener, hkeeps⟩ := (h.streams hi).live port handle hphase
    exact ⟨l, listener, hkeeps.source, hkeeps.held, hkeeps.created, hkeeps.port⟩

/-- Nothing comes to a stream after it is cancelled. -/
theorem WatchInv.stays (h : WatchInv package less w) (hi : w.streams[i]? = some s)
    (hphase : s.phase = .cancelled) {a : WatchAction} (hstep : w.step package less a = some w') :
    w'.streams[i]? = some s := by
  have hlistened := (h.streams hi).heard hphase
  have hset : ∀ {j : Nat} {t : DbStream}, (i = j → t = s) → (w.streams.set j t)[i]? = some s := by
    intro j t ht
    rw [List.getElem?_set]
    split
    · next hij =>
      subst hij
      rw [if_pos (List.getElem?_eq_some_iff.mp hi).1, ht rfl]
    · exact hi
  have hat : ∀ {j f}, w.at j f = some w' → (j = i → f s = none) → w'.streams[i]? = some s := by
    intro j f hf hnone
    obtain ⟨t', ht', rfl⟩ := Option.map_eq_some_iff.mp hf
    obtain ⟨t, ht, hft⟩ := Option.bind_eq_some_iff.mp ht'
    refine hset ?_
    rintro rfl
    obtain rfl := Option.some.inj (ht.symm.trans hi)
    cases (hnone rfl).symm.trans hft
  cases a with
  | ask call database port =>
    have happend : ∀ t : DbStream, (w.streams ++ [t])[i]? = some s := by
      intro t
      rw [List.getElem?_append_left (List.getElem?_eq_some_iff.mp hi).1]
      exact hi
    change w.ask package less call database port = some w' at hstep
    unfold Watching.ask at hstep
    split at hstep
    · split at hstep
      · cases hstep
      · obtain ⟨⟨after, t⟩, -, rfl⟩ := Option.map_eq_some_iff.mp hstep
        exact happend t
    · cases hstep
      exact happend _
  | listen j database port =>
    obtain ⟨t, ht, hstep⟩ := Option.bind_eq_some_iff.mp hstep
    split at hstep
    · cases hstep
    · next hnot =>
      have hne : i ≠ j := by
        rintro rfl
        obtain rfl := Option.some.inj (ht.symm.trans hi)
        exact hnot hlistened
      split at hstep
      · split at hstep
        · cases hstep
        · obtain ⟨⟨after, t'⟩, -, rfl⟩ := Option.map_eq_some_iff.mp hstep
          exact hset fun hij => absurd hij hne
      · cases hstep
        exact hset fun hij => absurd hij hne
      · cases hstep
        exact hset fun hij => absurd hij hne
  | report kind l postedNs r =>
    change w.report less kind l postedNs r = some w' at hstep
    unfold Watching.report at hstep
    split at hstep
    · cases hstep
    · split at hstep
      · obtain rfl := Option.some.inj hstep
        split
        · show (w.streams.map _)[i]? = some s
          rw [List.getElem?_map, hi, Option.map_some, if_neg (by simp [hphase, Phase.port])]
        · exact hi
      · cases hstep
  | message j =>
    refine hat hstep fun _ => ?_
    rw [DbStream.message, if_pos (by rw [hphase]; rfl)]
  | microtask j =>
    refine hat hstep fun _ => ?_
    simp [DbStream.microtask, hphase]
  | deliver j =>
    refine hat hstep fun _ => ?_
    simp [DbStream.deliver, hphase]
  | cancel j =>
    obtain ⟨t, ht, hstep⟩ := Option.bind_eq_some_iff.mp hstep
    split at hstep
    · cases hstep
    · obtain rfl := Option.some.inj hstep
      refine hset ?_
      rintro rfl
      obtain rfl := Option.some.inj (ht.symm.trans hi)
      rw [← hphase]

end Steps

section Runs

variable {package : CborPackage} {less : Less} {w : Watching}

theorem WatchInv.run {guard : Watching → WatchAction → Prop}
    (h : Run (Watching.step package less) guard .start w) : WatchInv package less w :=
  h.invariant .start fun _ _ _ hi _ hstep => hi.step hstep

theorem run_heard (hp : package.Reads) (hless : OrdersEvents less)
    (h : Run (Watching.step package less) (fun _ a => a.Arriving less) .start w) :
    WatchInv package less w ∧ Heard package less w := by
  refine h.invariant (I := fun w => WatchInv package less w ∧ Heard package less w)
    ⟨.start, ?_⟩ ?_
  · intro l listener hl
    cases hl
  · intro t a u ht ha hstep
    exact ⟨ht.1.step hstep, ht.2.step ht.1 hp hless ha hstep⟩

/-- In every run, whatever the order of the application, the SDK's threads and the
isolate, each stream tells what the SDK told its own listener. -/
theorem streams_tell (hp : package.Reads) (hless : OrdersEvents less)
    (h : Run (Watching.step package less) (fun _ a => a.Arriving less) .start w) {i : Nat}
    {s : DbStream} (hi : w.streams[i]? = some s) : Tells package less w s := by
  obtain ⟨hinv, hheard⟩ := run_heard hp hless h
  exact hinv.tells hheard hi

theorem byBytes_events : OrdersEvents byBytes := by
  simp only [OrdersEvents, List.pairwise_cons, List.forall_mem_cons]
  decide

def oneChild : Report := .child (.added none) (.node [0x62] (.bool true) [])

theorem oneChild_arrives : oneChild.Arrives byBytes := by
  refine .child ⟨⟨"b", rfl⟩, by decide, by decide⟩ ?_ ⟨.bool, .bool, by decide⟩ (by decide)
  intro previous h
  cases h

def oneNode : DataSnapshot := .node [0x61] (.int64 3) []

theorem oneNode_named : oneNode.Named := by
  refine .node (by decide) List.nodup_nil ?_ ?_
  · intro kid hkid
    cases hkid
  · intro kid hkid
    cases hkid

def oneValue : Report := .value oneNode

def lostAccess : Report := .cancelled 7 (some [0x6e])

theorem oneValue_arrives : oneValue.Arrives byBytes := by
  refine .value oneNode_named ⟨.int64, .int, by decide⟩ (by decide)

theorem lostAccess_arrives : lostAccess.Arrives byBytes :=
  .cancelled ⟨⟨"error 7: n", rfl⟩, by decide, by decide⟩ (by decide)

/-- What the SDK is to tell. -/
def toldItems : List Item :=
  [itemOf (eventVariant (.added none) (.node [0x62] (.bool true) [])), itemOf (.int64 3),
    orderItem oneNode, itemOf (.string (cancelledText 7 (some [0x6e])))]

/-- A stream of children and one of values, each told by its own listener, and all of
it handled. -/
def bothTold : List WatchAction :=
  [.ask (.onChildEvent [0x61] .empty) true 0, .ask (.onValue [0x61]) true 8, .listen 1 true 0,
    .listen 0 true 7, .report .value 0 6 oneValue, .report .child 1 5 oneChild,
    .report .value 0 9 lostAccess, .message 0, .message 1, .deliver 0, .message 1, .deliver 1,
    .deliver 1]

theorem toldItems_wf : ∀ x ∈ toldItems, x.WF := by
  have hevent : Posted byBytes (eventVariant (.added none) (.node [0x62] (.bool true) [])) :=
    event_posted byBytes_events ⟨⟨"b", rfl⟩, by decide, by decide⟩ (fun _ h => by cases h)
      ⟨.bool, .bool, by decide⟩ (by decide)
  have htext : (Variant.string (cancelledText 7 (some [0x6e]))).Tree byBytes := .string (by decide)
  have hint : (Variant.int64 3).Tree byBytes := .int64
  simp only [toldItems, List.forall_mem_cons]
  exact ⟨hevent.tree.item_wf, hint.item_wf, oneNode_named.item_wf, htext.item_wf, by simp⟩

theorem bothTold_tells : ∃ w s t,
    exec (Watching.step itemPackage byBytes) .start bothTold = some w ∧
      w.streams[0]? = some s ∧ w.streams[1]? = some t ∧
      s.out.received = [.child ⟨.added, [0x62], none, .bool true⟩] ∧
      t.out.received = [.snapshot ⟨1, .int 3, 6, some (.mk [] [])⟩,
        .error (.state (ascii "database listener canceled: error 7: n"))] ∧
      Tells itemPackage byBytes w s ∧ Tells itemPackage byBytes w t := by
  have hknown : knownPackage toldItems = itemPackage := knownPackage_eq toldItems_wf
  rw [← hknown]
  have hexec : exec (Watching.step (knownPackage toldItems) byBytes) .start bothTold = some _ := rfl
  have hguard : Guarded (Watching.step (knownPackage toldItems) byBytes)
      (fun _ a => a.Arriving byBytes) .start bothTold := by
    refine Guarded.of_actions ?_
    simp only [bothTold, List.forall_mem_cons]
    exact ⟨trivial, trivial, trivial, trivial, oneValue_arrives, oneChild_arrives,
      lostAccess_arrives, trivial, trivial, trivial, trivial, trivial, trivial, by simp⟩
  have hreads : (knownPackage toldItems).Reads := hknown ▸ itemPackage_reads
  refine ⟨_, _, _, hexec, rfl, rfl, rfl, rfl, ?_, ?_⟩
  · exact streams_tell hreads byBytes_events (Run.of_exec hexec hguard) (i := 0) rfl
  · exact streams_tell hreads byBytes_events (Run.of_exec hexec hguard) (i := 1) rfl

/-- In every run the SDK has the listeners of the streams that are live, and no
other; and a stream that is cancelled is told nothing more. -/
theorem streams_release (h : Run (Watching.step package less) (fun _ _ => True) .start w) :
    Released package w ∧ ∀ (i : Nat) s w', w.streams[i]? = some s → s.phase = .cancelled →
      Run (Watching.step package less) (fun _ _ => True) w w' → w'.streams[i]? = some s := by
  have hinv := WatchInv.run h
  refine ⟨hinv.released, ?_⟩
  intro i s w' hi hphase hrun
  have hkept := hrun.invariant (I := fun w' => WatchInv package less w' ∧ w'.streams[i]? = some s)
    ⟨hinv, hi⟩ fun t a u ht _ hstep => ⟨ht.1.step hstep, ht.1.stays ht.2 hphase hstep⟩
  exact hkept.2

/-- The query's bound is of a type that no encoding has. -/
def foreignQuery : DbQuery := DbQuery.empty.equalTo (.other 0) none

/-- The first stream is cancelled and its port opened for another, beside one whose
query cannot be encoded. -/
def cancelledTwice : List WatchAction :=
  [.ask (.onChildEvent [0x61] .empty) true 0, .listen 0 true 7,
    .ask (.onQueryValue [0x61] foreignQuery) true 0, .listen 1 true 8, .cancel 0,
    .ask (.onValue [0x61]) true 7, .cancel 0]

theorem cancelledTwice_released : ∃ w,
    exec (Watching.step itemPackage byBytes) .start cancelledTwice = some w ∧
      w.listening.registered = [(.value, 1)] ∧ w.ports = [8, 7] ∧ Released itemPackage w := by
  have hexec : exec (Watching.step itemPackage byBytes) .start cancelledTwice = some _ := rfl
  exact ⟨_, hexec, rfl, rfl, (streams_release (Run.of_exec hexec (.unguarded _))).1⟩

end Runs

end Database
