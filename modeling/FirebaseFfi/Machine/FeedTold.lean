import FirebaseFfi.Machine.FeedKept

namespace Machine
open Assoc

section Told

variable {Call Env Listener Report Message Item Refusal Port : Type}

/-- What a listener sends of a report comes to what is to be shown of it, as long as
the listener is sound, and it stays so. Of some reports nothing is shown. -/
structure Feed.Conveys (F : Feed Call Env Listener Report Message Item Refusal)
    (Suits : Report → Prop) (Sound : Call → Listener → Prop) (shows : Call → Report → Option Item) :
    Prop where
  made : ∀ {call x}, F.Makes call x → Sound call x
  told : ∀ {call x r y m}, Sound call x → Suits r → F.tell x r = some (y, m) →
    Sound call y ∧ F.handle call m = shows call r

/-- A stream that a listener was made for has told its subscriber what that listener
was told, in this order and each once, as far as it has come: the rest is in its
controller and at its port. A stream without one tells at most its refusal. -/
structure Hub.Tells (F : Feed Call Env Listener Report Message Item Refusal)
    (shows : Call → Report → Option Item) (h : Hub Call Listener Report Message Item Refusal Port)
    (s : Subscription Call Message Item Refusal Port) : Prop where
  fed : ∀ l, s.source = some l → ∃ src, h.sources[l]? = some src ∧ F.Makes s.call src.made ∧
    src.told.filterMap (shows s.call) =
      s.out.received ++ s.out.queue ++ s.inbox.queue.filterMap (F.handle s.call)
  refused : s.source = none → s.out.received <+: (s.refusal.map (F.refused s.call)).toList ∧
    ∀ r, s.refusal = some r → ∃ env, F.listen s.call env = some (.error r)

/-- The listeners that are registered are those of the live streams, each of one of
them, with its port and under its id, which no other has. -/
structure Hub.Released (h : Hub Call Listener Report Message Item Refusal Port) : Prop where
  registered : ∀ l, l ∈ h.registered ↔
    ∃ (i : Nat) (s : Subscription Call Message Item Refusal Port), h.streams[i]? = some s ∧
      s.source = some l ∧ ∃ port id, s.phase = .live port id
  once : h.registered.Nodup
  apart : ∀ {i j : Nat} {s t l}, h.streams[i]? = some s → h.streams[j]? = some t →
    s.source = some l → t.source = some l → i = j
  ports : h.ports.Nodup
  own : ∀ {i : Nat} {s port id}, h.streams[i]? = some s → s.phase = .live port id →
    ∃ l src, s.source = some l ∧ (id, l) ∈ h.table ∧ h.sources[l]? = some src ∧ src.port = port
  keys : (h.table.map Prod.fst).Nodup
  ids : ∀ {i j : Nat} {s t port port' id}, h.streams[i]? = some s → h.streams[j]? = some t →
    s.phase = .live port id → t.phase = .live port' id → i = j

/-- A report is one that suits. -/
def FeedAction.Suits (Suits : Report → Prop) : FeedAction Call Env Report Port → Prop
  | .report _ r => Suits r
  | _ => True

variable {F : Feed Call Env Listener Report Message Item Refusal} {Suits : Report → Prop}
  {Sound : Call → Listener → Prop} {shows : Call → Report → Option Item}
  {h h' : Hub Call Listener Report Message Item Refusal Port} {i : Nat}
  {s : Subscription Call Message Item Refusal Port}

theorem Feed.Conveys.tellAll (hF : F.Conveys Suits Sound shows) {call : Call} {x y : Listener}
    {rs : List Report} {ms : List Message} (hx : Sound call x) (hrs : ∀ r ∈ rs, Suits r)
    (h : F.tellAll x rs = some (y, ms)) :
    ms.filterMap (F.handle call) = rs.filterMap (shows call) := by
  induction rs generalizing x ms with
  | nil =>
    cases h
    rfl
  | cons r rs ih =>
    obtain ⟨⟨z, m⟩, hz, hrest⟩ := Option.bind_eq_some_iff.mp h
    obtain ⟨⟨w, ns⟩, hw, heq⟩ := Option.map_eq_some_iff.mp hrest
    cases heq
    obtain ⟨hsound, hhandle⟩ := hF.told hx (hrs r List.mem_cons_self) hz
    have hns := ih hsound (fun q hq => hrs q (List.mem_cons_of_mem _ hq)) hw
    rw [List.filterMap_cons, List.filterMap_cons, hhandle, hns]

theorem Hub.Inv.tells (hinv : h.Inv F) (hF : F.Conveys Suits Sound shows)
    (hsuits : ∀ src ∈ h.sources, ∀ r ∈ src.told, Suits r) (hi : h.streams[i]? = some s) :
    h.Tells F shows s := by
  have hs := hinv.streams hi
  refine ⟨?_, ?_⟩
  · intro l hl
    obtain ⟨src, hsrc, hmakes, htold⟩ := hs.fed l hl
    refine ⟨src, hsrc, hmakes, ?_⟩
    have hrelays : Channel.Relays (F.handle s.call) s.inbox s.out := by
      have hadded := hs.added
      rw [(hs.started (by rw [hl]; exact Option.some_ne_none l)).2] at hadded
      rw [Channel.Relays, hadded]
      exact List.append_nil _
    rw [← hF.tellAll (hF.made hmakes) (hsuits src (List.mem_of_getElem? hsrc)) htold]
    exact hrelays.flow
  · intro hnone
    refine ⟨?_, fun r hr => (hs.refused r hr).2⟩
    have hflow := s.inbox.flow
    rw [hs.unfed hnone] at hflow
    have hadded := hs.added
    rw [(List.append_eq_nil_iff.mp hflow.symm).1] at hadded
    have hgiven := s.out.received_prefix
    rw [hadded] at hgiven
    exact hgiven

/-- One id is that of one listener, which is of one stream. -/
theorem Hub.Inv.ids (hinv : h.Inv F) {i j : Nat}
    {s t : Subscription Call Message Item Refusal Port} {port port' : Port} {id : Int64}
    (hi : h.streams[i]? = some s) (hj : h.streams[j]? = some t) (hs : s.phase = .live port id)
    (ht : t.phase = .live port' id) : i = j := by
  obtain ⟨l, -, hl, hidl, -⟩ := (hinv.streams hi).live _ _ hs
  obtain ⟨k, -, hk, hidk, -⟩ := (hinv.streams hj).live _ _ ht
  have hlookup := (lookup_mem hinv.registry.keys).mpr hidl
  rw [(lookup_mem hinv.registry.keys).mpr hidk] at hlookup
  obtain rfl := Option.some.inj hlookup
  exact hinv.apart hi hj hl hk

theorem Hub.Inv.released (hinv : h.Inv F) : h.Released := by
  refine ⟨?_, ?_, hinv.apart, ?_, fun hi hphase => (hinv.streams hi).live _ _ hphase,
    hinv.registry.keys, hinv.ids⟩
  · intro l
    refine ⟨hinv.owned l, ?_⟩
    rintro ⟨i, s, hi, hl, port, id, hphase⟩
    obtain ⟨k, src, hk, hid, -⟩ := (hinv.streams hi).live port id hphase
    obtain rfl := Option.some.inj (hl.symm.trans hk)
    rw [hinv.registry.registered]
    exact List.mem_map.mpr ⟨_, hid, rfl⟩
  · rw [hinv.registry.registered]
    exact hinv.registry.values
  · rw [Hub.ports, List.Nodup, List.pairwise_filterMap, List.pairwise_iff_getElem]
    intro i j hi hj hlt p hp q hq heq
    subst heq
    exact Nat.ne_of_lt hlt (hinv.ports (List.getElem?_eq_getElem hi) (List.getElem?_eq_getElem hj) hp hq)

variable [DecidableEq Port]

/-- The listeners after a step: one was told, or there may be a new one. -/
theorem Hub.step_sources {a : FeedAction Call Env Report Port} (hstep : h.step F a = some h') :
    h'.sources = h.sources ∨ (∃ x port, h'.sources = h.sources ++ [⟨x, x, port, []⟩]) ∨
    ∃ l r src now, a = .report l r ∧ h.sources[l]? = some src ∧
      h'.sources = h.sources.set l { src with now := now, told := src.told ++ [r] } := by
  have hlocal : ∀ {i f}, h.at' i f = some h' → h'.sources = h.sources := by
    intro i f hat
    obtain ⟨s', -, rfl⟩ := Option.map_eq_some_iff.mp hat
    rfl
  cases a with
  | ask call =>
    obtain rfl := Option.some.inj hstep
    exact .inl rfl
  | listen i env port =>
    obtain ⟨s, -, hstep⟩ := Option.bind_eq_some_iff.mp hstep
    split at hstep
    · split at hstep
      · cases hstep
      · split at hstep
        · cases hstep
        · cases hstep
          exact .inl rfl
        · next x _ =>
          obtain ⟨⟨after, id⟩, hadd, rfl⟩ := Option.map_eq_some_iff.mp hstep
          unfold Hub.add at hadd
          split at hadd
          · cases hadd
          · cases hadd
            exact .inr (.inl ⟨x, port, rfl⟩)
    · cases hstep
  | report l r =>
    obtain ⟨src, hsrc, hstep⟩ := Option.bind_eq_some_iff.mp hstep
    split at hstep
    · obtain ⟨⟨now, m⟩, -, rfl⟩ := Option.map_eq_some_iff.mp hstep
      exact .inr (.inr ⟨l, r, src, now, rfl, hsrc, rfl⟩)
    · cases hstep
  | message i => exact .inl (hlocal hstep)
  | deliver i => exact .inl (hlocal hstep)
  | cancel i =>
    obtain ⟨s, -, hstep⟩ := Option.bind_eq_some_iff.mp hstep
    have hunlisten : ∀ id, (h.unlisten id).sources = h.sources := by
      intro id
      unfold Hub.unlisten
      split <;> rfl
    split at hstep
    · next id _ =>
      obtain rfl := Option.some.inj hstep
      refine .inl ?_
      dsimp only
      split
      · exact hunlisten id
      · rfl
    · cases hstep
      exact .inl rfl
    · cases hstep

/-- Only what suits was told in a run that tells only what suits. -/
theorem Hub.told_suits (hrun : Run (Hub.step F) (fun _ a => a.Suits Suits) .start h) :
    ∀ src ∈ h.sources, ∀ r ∈ src.told, Suits r := by
  refine hrun.invariant (I := fun h => ∀ src ∈ h.sources, ∀ r ∈ src.told, Suits r) ?_ ?_
  · intro src hsrc
    cases hsrc
  · intro h a h' ih ha hstep src hsrc r hr
    rcases Hub.step_sources hstep with hsame | ⟨x, port, hnew⟩ | ⟨l, q, old, now, rfl, hold, htold⟩
    · exact ih src (hsame ▸ hsrc) r hr
    · rw [hnew] at hsrc
      rcases List.mem_append.mp hsrc with hsrc | hsrc
      · exact ih src hsrc r hr
      · obtain rfl := List.mem_singleton.mp hsrc
        cases hr
    · rw [htold] at hsrc
      rcases List.mem_or_eq_of_mem_set hsrc with hsrc | rfl
      · exact ih src hsrc r hr
      · rcases List.mem_append.mp hr with hr | hr
        · exact ih old (List.mem_of_getElem? hold) r hr
        · obtain rfl := List.mem_singleton.mp hr
          exact ha

/-- In every run each stream tells what its own listener was told. -/
theorem Hub.streams_told (hF : F.Conveys Suits Sound shows)
    (hrun : Run (Hub.step F) (fun _ a => a.Suits Suits) .start h) (hi : h.streams[i]? = some s) :
    h.Tells F shows s :=
  (Hub.Inv.run hrun).tells hF (Hub.told_suits hrun) hi

/-- Nothing comes to a stream after it is cancelled. -/
theorem Hub.step_stays {a : FeedAction Call Env Report Port} (hi : h.streams[i]? = some s)
    (hphase : s.phase = .cancelled) (hstep : h.step F a = some h') : h'.streams[i]? = some s := by
  have hset : ∀ {j : Nat} {t u : Subscription Call Message Item Refusal Port},
      h.streams[j]? = some u → u.phase ≠ .cancelled → (h.streams.set j t)[i]? = some s := by
    intro j t u hu hne
    rw [List.getElem?_set_ne]
    · exact hi
    · rintro rfl
      obtain rfl := Option.some.inj (hi.symm.trans hu)
      exact hne hphase
  have hlocal : ∀ {j f}, h.at' j f = some h' → (∀ t, t.phase = .cancelled → f t = none) →
      h'.streams[i]? = some s := by
    intro j f hat hnone
    obtain ⟨t', ht', rfl⟩ := Option.map_eq_some_iff.mp hat
    obtain ⟨t, ht, hft⟩ := Option.bind_eq_some_iff.mp ht'
    refine hset ht ?_
    intro hcancelled
    cases (hnone t hcancelled).symm.trans hft
  cases a with
  | ask call =>
    obtain rfl := Option.some.inj hstep
    show (h.streams ++ [_])[i]? = some s
    rw [List.getElem?_append_left (List.getElem?_eq_some_iff.mp hi).1]
    exact hi
  | listen j env port =>
    obtain ⟨t, ht, hstep⟩ := Option.bind_eq_some_iff.mp hstep
    split at hstep
    · next hidle =>
      have hne : t.phase ≠ .cancelled := by simp [hidle]
      split at hstep
      · cases hstep
      · split at hstep
        · cases hstep
        · cases hstep
          exact hset ht hne
        · obtain ⟨⟨after, id⟩, -, rfl⟩ := Option.map_eq_some_iff.mp hstep
          exact hset ht hne
    · cases hstep
  | report l r =>
    obtain ⟨src, -, hstep⟩ := Option.bind_eq_some_iff.mp hstep
    split at hstep
    · obtain ⟨⟨now, m⟩, -, rfl⟩ := Option.map_eq_some_iff.mp hstep
      show (h.streams.map _)[i]? = some s
      rw [List.getElem?_map, hi, Option.map_some, if_neg (by simp [hphase, FeedPhase.port])]
    · cases hstep
  | message j => exact hlocal hstep fun t ht => by simp [Subscription.message, ht]
  | deliver j => exact hlocal hstep fun t ht => by simp [Subscription.deliver, ht]
  | cancel j =>
    obtain ⟨t, ht, hstep⟩ := Option.bind_eq_some_iff.mp hstep
    split at hstep
    · next hlive =>
      cases hstep
      exact hset ht (by simp [hlive])
    · next hended =>
      cases hstep
      exact hset ht (by simp [hended])
    · cases hstep

/-- In every run what is registered is what the live streams have, and a stream that
is cancelled stays as it is. -/
theorem Hub.streams_released (hrun : Run (Hub.step F) (fun _ _ => True) .start h) :
    h.Released ∧ ∀ (i : Nat) s h', h.streams[i]? = some s → s.phase = .cancelled →
      Run (Hub.step F) (fun _ _ => True) h h' → h'.streams[i]? = some s := by
  refine ⟨(Hub.Inv.run hrun).released, ?_⟩
  intro i s h' hi hphase hrun'
  exact hrun'.invariant (I := fun h' => h'.streams[i]? = some s) hi
    fun _ _ _ hi _ hstep => Hub.step_stays hi hphase hstep

end Told

end Machine
