import FirebaseFfi.Machine.Feed

namespace Machine
open Assoc

/-- The ids of a table come from its counter, and what is registered is what the
table holds, each once. -/
structure Registry (next : Int64) (table : List (Int64 × Nat)) (made : Nat) (registered : List Nat) :
    Prop where
  positive : 0 < next
  ids : ∀ e ∈ table, 0 < e.1 ∧ e.1 < next
  keys : (table.map Prod.fst).Nodup
  values : (table.map Prod.snd).Nodup
  bound : ∀ e ∈ table, e.2 < made
  registered : registered = table.map Prod.snd

section Registry

variable {next : Int64} {table : List (Int64 × Nat)} {made : Nat} {registered : List Nat}

theorem Registry.start : Registry 1 [] 0 [] :=
  ⟨by decide, by simp, List.nodup_nil, List.nodup_nil, by simp, rfl⟩

/-- The id is new. -/
theorem Registry.emplaced (h : Registry next table made registered) (l : Nat) :
    emplace table next l = table ++ [(next, l)] := by
  rw [emplace, if_neg]
  intro hsome
  obtain ⟨l', hl'⟩ := Option.isSome_iff_exists.mp hsome
  exact absurd (h.ids _ ((lookup_mem h.keys).mp hl')).2 Int64.lt_irrefl

theorem Registry.add (h : Registry next table made registered) (hmax : next ≠ Int64.maxValue) :
    Registry (next + 1) (emplace table next made) (made + 1) (registered ++ [made]) := by
  rw [h.emplaced]
  refine ⟨Int64.lt_trans h.positive (lt_succ hmax), ?_, ?_, ?_, ?_, ?_⟩
  · intro e he
    rcases List.mem_append.mp he with he | he
    · exact ⟨(h.ids e he).1, Int64.lt_trans (h.ids e he).2 (lt_succ hmax)⟩
    · obtain rfl := List.mem_singleton.mp he
      exact ⟨h.positive, lt_succ hmax⟩
  · rw [List.map_append, List.nodup_append]
    refine ⟨h.keys, by simp, ?_⟩
    intro a ha b hb hab
    obtain ⟨e, he, rfl⟩ := List.mem_map.mp ha
    obtain rfl := List.mem_singleton.mp hb
    exact absurd (h.ids e he).2 (hab ▸ Int64.lt_irrefl)
  · rw [List.map_append, List.nodup_append]
    refine ⟨h.values, by simp, ?_⟩
    intro a ha b hb hab
    obtain ⟨e, he, rfl⟩ := List.mem_map.mp ha
    obtain rfl := List.mem_singleton.mp hb
    exact absurd (h.bound e he) (hab ▸ Nat.lt_irrefl _)
  · intro e he
    rcases List.mem_append.mp he with he | he
    · exact Nat.lt_succ_of_lt (h.bound e he)
    · obtain rfl := List.mem_singleton.mp he
      exact Nat.lt_succ_self _
  · rw [h.registered, List.map_append]
    rfl

theorem Registry.erased (hk : (table.map Prod.fst).Nodup) (hv : (table.map Prod.snd).Nodup)
    {id : Int64} {l : Nat} (hl : (id, l) ∈ table) :
    (table.map Prod.snd).erase l = (erase table id).map Prod.snd := by
  induction table with
  | nil => cases hl
  | cons e table ih =>
    obtain ⟨j, k⟩ := e
    obtain ⟨hj, hk⟩ := List.nodup_cons.mp hk
    obtain ⟨hkv, hv⟩ := List.nodup_cons.mp hv
    rcases List.mem_cons.mp hl with heq | hl
    · cases heq
      have hrest : erase table id = table := by
        refine List.filter_eq_self.mpr ?_
        intro e he
        have hne : e.1 ≠ id := by
          intro heq
          apply hj
          rw [← heq]
          exact List.mem_map.mpr ⟨e, he, rfl⟩
        simpa using hne
      have herase : erase ((id, l) :: table) id = table := by
        rw [erase, List.filter_cons_of_neg (by simp)]
        exact hrest
      rw [herase, List.map_cons, List.erase_cons_head]
    · have hne : j ≠ id := by
        rintro rfl
        exact hj (List.mem_map.mpr ⟨_, hl, rfl⟩)
      have hkl : k ≠ l := by
        rintro rfl
        exact hkv (List.mem_map.mpr ⟨_, hl, rfl⟩)
      have herase : erase ((j, k) :: table) id = (j, k) :: erase table id := by
        rw [erase, List.filter_cons_of_pos (by simpa using hne)]
        rfl
      rw [herase, List.map_cons, List.map_cons, List.erase_cons_tail (by simpa using hkl),
        ih hk hv hl]

theorem Registry.remove (h : Registry next table made registered) {id : Int64} {l : Nat}
    (hl : (id, l) ∈ table) : Registry next (erase table id) made (registered.erase l) := by
  have hsub : (erase table id).Sublist table := List.filter_sublist
  refine ⟨h.positive, ?_, h.keys.sublist (hsub.map _), h.values.sublist (hsub.map _), ?_, ?_⟩
  · intro e he
    exact h.ids e (hsub.mem he)
  · intro e he
    exact h.bound e (hsub.mem he)
  · rw [h.registered, Registry.erased h.keys h.values hl]

end Registry

section Invariant

variable {Call Env Listener Report Message Item Refusal Port : Type}

/-- A listener that is told one thing after another, and all that it sends. -/
def Feed.tellAll (F : Feed Call Env Listener Report Message Item Refusal) :
    Listener → List Report → Option (Listener × List Message)
  | x, [] => some (x, [])
  | x, r :: rs =>
    (F.tell x r).bind fun (y, m) => (F.tellAll y rs).map fun (z, ms) => (z, m :: ms)

/-- The listener is one that the call makes. -/
def Feed.Makes (F : Feed Call Env Listener Report Message Item Refusal) (call : Call)
    (x : Listener) : Prop := ∃ env, F.listen call env = some (.ok x)

variable (F : Feed Call Env Listener Report Message Item Refusal)
  (sources : List (Source Listener Report Port)) (table : List (Int64 × Nat))

structure Subscription.Inv (s : Subscription Call Message Item Refusal Port) : Prop where
  fed : ∀ l, s.source = some l → ∃ src, sources[l]? = some src ∧ F.Makes s.call src.made ∧
    F.tellAll src.made src.told = some (src.now, s.inbox.sent)
  unfed : s.source = none → s.inbox.sent = []
  added : s.out.sent = s.inbox.received.filterMap (F.handle s.call) ++
    (s.refusal.map (F.refused s.call)).toList
  live : ∀ port id, s.phase = .live port id → ∃ l src, s.source = some l ∧ (id, l) ∈ table ∧
    sources[l]? = some src ∧ src.port = port
  started : s.source ≠ none →
    ((∃ port id, s.phase = .live port id) ∨ s.phase = .cancelled) ∧ s.refusal = none
  refused : ∀ r, s.refusal = some r → (s.phase = .ended ∨ s.phase = .cancelled) ∧
    ∃ env, F.listen s.call env = some (.error r)

structure Hub.Inv (h : Hub Call Listener Report Message Item Refusal Port) : Prop where
  registry : Registry h.next h.table h.sources.length h.registered
  streams : ∀ {i : Nat} {s}, h.streams[i]? = some s → s.Inv F h.sources h.table
  apart : ∀ {i j : Nat} {s t l}, h.streams[i]? = some s → h.streams[j]? = some t →
    s.source = some l → t.source = some l → i = j
  owned : ∀ l ∈ h.registered, ∃ (i : Nat) (s : Subscription Call Message Item Refusal Port),
    h.streams[i]? = some s ∧ s.source = some l ∧ ∃ port id, s.phase = .live port id
  ports : ∀ {i j : Nat} {s t port}, h.streams[i]? = some s → h.streams[j]? = some t →
    s.phase.port = some port → t.phase.port = some port → i = j

end Invariant

section Subscriptions

variable {Call Env Listener Report Message Item Refusal Port : Type}
  {F : Feed Call Env Listener Report Message Item Refusal}
  {sources sources' : List (Source Listener Report Port)} {table table' : List (Int64 × Nat)}
  {s s' : Subscription Call Message Item Refusal Port}

theorem Feed.tellAll_snoc {x y z : Listener} {rs : List Report} {r : Report} {ms : List Message}
    {m : Message} (h : F.tellAll x rs = some (y, ms)) (hr : F.tell y r = some (z, m)) :
    F.tellAll x (rs ++ [r]) = some (z, ms ++ [m]) := by
  induction rs generalizing x ms with
  | nil =>
    cases h
    rw [List.nil_append, tellAll, hr]
    rfl
  | cons q rs ih =>
    obtain ⟨⟨w, n⟩, hw, hrest⟩ := Option.bind_eq_some_iff.mp h
    obtain ⟨⟨v, ns⟩, hv, heq⟩ := Option.map_eq_some_iff.mp hrest
    cases heq
    rw [List.cons_append, tellAll, hw, Option.bind_some]
    show (F.tellAll w (rs ++ [r])).map _ = _
    rw [ih hv]
    rfl

/-- Nothing is said of the listeners but of the stream's own. -/
theorem Subscription.Inv.frame (h : s.Inv F sources table)
    (hsources : ∀ l, s.source = some l → sources'[l]? = sources[l]?)
    (htable : ∀ l port id, s.source = some l → s.phase = .live port id → (id, l) ∈ table →
      (id, l) ∈ table') : s.Inv F sources' table' := by
  refine ⟨?_, h.unfed, h.added, ?_, h.started, h.refused⟩
  · intro l hl
    rw [hsources l hl]
    exact h.fed l hl
  · intro port id hphase
    obtain ⟨l, src, hl, hid, hsrc, hport⟩ := h.live port id hphase
    exact ⟨l, src, hl, htable l port id hl hphase hid, (hsources l hl).trans hsrc, hport⟩

theorem Subscription.Inv.new (call : Call) :
    (Subscription.new call : Subscription Call Message Item Refusal Port).Inv F sources table := by
  refine ⟨?_, fun _ => rfl, rfl, ?_, ?_, ?_⟩
  · intro l hl
    cases hl
  · intro port id hphase
    cases hphase
  · intro hne
    exact absurd rfl hne
  · intro r hr
    cases hr

/-- A stream that is not listened to has nothing. -/
theorem Subscription.Inv.idle (h : s.Inv F sources table) (hphase : s.phase = .idle) :
    s.source = none ∧ s.refusal = none ∧ s.inbox.sent = [] ∧ s.inbox.received = [] ∧
      s.out.sent = [] := by
  have hsource : s.source = none := by
    by_contra hne
    rcases (h.started hne).1 with ⟨port, id, hlive⟩ | hcancelled
    · cases hphase.symm.trans hlive
    · cases hphase.symm.trans hcancelled
  have hrefusal : s.refusal = none := by
    cases hr : s.refusal with
    | none => rfl
    | some r =>
      rcases (h.refused r hr).1 with hended | hcancelled
      · cases hphase.symm.trans hended
      · cases hphase.symm.trans hcancelled
  have hsent := h.unfed hsource
  have hflow := s.inbox.flow
  rw [hsent] at hflow
  have hreceived := (List.append_eq_nil_iff.mp hflow.symm).1
  refine ⟨hsource, hrefusal, hsent, hreceived, ?_⟩
  rw [h.added, hreceived, hrefusal]
  rfl

theorem Subscription.Inv.message (h : s.Inv F sources table) (hm : s.message F = some s') :
    s'.Inv F sources table ∧ s'.source = s.source ∧ s'.phase = s.phase := by
  unfold Subscription.message at hm
  split at hm
  · next port id hphase =>
    obtain ⟨⟨m, inbox⟩, hreceive, hs'⟩ := Option.map_eq_some_iff.mp hm
    obtain ⟨hsent, hreceived, -⟩ := Channel.receive_cases hreceive
    obtain ⟨l, -, hl, -⟩ := h.live port id hphase
    have hnone : s.refusal = none := (h.started (by rw [hl]; exact Option.some_ne_none l)).2
    have hadded := h.added
    rw [hnone, Option.map_none, Option.toList_none, List.append_nil] at hadded
    have hfed : ∀ l, s.source = some l → ∃ src, sources[l]? = some src ∧
        F.Makes s.call src.made ∧ F.tellAll src.made src.told = some (src.now, inbox.sent) := by
      intro l hl
      rw [hsent]
      exact h.fed l hl
    cases hitem : F.handle s.call m with
    | some item =>
      simp only [hitem] at hs'
      subst hs'
      refine ⟨⟨hfed, fun hsource => hsent.trans (h.unfed hsource), ?_, h.live, h.started,
        h.refused⟩, rfl, rfl⟩
      simp [hnone, hreceived, hadded, hitem]
    | none =>
      simp only [hitem] at hs'
      subst hs'
      refine ⟨⟨hfed, fun hsource => hsent.trans (h.unfed hsource), ?_, h.live, h.started,
        h.refused⟩, rfl, rfl⟩
      simp [hnone, hreceived, hadded, hitem]
  · cases hm

theorem Subscription.Inv.deliver (h : s.Inv F sources table) (hd : s.deliver = some s') :
    s'.Inv F sources table ∧ s'.source = s.source ∧ s'.phase = s.phase := by
  have hout : ∀ out : Channel Item, out.sent = s.out.sent →
      ({ s with out := out } : Subscription Call Message Item Refusal Port).Inv F sources table := by
    intro out hsent
    exact ⟨h.fed, h.unfed, hsent.trans h.added, h.live, h.started, h.refused⟩
  unfold Subscription.deliver at hd
  split at hd
  · obtain ⟨⟨item, out⟩, hreceive, rfl⟩ := Option.map_eq_some_iff.mp hd
    exact ⟨hout out (Channel.receive_cases hreceive).1, rfl, rfl⟩
  · obtain ⟨⟨item, out⟩, hreceive, rfl⟩ := Option.map_eq_some_iff.mp hd
    exact ⟨hout out (Channel.receive_cases hreceive).1, rfl, rfl⟩
  · cases hd

/-- A stream that is cancelled keeps what it has. -/
theorem Subscription.Inv.cancel (h : s.Inv F sources table) :
    ({ s with phase := .cancelled } : Subscription Call Message Item Refusal Port).Inv F sources
      table := by
  refine ⟨h.fed, h.unfed, h.added, ?_, fun hne => ⟨.inr rfl, (h.started hne).2⟩,
    fun r hr => ⟨.inr rfl, (h.refused r hr).2⟩⟩
  intro port id hlive
  cases hlive

end Subscriptions

section Hubs

variable {Call Env Listener Report Message Item Refusal Port : Type}
  {F : Feed Call Env Listener Report Message Item Refusal}
  {h h' : Hub Call Listener Report Message Item Refusal Port} {i : Nat}
  {s s' : Subscription Call Message Item Refusal Port}

theorem Hub.Inv.start : (Hub.start : Hub Call Listener Report Message Item Refusal Port).Inv F := by
  refine ⟨.start, ?_, ?_, ?_, ?_⟩
  · intro i s hs
    cases hs
  · intro i j s t l hs
    cases hs
  · intro l hl
    cases hl
  · intro i j s t port hs
    cases hs

theorem set_cases {j : Nat} {t : Subscription Call Message Item Refusal Port}
    (hj : (h.streams.set i s')[j]? = some t) :
    (j = i ∧ t = s') ∨ (j ≠ i ∧ h.streams[j]? = some t) := by
  rw [List.getElem?_set] at hj
  split at hj
  · next hij =>
    split at hj
    · exact .inl ⟨hij.symm, (Option.some.inj hj).symm⟩
    · cases hj
  · next hij => exact .inr ⟨Ne.symm hij, hj⟩

/-- A stream is replaced, with the table and the listeners there are then. -/
theorem Hub.Inv.replace (hinv : h.Inv F) (hi : h.streams[i]? = some s) {next : Int64}
    {table : List (Int64 × Nat)} {sources : List (Source Listener Report Port)}
    {registered : List Nat} (hregistry : Registry next table sources.length registered)
    (hs : s'.Inv F sources table)
    (hothers : ∀ {j : Nat} {t}, j ≠ i → h.streams[j]? = some t → t.Inv F sources table)
    (hapart : ∀ {j : Nat} {t l}, j ≠ i → h.streams[j]? = some t → s'.source = some l →
      t.source ≠ some l)
    (howned : ∀ l ∈ registered, (s'.source = some l ∧ ∃ port id, s'.phase = .live port id) ∨
      ∃ (j : Nat) (t : Subscription Call Message Item Refusal Port), j ≠ i ∧
        h.streams[j]? = some t ∧ t.source = some l ∧ ∃ port id, t.phase = .live port id)
    (hports : ∀ {j : Nat} {t port}, j ≠ i → h.streams[j]? = some t →
      s'.phase.port = some port → t.phase.port ≠ some port) :
    (⟨next, table, sources, registered, h.streams.set i s'⟩ :
      Hub Call Listener Report Message Item Refusal Port).Inv F := by
  have hlt : i < h.streams.length := (List.getElem?_eq_some_iff.mp hi).1
  refine ⟨hregistry, ?_, ?_, ?_, ?_⟩
  · intro j t ht
    rcases set_cases ht with ⟨-, rfl⟩ | ⟨hj, ht⟩
    · exact hs
    · exact hothers hj ht
  · intro j k t u l ht hu htl hul
    rcases set_cases ht with ⟨rfl, rfl⟩ | ⟨hj, htj⟩
    · rcases set_cases hu with ⟨rfl, rfl⟩ | ⟨hk, huk⟩
      · rfl
      · exact absurd hul (hapart hk huk htl)
    · rcases set_cases hu with ⟨rfl, rfl⟩ | ⟨hk, huk⟩
      · exact absurd htl (hapart hj htj hul)
      · exact hinv.apart htj huk htl hul
  · intro l hl
    rcases howned l hl with hown | ⟨j, t, hj, ht, hown⟩
    · exact ⟨i, s', by simp [hlt], hown⟩
    · refine ⟨j, t, ?_, hown⟩
      show (h.streams.set i s')[j]? = some t
      rw [List.getElem?_set_ne (Ne.symm hj)]
      exact ht
  · intro j k t u port ht hu htp hup
    rcases set_cases ht with ⟨rfl, rfl⟩ | ⟨hj, htj⟩
    · rcases set_cases hu with ⟨rfl, rfl⟩ | ⟨hk, huk⟩
      · rfl
      · exact absurd hup (hports hk huk htp)
    · rcases set_cases hu with ⟨rfl, rfl⟩ | ⟨hk, huk⟩
      · exact absurd htp (hports hj htj hup)
      · exact hinv.ports htj huk htp hup

/-- A stream goes on with the same listener. -/
theorem Hub.Inv.set (hinv : h.Inv F) (hi : h.streams[i]? = some s)
    (hs : s'.Inv F h.sources h.table) (hsource : s'.source = s.source)
    (hphase : s'.phase = s.phase) :
    ({ h with streams := h.streams.set i s' } :
      Hub Call Listener Report Message Item Refusal Port).Inv F := by
  refine hinv.replace hi hinv.registry hs (fun _ ht => hinv.streams ht) ?_ ?_ ?_
  · intro j t l hj ht hl htl
    rw [hsource] at hl
    exact hj (hinv.apart ht hi htl hl)
  · intro l hl
    obtain ⟨j, t, ht, htl, hlive⟩ := hinv.owned l hl
    by_cases hj : j = i
    · subst hj
      obtain rfl := Option.some.inj (ht.symm.trans hi)
      rw [hsource, hphase]
      exact .inl ⟨htl, hlive⟩
    · exact .inr ⟨j, t, hj, ht, htl, hlive⟩
  · intro j t port hj ht hp htp
    rw [hphase] at hp
    exact hj (hinv.ports ht hi htp hp)

theorem append_cases {j : Nat} {t : Subscription Call Message Item Refusal Port}
    (hj : (h.streams ++ [s'])[j]? = some t) :
    h.streams[j]? = some t ∨ (j = h.streams.length ∧ t = s') := by
  rw [List.getElem?_append] at hj
  split at hj
  · exact .inl hj
  · next hlt =>
    have hzero : j - h.streams.length = 0 := by
      by_contra hne
      rw [List.getElem?_eq_none (by simp; omega)] at hj
      cases hj
    rw [hzero] at hj
    exact .inr ⟨by omega, (Option.some.inj hj).symm⟩

theorem Hub.Inv.ask (hinv : h.Inv F) (call : Call) : (h.ask call).Inv F := by
  have hnew : (Subscription.new call : Subscription Call Message Item Refusal Port).source = none ∧
      (Subscription.new call : Subscription Call Message Item Refusal Port).phase.port = none :=
    ⟨rfl, rfl⟩
  refine ⟨hinv.registry, ?_, ?_, ?_, ?_⟩
  · intro i s hs
    rcases append_cases hs with hs | ⟨-, rfl⟩
    · exact hinv.streams hs
    · exact .new call
  · intro i j s t l hs ht hsl htl
    rcases append_cases hs with hs | ⟨rfl, rfl⟩
    · rcases append_cases ht with ht | ⟨rfl, rfl⟩
      · exact hinv.apart hs ht hsl htl
      · cases hnew.1.symm.trans htl
    · cases hnew.1.symm.trans hsl
  · intro l hl
    obtain ⟨i, s, hs, hown⟩ := hinv.owned l hl
    refine ⟨i, s, ?_, hown⟩
    show (h.streams ++ [_])[i]? = some s
    rw [List.getElem?_append_left (List.getElem?_eq_some_iff.mp hs).1]
    exact hs
  · intro i j s t port hs ht hsp htp
    rcases append_cases hs with hs | ⟨rfl, rfl⟩
    · rcases append_cases ht with ht | ⟨rfl, rfl⟩
      · exact hinv.ports hs ht hsp htp
      · cases hnew.2.symm.trans htp
    · cases hnew.2.symm.trans hsp

/-- A stream that is refused is told so, and has no listener. -/
theorem Hub.Inv.refuse (hinv : h.Inv F) (hi : h.streams[i]? = some s) (hphase : s.phase = .idle)
    {env : Env} {r : Refusal} (hr : F.listen s.call env = some (.error r)) :
    (⟨h.next, h.table, h.sources, h.registered, h.streams.set i
        { s with phase := .ended, out := s.out.send (F.refused s.call r), refusal := some r }⟩ :
      Hub Call Listener Report Message Item Refusal Port).Inv F := by
  obtain ⟨hsource, -, hsent, hreceived, hout⟩ := (hinv.streams hi).idle hphase
  refine hinv.replace hi hinv.registry ?_ (fun _ ht => hinv.streams ht) ?_ ?_ ?_
  · refine ⟨?_, fun _ => hsent, ?_, ?_, fun hne => absurd hsource hne, ?_⟩
    · intro l hl
      cases hsource.symm.trans hl
    · simp [hout, hreceived]
    · intro port id hlive
      cases hlive
    · intro r' hr'
      obtain rfl := Option.some.inj hr'
      exact ⟨.inl rfl, env, hr⟩
  · intro j t l _ _ hl
    cases hsource.symm.trans hl
  · intro l hl
    obtain ⟨j, t, ht, htl, hlive⟩ := hinv.owned l hl
    refine .inr ⟨j, t, ?_, ht, htl, hlive⟩
    rintro rfl
    obtain rfl := Option.some.inj (ht.symm.trans hi)
    cases hsource.symm.trans htl
  · intro j t port _ _ hp
    cases hp

/-- The listener of a stream is new, and has its port. -/
theorem Hub.Inv.begin (hinv : h.Inv F) (hi : h.streams[i]? = some s) (hphase : s.phase = .idle)
    {env : Env} {port : Port} (hport : port ∉ h.ports) {x : Listener}
    (hx : F.listen s.call env = some (.ok x)) (hmax : h.next ≠ Int64.maxValue) :
    (⟨h.next + 1, emplace h.table h.next h.sources.length, h.sources ++ [⟨x, x, port, []⟩],
        h.registered ++ [h.sources.length], h.streams.set i
          { s with phase := .live port h.next, source := some h.sources.length }⟩ :
      Hub Call Listener Report Message Item Refusal Port).Inv F := by
  obtain ⟨-, hrefusal, hsent, hreceived, hout⟩ := (hinv.streams hi).idle hphase
  have htable := hinv.registry.emplaced h.sources.length
  have hregistry := hinv.registry.add hmax
  have hlength : (h.sources ++ [(⟨x, x, port, []⟩ : Source Listener Report Port)]).length =
      h.sources.length + 1 := by simp
  have hnew : (h.sources ++ [(⟨x, x, port, []⟩ : Source Listener Report Port)])[h.sources.length]? =
      some ⟨x, x, port, []⟩ := by simp
  have hplace : ∀ {j : Nat} {t : Subscription Call Message Item Refusal Port} {l : Nat},
      h.streams[j]? = some t → t.source = some l → l < h.sources.length := by
    intro j t l ht hl
    obtain ⟨src, hsrc, -⟩ := (hinv.streams ht).fed l hl
    exact (List.getElem?_eq_some_iff.mp hsrc).1
  refine hinv.replace hi (hlength ▸ hregistry) ?_ ?_ ?_ ?_ ?_
  · refine ⟨?_, fun hne => (by cases hne), ?_, ?_, fun _ => ⟨.inl ⟨port, h.next, rfl⟩, hrefusal⟩, ?_⟩
    · intro l hl
      obtain rfl := Option.some.inj hl
      refine ⟨_, hnew, ⟨env, hx⟩, ?_⟩
      rw [hsent]
      rfl
    · simp [hout, hreceived, hrefusal]
    · intro port' id hlive
      cases hlive
      refine ⟨_, _, rfl, ?_, hnew, rfl⟩
      rw [htable]
      exact List.mem_append_right _ (List.mem_singleton.mpr rfl)
    · intro r hr
      cases hrefusal.symm.trans hr
  · intro j t _ ht
    refine (hinv.streams ht).frame ?_ ?_
    · intro l hl
      exact List.getElem?_append_left (hplace ht hl)
    · intro l port' id _ _ hid
      rw [htable]
      exact List.mem_append_left _ hid
  · intro j t l _ ht hl htl
    obtain rfl := Option.some.inj hl
    exact absurd (hplace ht htl) (Nat.lt_irrefl _)
  · intro l hl
    rcases List.mem_append.mp hl with hl | hl
    · obtain ⟨j, t, ht, htl, hlive⟩ := hinv.owned l hl
      refine .inr ⟨j, t, ?_, ht, htl, hlive⟩
      rintro rfl
      obtain rfl := Option.some.inj (ht.symm.trans hi)
      obtain ⟨port', id, hlive⟩ := hlive
      cases hphase.symm.trans hlive
    · obtain rfl := List.mem_singleton.mp hl
      exact .inl ⟨rfl, port, h.next, rfl⟩
  · intro j t port' _ ht hp htp
    obtain rfl := Option.some.inj hp
    exact hport (List.mem_filterMap.mpr ⟨t, List.mem_of_getElem? ht, htp⟩)

variable [DecidableEq Port]

theorem Hub.Inv.listen (hinv : h.Inv F) {env : Env} {port : Port}
    (hstep : h.listen F i env port = some h') : h'.Inv F := by
  obtain ⟨s, hi, hstep⟩ := Option.bind_eq_some_iff.mp hstep
  split at hstep
  · next hphase =>
    split at hstep
    · cases hstep
    · next hport =>
      split at hstep
      · cases hstep
      · next r hr =>
        obtain rfl := Option.some.inj hstep
        exact hinv.refuse hi hphase hr
      · next x hx =>
        obtain ⟨⟨after, id⟩, hadd, rfl⟩ := Option.map_eq_some_iff.mp hstep
        unfold Hub.add at hadd
        split at hadd
        · cases hadd
        · next hmax =>
          cases hadd
          exact hinv.begin hi hphase hport hx hmax
  · cases hstep

/-- What a listener sends goes to the stream that it was made for, and to no other. -/
theorem Hub.Inv.report (hinv : h.Inv F) {l : Nat} {r : Report}
    (hstep : h.report F l r = some h') : h'.Inv F := by
  obtain ⟨src, hsrc, hstep⟩ := Option.bind_eq_some_iff.mp hstep
  split at hstep
  · next hregistered =>
    obtain ⟨⟨now, m⟩, htell, rfl⟩ := Option.map_eq_some_iff.mp hstep
    obtain ⟨i, s, hi, hsl, port, id, hlive⟩ := hinv.owned l hregistered
    have hlt : l < h.sources.length := (List.getElem?_eq_some_iff.mp hsrc).1
    have hport : port = src.port := by
      obtain ⟨k, src', hk, -, hsrc', hport⟩ := (hinv.streams hi).live port id hlive
      cases hk.symm.trans hsl
      cases hsrc'.symm.trans hsrc
      exact hport.symm
    -- the stream with the port is the one that the listener was made for
    have hports : ∀ {j : Nat} {t}, h.streams[j]? = some t → t.phase.port = some src.port → j = i := by
      intro j t ht htp
      refine hinv.ports ht hi htp ?_
      rw [hlive, hport]
      rfl
    have hget : ∀ {j : Nat} {t},
        (h.streams.map fun s => if s.phase.port = some src.port then
          { s with inbox := s.inbox.send m } else s)[j]? = some t →
        ∃ u, h.streams[j]? = some u ∧ t.source = u.source ∧ t.phase = u.phase ∧
          ((j = i ∧ t = { u with inbox := u.inbox.send m }) ∨ (j ≠ i ∧ t = u)) := by
      intro j t ht
      rw [List.getElem?_map] at ht
      obtain ⟨u, hu, rfl⟩ := Option.map_eq_some_iff.mp ht
      refine ⟨u, hu, ?_⟩
      by_cases hp : u.phase.port = some src.port
      · rw [if_pos hp]
        exact ⟨rfl, rfl, .inl ⟨hports hu hp, rfl⟩⟩
      · rw [if_neg hp]
        refine ⟨rfl, rfl, .inr ⟨?_, rfl⟩⟩
        rintro rfl
        obtain rfl := Option.some.inj (hi.symm.trans hu)
        rw [hlive, hport] at hp
        exact hp rfl
    refine ⟨?_, ?_, ?_, ?_, ?_⟩
    · show Registry h.next h.table (h.sources.set l _).length h.registered
      rw [List.length_set]
      exact hinv.registry
    · intro j t ht
      obtain ⟨u, hu, hsource, hphase, ⟨rfl, rfl⟩ | ⟨hj, rfl⟩⟩ := hget ht
      · obtain rfl := Option.some.inj (hi.symm.trans hu)
        have hs := hinv.streams hi
        refine ⟨?_, fun hne => (by cases hne.symm.trans hsl), hs.added, ?_, hs.started, hs.refused⟩
        · intro k hk
          obtain rfl := Option.some.inj (hsl.symm.trans hk)
          obtain ⟨src', hsrc', hmakes, htold⟩ := hs.fed l hsl
          cases hsrc'.symm.trans hsrc
          exact ⟨_, List.getElem?_set_self hlt, hmakes, Feed.tellAll_snoc htold htell⟩
        · intro port' id' hlive'
          obtain ⟨k, src', hk, hid, hsrc', hport'⟩ := hs.live port' id' hlive'
          obtain rfl := Option.some.inj (hsl.symm.trans hk)
          cases hsrc'.symm.trans hsrc
          exact ⟨l, _, hsl, hid, List.getElem?_set_self hlt, hport'⟩
      · refine (hinv.streams hu).frame ?_ fun _ _ _ _ _ hid => hid
        intro k hk
        have hne : l ≠ k := by
          rintro rfl
          exact hj (hinv.apart hu hi hk hsl)
        exact List.getElem?_set_ne hne
    · intro j k t u k' ht hu htl hul
      obtain ⟨t', ht', hts, -⟩ := hget ht
      obtain ⟨u', hu', hus, -⟩ := hget hu
      exact hinv.apart ht' hu' (hts ▸ htl) (hus ▸ hul)
    · intro k hk
      obtain ⟨j, t, ht, htk, hlive'⟩ := hinv.owned k hk
      refine ⟨j, _, (List.getElem?_map ..).trans (congrArg _ ht), ?_⟩
      dsimp only
      split
      · exact ⟨htk, hlive'⟩
      · exact ⟨htk, hlive'⟩
    · intro j k t u port' ht hu htp hup
      obtain ⟨t', ht', -, htph, -⟩ := hget ht
      obtain ⟨u', hu', -, huph, -⟩ := hget hu
      exact hinv.ports ht' hu' (htph ▸ htp) (huph ▸ hup)
  · cases hstep

omit [DecidableEq Port] in
theorem Hub.Inv.local (hinv : h.Inv F) {f : Subscription Call Message Item Refusal Port →
      Option (Subscription Call Message Item Refusal Port)}
    (hf : ∀ {s s'}, s.Inv F h.sources h.table → f s = some s' →
      s'.Inv F h.sources h.table ∧ s'.source = s.source ∧ s'.phase = s.phase)
    (hstep : h.at' i f = some h') : h'.Inv F := by
  obtain ⟨s', hs', rfl⟩ := Option.map_eq_some_iff.mp hstep
  obtain ⟨s, hi, hfs⟩ := Option.bind_eq_some_iff.mp hs'
  obtain ⟨hinvs, hsource, hphase⟩ := hf (hinv.streams hi) hfs
  exact hinv.set hi hinvs hsource hphase

omit [DecidableEq Port] in
/-- The id of a stream that is cancelled is that of its own listener. -/
theorem Hub.Inv.cancel (hinv : h.Inv F) (hstep : h.cancel i = some h') : h'.Inv F := by
  obtain ⟨s, hi, hstep⟩ := Option.bind_eq_some_iff.mp hstep
  have hs := hinv.streams hi
  split at hstep
  · next port id hphase =>
    obtain ⟨l, src, hsl, hid, -⟩ := hs.live port id hphase
    have hpos : 0 < id := (hinv.registry.ids _ hid).1
    have hlookup : h.table.lookup id = some l := (lookup_mem hinv.registry.keys).mpr hid
    rw [if_pos hpos, Hub.unlisten, hlookup] at hstep
    obtain rfl := Option.some.inj hstep
    have hnot : l ∉ h.registered.erase l := by
      refine List.Nodup.not_mem_erase ?_
      rw [hinv.registry.registered]
      exact hinv.registry.values
    refine hinv.replace hi (hinv.registry.remove hid) ?_ ?_ ?_ ?_ ?_
    · refine hs.cancel.frame (fun _ _ => rfl) ?_
      intro l' port' id' _ hlive
      cases hlive
    · intro j t hj ht
      refine (hinv.streams ht).frame (fun _ _ => rfl) ?_
      intro k port' id' hk _ hid'
      refine mem_erase.mpr ⟨hid', ?_⟩
      rintro rfl
      have hkl : k = l := by
        rw [(lookup_mem hinv.registry.keys).mpr hid'] at hlookup
        exact Option.some.inj hlookup
      exact hj (hinv.apart ht hi (hkl ▸ hk) hsl)
    · intro j t k hj ht hk htk
      exact hj (hinv.apart ht hi htk hk)
    · intro k hk
      obtain ⟨j, t, ht, htk, hlive⟩ := hinv.owned k (List.mem_of_mem_erase hk)
      refine .inr ⟨j, t, ?_, ht, htk, hlive⟩
      rintro rfl
      obtain rfl := Option.some.inj (ht.symm.trans hi)
      cases htk.symm.trans hsl
      exact hnot hk
    · intro j t port' _ _ hp
      cases hp
  · next hphase =>
    obtain rfl := Option.some.inj hstep
    refine hinv.replace hi hinv.registry hs.cancel (fun _ ht => hinv.streams ht) ?_ ?_ ?_
    · intro j t k hj ht hk htk
      exact hj (hinv.apart ht hi htk hk)
    · intro k hk
      obtain ⟨j, t, ht, htk, port, id, hlive⟩ := hinv.owned k hk
      refine .inr ⟨j, t, ?_, ht, htk, port, id, hlive⟩
      rintro rfl
      obtain rfl := Option.some.inj (ht.symm.trans hi)
      cases hphase.symm.trans hlive
    · intro j t port' _ _ hp
      cases hp
  · cases hstep

theorem Hub.Inv.step (hinv : h.Inv F) {a : FeedAction Call Env Report Port}
    (hstep : h.step F a = some h') : h'.Inv F := by
  cases a with
  | ask call =>
    obtain rfl := Option.some.inj hstep
    exact hinv.ask call
  | listen i env port => exact hinv.listen hstep
  | report l r => exact hinv.report hstep
  | message i => exact hinv.local (fun hs hm => hs.message hm) hstep
  | deliver i => exact hinv.local (fun hs hd => hs.deliver hd) hstep
  | cancel i => exact hinv.cancel hstep

theorem Hub.Inv.run {guard : Hub Call Listener Report Message Item Refusal Port →
      FeedAction Call Env Report Port → Prop}
    (hrun : Run (Hub.step F) guard .start h) : h.Inv F :=
  hrun.invariant .start fun _ _ _ hinv _ hstep => hinv.step hstep

end Hubs

end Machine
