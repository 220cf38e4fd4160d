import FirebaseFfi.Machine.Run

namespace AppCheck
open Machine

/-- A stream of appCheckTokenChanges: not listened to yet, listened to, with the
code that its add came to, or cancelled. -/
inductive TokenStream
  | fresh
  | listening (rc : Int64)
  | cancelled
  deriving DecidableEq

/-- g_app_check and g_listener, beside the listeners that the SDK has. A listener
is known by the place of the stream whose port it has. -/
structure Listeners where
  ready : Bool
  listener : Option Nat
  registered : List Nat
  streams : List TokenStream

def Listeners.start : Listeners := ⟨false, none, [], []⟩

def fdbAcAddListener (s : Listeners) (port : Nat) : Listeners × Int64 :=
  if !s.ready then (s, -1)
  else if s.listener.isSome then (s, -3)
  else ({ s with listener := some port, registered := s.registered ++ [port] }, 0)

def fdbAcRemoveListener (s : Listeners) : Listeners × Int64 :=
  match s.ready, s.listener with
  | true, some port =>
    ({ s with listener := none, registered := s.registered.erase port }, 0)
  | _, _ => (s, -1)

/-- `onListen` keeps what the call came to only as an error on the stream. -/
def onListen (s : Listeners) (i : Nat) : Listeners :=
  let r := fdbAcAddListener s i
  { r.1 with streams := r.1.streams.set i (.listening r.2) }

def onCancel (s : Listeners) (i : Nat) : Listeners :=
  let r := fdbAcRemoveListener s
  { r.1 with streams := r.1.streams.set i .cancelled }

/-- A stream is listened to once, and cancelled once. -/
inductive ListenerAction
  | init (created : Bool)
  | tokenChanges
  | listen (i : Nat)
  | cancel (i : Nat)

def listenerStep (s : Listeners) : ListenerAction → Option Listeners
  | .init created => some { s with ready := s.ready || created }
  | .tokenChanges => some { s with streams := s.streams ++ [.fresh] }
  | .listen i => if s.streams[i]? = some .fresh then some (onListen s i) else none
  | .cancel i =>
    match s.streams[i]? with
    | some (.listening _) => some (onCancel s i)
    | _ => none

/-- No stream whose add was refused is cancelled while a listener is installed. -/
def Rightful (s : Listeners) : ListenerAction → Prop
  | .cancel i => ∀ rc, s.streams[i]? = some (.listening rc) → rc ≠ 0 → s.listener = none
  | _ => True

/-- The listener is that of the stream whose add succeeded and that is still
listened to. Only cancelling this stream removes it. -/
structure Owned (s : Listeners) : Prop where
  installed : ∀ i : Nat, s.listener = some i ↔ s.streams[i]? = some (.listening 0)
  registered : s.registered = s.listener.toList
  kept : ∀ {a u i}, listenerStep s a = some u → Rightful s a → s.listener = some i →
    u.listener = some i ∨ a = .cancel i
  refused : ∀ {i : Nat} {u rc}, listenerStep s (.listen i) = some u →
    u.streams[i]? = some (.listening rc) → rc ≠ 0 → u.listener = s.listener

structure ListenerInv (s : Listeners) : Prop where
  ready : s.listener ≠ none → s.ready = true
  installed : ∀ i : Nat, s.listener = some i ↔ s.streams[i]? = some (.listening 0)
  registered : s.registered = s.listener.toList

variable {s u : Listeners} {i : Nat}

theorem ListenerInv.start : ListenerInv .start := by
  refine ⟨fun h => absurd rfl h, ?_, rfl⟩
  intro i
  exact iff_of_false (fun h => by cases h) fun h => by cases h

/-- An add succeeds when there is no listener, and else changes nothing. -/
theorem addListener_cases (s : Listeners) (i : Nat) :
    (s.ready = true ∧ s.listener = none ∧ fdbAcAddListener s i =
      ({ s with listener := some i, registered := s.registered ++ [i] }, 0)) ∨
    ∃ rc, rc ≠ 0 ∧ fdbAcAddListener s i = (s, rc) := by
  unfold fdbAcAddListener
  split
  · exact .inr ⟨-1, by decide, rfl⟩
  · next hready =>
    split
    · exact .inr ⟨-3, by decide, rfl⟩
    · next hnone => exact .inl ⟨by simpa using hready, by simpa using hnone, rfl⟩

theorem getElem_set (hi : i < s.streams.length) (t : TokenStream) (j : Nat) :
    (s.streams.set i t)[j]? = if i = j then some t else s.streams[j]? := by
  rw [List.getElem?_set]
  by_cases hj : i = j
  · rw [if_pos hj, if_pos hj, if_pos hi]
  · rw [if_neg hj, if_neg hj]

theorem ListenerInv.listen (hs : ListenerInv s) (hi : s.streams[i]? = some .fresh) :
    ListenerInv (onListen s i) := by
  have hlt := (List.getElem?_eq_some_iff.mp hi).1
  have hne : s.listener ≠ some i := by
    intro h
    have hadded := (hs.installed i).mp h
    rw [hi] at hadded
    cases hadded
  unfold onListen
  rcases addListener_cases s i with ⟨hready, hnone, hadd⟩ | ⟨rc, hrc, hadd⟩
  · rw [hadd]
    refine ⟨fun _ => hready, ?_, ?_⟩
    · intro j
      show some i = some j ↔ _
      rw [getElem_set hlt]
      split
      · next hij => exact iff_of_true (congrArg some hij) rfl
      · next hij =>
        rw [← hs.installed j, hnone]
        exact iff_of_false (fun h => hij (Option.some.inj h)) fun h => by cases h
    · show s.registered ++ [i] = [i]
      rw [hs.registered, hnone]
      rfl
  · rw [hadd]
    refine ⟨hs.ready, ?_, hs.registered⟩
    intro j
    show s.listener = some j ↔ _
    rw [getElem_set hlt]
    split
    · next hij =>
      subst hij
      exact iff_of_false hne fun h => hrc (TokenStream.listening.inj (Option.some.inj h))
    · exact hs.installed j

/-- Removing leaves no listener, whosever it was. -/
theorem removeListener_eq (hs : ListenerInv s) :
    (fdbAcRemoveListener s).1 = { s with listener := none, registered := [] } := by
  have hregistered := hs.registered
  have hready := hs.ready
  obtain ⟨ready, listener, registered, streams⟩ := s
  cases listener with
  | none =>
    obtain rfl : registered = [] := hregistered
    cases ready <;> rfl
  | some port =>
    obtain rfl : ready = true := hready (by simp)
    obtain rfl : registered = [port] := hregistered
    simp [fdbAcRemoveListener]

theorem ListenerInv.cancel (hs : ListenerInv s) {rc : Int64}
    (hi : s.streams[i]? = some (.listening rc)) (hrightful : Rightful s (.cancel i)) :
    ListenerInv (onCancel s i) ∧ ∀ j, s.listener = some j → j = i := by
  have hlt := (List.getElem?_eq_some_iff.mp hi).1
  have hown : ∀ j, s.listener = some j → j = i := by
    intro j hj
    by_cases hrc : rc = 0
    · rw [hrc] at hi
      have hlistener := (hs.installed i).mpr hi
      rw [hj] at hlistener
      exact Option.some.inj hlistener
    · rw [hrightful rc hi hrc] at hj
      cases hj
  refine ⟨?_, hown⟩
  simp only [onCancel, removeListener_eq hs]
  refine ⟨fun h => absurd rfl h, ?_, rfl⟩
  intro j
  show none = some j ↔ _
  rw [getElem_set hlt]
  refine iff_of_false (fun h => by cases h) ?_
  split
  · intro h
    cases h
  · next hij =>
    intro h
    exact hij (hown j ((hs.installed j).mpr h)).symm

theorem ListenerInv.step {a : ListenerAction} (hs : ListenerInv s) (ha : Rightful s a)
    (h : listenerStep s a = some u) : ListenerInv u := by
  cases a with
  | init created =>
    cases h
    exact ⟨fun h => by rw [hs.ready h, Bool.true_or], hs.installed, hs.registered⟩
  | tokenChanges =>
    cases h
    refine ⟨hs.ready, ?_, hs.registered⟩
    intro j
    rw [hs.installed j, List.getElem?_append]
    split
    · rfl
    · next hle =>
      rw [List.getElem?_eq_none (Nat.le_of_not_lt hle)]
      refine iff_of_false (fun h => by cases h) ?_
      intro h
      cases List.mem_singleton.mp (List.mem_of_getElem? h)
  | listen i =>
    simp only [listenerStep] at h
    split at h
    · next hi =>
      cases h
      exact hs.listen hi
    · cases h
  | cancel i =>
    simp only [listenerStep] at h
    split at h
    · next rc hi =>
      cases h
      exact (hs.cancel hi ha).1
    · cases h

/-- What an add comes to is kept with the stream, and one that was refused has
changed nothing. -/
theorem listen_refused {rc : Int64} (hi : s.streams[i]? = some .fresh)
    (h : (onListen s i).streams[i]? = some (.listening rc)) (hrc : rc ≠ 0) :
    (onListen s i).listener = s.listener := by
  have hlt := (List.getElem?_eq_some_iff.mp hi).1
  unfold onListen at h ⊢
  rcases addListener_cases s i with ⟨-, -, hadd⟩ | ⟨rc', -, hadd⟩
  · rw [hadd] at h
    dsimp only at h
    rw [getElem_set hlt, if_pos rfl] at h
    cases h
    exact absurd rfl hrc
  · rw [hadd]

theorem ListenerInv.owned (hs : ListenerInv s) : Owned s := by
  refine ⟨hs.installed, hs.registered, ?_, ?_⟩
  · intro a u i h ha hi
    cases a with
    | init created =>
      cases h
      exact .inl hi
    | tokenChanges =>
      cases h
      exact .inl hi
    | listen j =>
      simp only [listenerStep] at h
      split at h
      · cases h
        left
        unfold onListen
        rcases addListener_cases s j with ⟨-, hnone, -⟩ | ⟨rc, -, hadd⟩
        · rw [hnone] at hi
          cases hi
        · rw [hadd]
          exact hi
      · cases h
    | cancel j =>
      simp only [listenerStep] at h
      split at h
      · next rc hj => exact .inr (congrArg _ ((hs.cancel hj ha).2 i hi).symm)
      · cases h
  · intro i u rc h hu hrc
    simp only [listenerStep] at h
    split at h
    · next hi =>
      cases h
      exact listen_refused hi hu hrc
    · cases h

/-- As long as no refused stream is cancelled under the listener of another, the
listener is the one that was added and is still listened to. -/
theorem listener_owned (s : Listeners) (h : Run listenerStep Rightful .start s) : Owned s :=
  ListenerInv.owned (h.invariant .start fun _ _ _ ht ha hstep => ht.step ha hstep)

/-- Two streams, one after the other. -/
def inTurn : List ListenerAction :=
  [.init true, .tokenChanges, .tokenChanges, .listen 0, .cancel 0, .listen 1]

theorem inTurn_owned : ∃ s, exec listenerStep .start inTurn = some s ∧ s.listener = some 1 ∧
    Owned s := by
  have hexec : exec listenerStep .start inTurn = some _ := rfl
  refine ⟨_, hexec, rfl, listener_owned _ (Run.of_exec hexec ?_)⟩
  refine .next trivial rfl (.next trivial rfl (.next trivial rfl (.next trivial rfl ?_)))
  refine .next ?_ rfl (.next trivial rfl trivial)
  intro rc hi hrc
  cases hi
  exact absurd rfl hrc

/-- A second stream is refused, and cancelled. -/
def refusedCancelled : List ListenerAction :=
  [.init true, .tokenChanges, .tokenChanges, .listen 0, .listen 1, .cancel 1]

/-- The first has lost its listener. -/
theorem refusedCancelled_unowned : ∃ s, Run listenerStep (fun _ _ => True) .start s ∧
    s.streams[0]? = some (.listening 0) ∧ ¬ Owned s := by
  have hexec : exec listenerStep .start refusedCancelled = some _ := rfl
  refine ⟨_, Run.of_exec hexec (.unguarded _), rfl, ?_⟩
  intro h
  have hlistener := (h.installed 0).mpr rfl
  cases hlistener

end AppCheck
