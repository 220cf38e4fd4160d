import FirebaseFfi.App.Init

namespace Auth
open Cbor Machine
open App (Outcome)

/-- A FirebaseAuthFfi, with the uid of its `_currentUser`. -/
structure Delegate where
  ready : Bool
  cached : Option Bytes

/-- A sign-in: at the SDK, answered with a uid or an error, or over. -/
inductive SignIn
  | running
  | posted (uid : Option Bytes)
  | done
  deriving DecidableEq

/-- Whether there is a g_auth, the uid of its valid user, the delegates, and the
sign-ins with the delegate that each was called on. -/
structure State where
  initialized : Bool
  user : Option Bytes
  delegates : List Delegate
  signIns : List (Nat × SignIn)

def State.start : State := ⟨false, none, [], []⟩

section Native

variable (s : State)

/-- `out` has the uid up to the returned length. -/
def fdbAuthCurrentUid (cap : Nat) : Int × Bytes :=
  if !s.initialized then (-1, [])
  else
    let uid := s.user.getD []
    if cap < uid.length + 1 then (-1, []) else (uid.length, uid)

def currentUid : Option Bytes :=
  let r := fdbAuthCurrentUid s 256
  if r.1 ≤ 0 then none else some r.2

/-- `initAuth`, and whether it returns. A g_auth that came with a failure stays. -/
def initAuth (o : Outcome) : State × Bool :=
  if s.initialized then (s, true) else ({ s with initialized := o.got }, o.got && o.success)

def fdbAuthSignOut : State := if s.initialized then { s with user := none } else s

end Native

section Delegates

variable (s : State) (i : Nat) (d : Delegate)

/-- The getter, and what it leaves in the cache. -/
def currentUser : Delegate × Option Bytes :=
  if !d.ready then (d, d.cached)
  else
    match currentUid s with
    | none => (d, d.cached)
    | some uid =>
      if uid.isEmpty || d.cached = some uid then (d, d.cached)
      else ({ d with cached := some uid }, some uid)

def State.put : State := { s with delegates := s.delegates.set i d }

/-- `_ensureAuth`, and whether it returns. -/
def ensureAuth (o : Outcome) : State × Bool :=
  if d.ready then (s, true)
  else
    let r := initAuth s o
    if r.2 then (r.1.put i { d with ready := true }, true) else (r.1, false)

/-- The start of `_signIn`. `accepted` is whether the native call returns 0. -/
def signIn (o : Outcome) (accepted : Bool) : State :=
  let r := ensureAuth s i d o
  if r.2 && accepted then { r.1 with signIns := r.1.signIns ++ [(i, .running)] } else r.1

def signOut : State :=
  let t := if d.ready then fdbAuthSignOut s else s
  t.put i { d with cached := none }

end Delegates

/-- How the SDK completes a sign-in. A result without a valid user has no uid. -/
inductive Completion
  | signedIn (uid : Bytes)
  | nobody
  | failed

/-- OnSignInComplete, with what the SDK has made of the session before. -/
def complete (s : State) (k i : Nat) : Completion → State
  | .signedIn uid => { s with user := some uid, signIns := s.signIns.set k (i, .posted (some uid)) }
  | .nobody => { s with signIns := s.signIns.set k (i, .posted (some [])) }
  | .failed => { s with signIns := s.signIns.set k (i, .posted none) }

/-- Calls on a delegate, the SDK and Dart going on with a sign-in, reading the
current user, and the session ending or being restored. -/
inductive AuthAction
  | create (initial : Option Bytes)
  | useAuthEmulator (i : Nat) (o : Outcome)
  | signIn (i : Nat) (o : Outcome) (accepted : Bool)
  | complete (k : Nat) (c : Completion)
  | resume (k : Nat)
  | signOut (i : Nat)
  | read (i : Nat)
  | ended
  | restored (uid : Bytes)

def authStep (s : State) : AuthAction → Option State
  | .create initial => some { s with delegates := s.delegates ++ [⟨false, initial⟩] }
  | .useAuthEmulator i o => s.delegates[i]?.map fun d => (ensureAuth s i d o).1
  | .signIn i o accepted => s.delegates[i]?.map fun d => Auth.signIn s i d o accepted
  | .complete k c =>
    match s.signIns[k]? with
    | some (i, .running) => some (Auth.complete s k i c)
    | _ => none
  | .resume k =>
    match s.signIns[k]? with
    | some (i, .posted uid) =>
      let t := { s with signIns := s.signIns.set k (i, .done) }
      match uid with
      | none => some t
      | some uid => t.delegates[i]?.map fun d => t.put i { d with cached := some uid }
    | _ => none
  | .signOut i => s.delegates[i]?.map fun d => Auth.signOut s i d
  | .read i => s.delegates[i]?.map fun d => s.put i (currentUser s d).1
  | .ended => if s.initialized then some { s with user := none } else none
  | .restored uid => if s.initialized then some { s with user := some uid } else none

/-- A uid that fits the buffer of currentUid and is not taken for none. -/
def Fits (uid : Bytes) : Prop := uid ≠ [] ∧ uid.length < 256

/-- The session ends, or a delegate signs out of it, only when no other delegate has
a user in its cache; a sign-in goes on in Dart, and a delegate with a user in its
cache becomes ready, only while there is a session; and every uid fits. -/
def Told (s : State) : AuthAction → Prop
  | .useAuthEmulator i o | .signIn i o _ => ∀ d, s.delegates[i]? = some d → d.ready = false →
      (initAuth s o).2 = true → s.user = none → d.cached = none
  | .complete _ (.signedIn uid) => Fits uid
  | .resume k => ∀ i uid, s.signIns[k]? = some (i, .posted (some uid)) → s.user ≠ none
  | .signOut i => ∀ d, s.delegates[i]? = some d → d.ready = true →
      ∀ (j : Nat) (e : Delegate), s.delegates[j]? = some e → j ≠ i → e.ready = true → e.cached = none
  | .ended => ∀ e ∈ s.delegates, e.ready = true → e.cached = none
  | .restored uid => Fits uid
  | _ => True

/-- On every ready delegate the current user is that of the session. -/
def Agrees (s : State) : Prop :=
  ∀ d ∈ s.delegates, d.ready = true → (currentUser s d).2 = s.user

structure AuthInv (s : State) : Prop where
  ready : ∀ d ∈ s.delegates, d.ready = true → s.initialized = true
  cleared : s.user = none → ∀ d ∈ s.delegates, d.ready = true → d.cached = none
  fits : ∀ uid, s.user = some uid → Fits uid

section Steps

variable {s t : State} {i : Nat} {d : Delegate}

theorem AuthInv.start : AuthInv .start := ⟨nofun, nofun, nofun⟩

/-- What the native layer tells of a uid that fits, and of none. -/
theorem currentUid_eq (hinit : s.initialized = true) (hfits : ∀ uid, s.user = some uid → Fits uid) :
    currentUid s = s.user := by
  unfold currentUid fdbAuthCurrentUid
  rw [hinit]
  cases huser : s.user with
  | none => rfl
  | some uid =>
    obtain ⟨hne, hlt⟩ := hfits uid huser
    have hcap : ¬ 256 < uid.length + 1 := by omega
    simp [hcap, hne]

theorem AuthInv.agrees (hs : AuthInv s) : Agrees s := by
  intro d hd hready
  have huid := currentUid_eq (hs.ready d hd hready) hs.fits
  unfold currentUser
  rw [hready, huid]
  cases huser : s.user with
  | none => exact hs.cleared huser d hd hready
  | some uid =>
    have hne : uid.isEmpty = false := by
      rw [List.isEmpty_eq_false_iff]
      exact (hs.fits uid huser).1
    simp only [hne, Bool.not_true, Bool.false_eq_true, if_false, Bool.false_or]
    split
    · next hcached => simpa using hcached
    · rfl

/-- Reading the current user never makes a delegate ready, and keeps its cache
while there is no session. -/
theorem currentUser_fst (d : Delegate) :
    (currentUser s d).1.ready = d.ready ∧ (currentUid s = none → (currentUser s d).1 = d) := by
  unfold currentUser
  split
  · exact ⟨rfl, fun _ => rfl⟩
  · cases currentUid s with
    | none => exact ⟨rfl, fun _ => rfl⟩
    | some uid =>
      dsimp only
      split <;> exact ⟨rfl, nofun⟩

/-- A delegate changed in its place. -/
theorem AuthInv.put (hs : AuthInv s) (hready : d.ready = true → s.initialized = true)
    (hcleared : s.user = none → d.ready = true → d.cached = none) : AuthInv (s.put i d) := by
  refine ⟨?_, ?_, hs.fits⟩
  · intro e he
    rcases List.mem_or_eq_of_mem_set he with he | rfl
    · exact hs.ready e he
    · exact hready
  · intro huser e he
    rcases List.mem_or_eq_of_mem_set he with he | rfl
    · exact hs.cleared huser e he
    · exact hcleared huser

/-- The sign-ins are no part of the invariant. -/
theorem AuthInv.signIns (hs : AuthInv s) (signIns : List (Nat × SignIn)) :
    AuthInv { s with signIns := signIns } := ⟨hs.ready, hs.cleared, hs.fits⟩

theorem initAuth_user (s : State) (o : Outcome) :
    (initAuth s o).1.user = s.user ∧ (initAuth s o).1.delegates = s.delegates := by
  unfold initAuth
  split <;> exact ⟨rfl, rfl⟩

theorem AuthInv.initAuth (hs : AuthInv s) (o : Outcome) : AuthInv (initAuth s o).1 := by
  obtain ⟨huser, hdelegates⟩ := initAuth_user s o
  refine ⟨?_, ?_, ?_⟩
  · rw [hdelegates]
    intro d hd hready
    rw [Auth.initAuth, if_pos (hs.ready d hd hready)]
    exact hs.ready d hd hready
  · rw [huser, hdelegates]
    exact hs.cleared
  · rw [huser]
    exact hs.fits

theorem initAuth_initialized {o : Outcome} (h : (initAuth s o).2 = true) :
    (initAuth s o).1.initialized = true := by
  unfold initAuth at h ⊢
  split
  · next hinit => exact hinit
  · next hinit =>
    rw [if_neg hinit] at h
    exact (Bool.and_eq_true_iff.mp h).1

theorem AuthInv.ensureAuth (hs : AuthInv s) {o : Outcome}
    (h : d.ready = false → (Auth.initAuth s o).2 = true → s.user = none → d.cached = none) :
    AuthInv (ensureAuth s i d o).1 := by
  unfold Auth.ensureAuth
  split
  · exact hs
  · next hready =>
    dsimp only
    split
    · next hreturns =>
      refine (hs.initAuth o).put (fun _ => initAuth_initialized hreturns) ?_
      intro huser _
      rw [(initAuth_user s o).1] at huser
      exact h (by simpa using hready) hreturns huser
    · exact hs.initAuth o

theorem AuthInv.signIn (hs : AuthInv s) {o : Outcome} {accepted : Bool}
    (h : d.ready = false → (Auth.initAuth s o).2 = true → s.user = none → d.cached = none) :
    AuthInv (signIn s i d o accepted) := by
  have hensured : AuthInv (Auth.ensureAuth s i d o).1 := hs.ensureAuth h
  unfold Auth.signIn
  dsimp only
  split
  · exact hensured.signIns _
  · exact hensured

theorem AuthInv.complete (hs : AuthInv s) {k : Nat} {c : Completion}
    (h : ∀ uid, c = .signedIn uid → Fits uid) : AuthInv (complete s k i c) := by
  cases c with
  | signedIn uid =>
    refine ⟨hs.ready, nofun, ?_⟩
    intro u hu
    cases hu
    exact h uid rfl
  | nobody => exact hs.signIns _
  | failed => exact hs.signIns _

/-- The session has ended, and no delegate that is ready has a user in its cache. -/
theorem AuthInv.ended (hs : AuthInv s) (h : ∀ e ∈ s.delegates, e.ready = true → e.cached = none) :
    AuthInv { s with user := none } := ⟨hs.ready, fun _ => h, nofun⟩

theorem AuthInv.signOut (hs : AuthInv s) (hd : s.delegates[i]? = some d)
    (h : d.ready = true → ∀ (j : Nat) (e : Delegate), s.delegates[j]? = some e → j ≠ i →
      e.ready = true → e.cached = none) : AuthInv (signOut s i d) := by
  have hready := hs.ready d (List.mem_of_getElem? hd)
  unfold Auth.signOut
  by_cases hd' : d.ready = true
  · rw [if_pos hd', fdbAuthSignOut, if_pos (hready hd')]
    refine ⟨?_, ?_, nofun⟩
    · intro e he
      rcases List.mem_or_eq_of_mem_set he with he | rfl
      · exact hs.ready e he
      · exact hready
    · intro _ e he hehready
      obtain ⟨j, hj⟩ := List.mem_iff_getElem?.mp he
      change (s.delegates.set i { d with cached := none })[j]? = some e at hj
      rw [List.getElem?_set] at hj
      split at hj
      · split at hj
        · cases hj
          rfl
        · cases hj
      · next hne => exact h hd' j e hj (Ne.symm hne) hehready
  · rw [if_neg hd']
    exact hs.put hready fun _ _ => rfl

theorem AuthInv.step (hs : AuthInv s) {a : AuthAction} (ha : Told s a)
    (h : authStep s a = some t) : AuthInv t := by
  cases a with
  | create initial =>
    cases h
    refine ⟨?_, ?_, hs.fits⟩
    · refine List.forall_mem_append.mpr ⟨hs.ready, ?_⟩
      intro d hd hready
      obtain rfl := List.mem_singleton.mp hd
      cases hready
    · intro huser
      refine List.forall_mem_append.mpr ⟨hs.cleared huser, ?_⟩
      intro d hd hready
      obtain rfl := List.mem_singleton.mp hd
      cases hready
  | useAuthEmulator i o =>
    obtain ⟨d, hd, rfl⟩ := Option.map_eq_some_iff.mp h
    exact hs.ensureAuth (ha d hd)
  | signIn i o accepted =>
    obtain ⟨d, hd, rfl⟩ := Option.map_eq_some_iff.mp h
    exact hs.signIn (ha d hd)
  | complete k c =>
    simp only [authStep] at h
    split at h
    · cases h
      refine hs.complete ?_
      rintro uid rfl
      exact ha
    · cases h
  | resume k =>
    simp only [authStep] at h
    split at h
    · next i uid hposted =>
      cases uid with
      | none =>
        cases h
        exact hs.signIns _
      | some uid =>
        obtain ⟨d, hd, rfl⟩ := Option.map_eq_some_iff.mp h
        refine (hs.signIns _).put (hs.ready d (List.mem_of_getElem? hd)) ?_
        intro huser
        exact absurd huser (ha i uid hposted)
    · cases h
  | signOut i =>
    obtain ⟨d, hd, rfl⟩ := Option.map_eq_some_iff.mp h
    exact hs.signOut hd (ha d hd)
  | read i =>
    obtain ⟨d, hd, rfl⟩ := Option.map_eq_some_iff.mp h
    have hmem := List.mem_of_getElem? hd
    obtain ⟨hready, hsame⟩ := @currentUser_fst s d
    refine hs.put ?_ ?_
    · rw [hready]
      exact hs.ready d hmem
    · rw [hready]
      intro huser hd
      have huid := currentUid_eq (hs.ready d hmem hd) hs.fits
      rw [hsame (huid.trans huser)]
      exact hs.cleared huser d hmem hd
  | ended =>
    simp only [authStep] at h
    split at h
    · cases h
      exact hs.ended ha
    · cases h
  | restored uid =>
    simp only [authStep] at h
    split at h
    · cases h
      refine ⟨hs.ready, nofun, ?_⟩
      intro u hu
      cases hu
      exact ha
    · cases h

end Steps

/-- As long as no delegate is left with a user when the session ends, every ready
delegate tells the user of the session. -/
theorem users_agree (s : State) (h : Run authStep Told .start s) : Agrees s :=
  AuthInv.agrees (h.invariant .start fun _ _ _ ht ha hstep => ht.step ha hstep)

/-- Two delegates of which the second is only made ready, and the first signs in. -/
def shared : List AuthAction :=
  [.create none, .create none, .useAuthEmulator 1 ⟨true, true⟩, .signIn 0 ⟨true, true⟩ true,
    .complete 0 (.signedIn [0x75]), .resume 0]

theorem shared_agrees : ∃ s, exec authStep .start shared = some s ∧ s.user = some [0x75] ∧
    Agrees s := by
  have hexec : exec authStep .start shared = some _ := rfl
  refine ⟨_, hexec, rfl, users_agree _ (Run.of_exec hexec ?_)⟩
  have hnone : ∀ (i : Nat) (d : Delegate), [Delegate.mk false none, ⟨false, none⟩][i]? = some d →
      d.cached = none := by
    intro i d hd
    have hmem := List.mem_of_getElem? hd
    simp only [List.mem_cons, List.not_mem_nil, or_false, or_self] at hmem
    rw [hmem]
  refine .next trivial rfl (.next trivial rfl (.next ?_ rfl (.next ?_ rfl (.next ?_ rfl ?_))))
  · intro d hd _ _ _
    exact hnone 1 d hd
  · intro d hd _ _ _
    cases hd
    rfl
  · exact ⟨nofun, by decide⟩
  · refine .next ?_ rfl trivial
    intro i uid _
    nofun

/-- Then the other one reads the user, and the first signs out. -/
def signedOut : List AuthAction := shared ++ [.read 1, .signOut 0]

/-- The other one keeps the user. -/
theorem signedOut_disagrees : ∃ s, Run authStep (fun _ _ => True) .start s ∧ s.user = none ∧
    s.delegates[1]? = some ⟨true, some [0x75]⟩ ∧ ¬ Agrees s := by
  have hexec : exec authStep .start signedOut = some _ := rfl
  refine ⟨_, Run.of_exec hexec (.unguarded _), rfl, rfl, ?_⟩
  intro h
  cases h ⟨true, some [0x75]⟩ (.tail _ (.head _)) rfl

end Auth
