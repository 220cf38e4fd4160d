import FirebaseFfi.Cbor.Head
import FirebaseFfi.Machine.Run

namespace App
open Cbor Machine

inductive Product
  | database | firestore | auth | storage | functions
  deriving DecidableEq

/-- The arguments of fdb_app_init. The last two may be null. -/
structure AppArgs where
  appId : Bytes
  apiKey : Bytes
  projectId : Bytes
  databaseUrl : Option Bytes
  storageBucket : Option Bytes

/-- `p != nullptr && *p != '\0'` -/
def given (p : Option Bytes) : Option Bytes := p.filter fun s => !s.isEmpty

/-- An App, as the options that it was created with. An option that was not set is
`none`. -/
structure AppOptions where
  appId : Bytes
  apiKey : Bytes
  projectId : Bytes
  databaseUrl : Option Bytes
  storageBucket : Option Bytes

/-- A product's instance, with the init result that it came with. -/
structure Instance where
  app : AppOptions
  region : Option Bytes
  success : Bool

/-- g_app, g_has_database_url, and g_database, g_firestore, g_auth, g_storage and
g_functions. -/
structure Globals where
  app : Option AppOptions
  hasDatabaseUrl : Bool
  kept : Product → Option Instance

def Globals.start : Globals := ⟨none, false, fun _ => none⟩

/-- What a GetInstance comes to: whether there is an instance, and whether the init
result is a success. -/
structure Outcome where
  got : Bool
  success : Bool

def Outcome.instance (o : Outcome) (app : AppOptions) (region : Option Bytes) : Option Instance :=
  if o.got then some ⟨app, region, o.success⟩ else none

def Globals.keep (s : Globals) (p : Product) (i : Option Instance) : Globals :=
  { s with kept := Function.update s.kept p i }

section Inits

variable (s : Globals)

def AppArgs.options (args : AppArgs) : AppOptions :=
  ⟨args.appId, args.apiKey, args.projectId, given args.databaseUrl, given args.storageBucket⟩

/-- `created` is what App::Create comes to. -/
def fdbAppInit (args : AppArgs) (created : Bool) : Globals × Int64 :=
  if s.app.isSome then (s, 0)
  else
    let s := if (given args.databaseUrl).isSome then { s with hasDatabaseUrl := true } else s
    let s := { s with app := if created then some args.options else none }
    if s.app.isNone then (s, -1) else (s, 0)

def ensureDatabase (o : Outcome) : Globals × Option Instance :=
  if (s.kept .database).isSome then (s, s.kept .database)
  else
    match s.app with
    | none => (s, none)
    | some app =>
      if !s.hasDatabaseUrl then (s, none)
      else
        let got := if o.success then o.instance app none else none
        (s.keep .database got, got)

/-- The inits that leave what they got where it is. -/
def keepInit (p : Product) (o : Outcome) : Globals × Int64 :=
  if (s.kept p).isSome then (s, 0)
  else
    match s.app with
    | none => (s, -1)
    | some app =>
      let got := o.instance app none
      if got.isNone || !o.success then (s.keep p got, -2) else (s.keep p got, 0)

/-- The inits that put a null there when they fail. -/
def resetInit (p : Product) (region : Option Bytes) (o : Outcome) : Globals × Int64 :=
  if (s.kept p).isSome then (s, 0)
  else
    match s.app with
    | none => (s, -1)
    | some app =>
      let got := o.instance app region
      if got.isNone || !o.success then (s.keep p none, -2) else (s.keep p got, 0)

def fdbFsInit := keepInit s .firestore

def fdbAuthInit := keepInit s .auth

def fdbStorageInit := resetInit s .storage none

def fdbFunctionsInit (region : Option Bytes) := resetInit s .functions (given region)

/-- The test that every operation of a product starts with. One that is not refused
comes to 0 here. -/
def operation (p : Product) (o : Outcome) : Globals × Int64 :=
  let r := if p = .database then ensureDatabase s o else (s, s.kept p)
  if r.2.isNone then (r.1, -1) else (r.1, 0)

end Inits

/-- The Database has no init call of its own. Its operations init it. -/
inductive InitCall
  | app (args : AppArgs) (created : Bool)
  | firestore (o : Outcome)
  | auth (o : Outcome)
  | storage (o : Outcome)
  | functions (region : Option Bytes) (o : Outcome)
  | operation (p : Product) (o : Outcome)

def InitCall.run (s : Globals) : InitCall → Globals × Int64
  | .app args created => fdbAppInit s args created
  | .firestore o => fdbFsInit s o
  | .auth o => fdbAuthInit s o
  | .storage o => fdbStorageInit s o
  | .functions region o => fdbFunctionsInit s region o
  | .operation p o => App.operation s p o

def initStep (s : Globals) (c : InitCall) : Option Globals := some (c.run s).1

/-- The product that a call inits. -/
def InitCall.product : InitCall → Option Product
  | .app .. => none
  | .firestore _ => some .firestore
  | .auth _ => some .auth
  | .storage _ => some .storage
  | .functions .. => some .functions
  | .operation p _ => some p

/-- An app with a database url is created, and Firestore and Auth come with a
success if they come at all. -/
def Whole (s : Globals) : InitCall → Prop
  | .app args created => s.app = none → (given args.databaseUrl).isSome → created = true
  | .firestore o => s.app.isSome → s.kept .firestore = none → o.got = true → o.success = true
  | .auth o => s.app.isSome → s.kept .auth = none → o.got = true → o.success = true
  | _ => True

/-- A call that fails changes nothing. Its product is not there, its operations are
refused, and an init that succeeds makes up for it. -/
structure Failsafe (s : Globals) (c : InitCall) : Prop where
  unchanged : (c.run s).2 ≠ 0 → (c.run s).1 = s
  absent : (c.run s).2 ≠ 0 → ∀ p, c.product = some p → s.kept p = none
  refused : (c.run s).2 ≠ 0 → ∀ p, c.product = some p → p ≠ .database →
    ∀ o, operation s p o = (s, -1)
  created : (c.run s).2 ≠ 0 → s.app = none →
    ∀ args, fdbAppInit s args true = ({ s with
      app := some args.options, hasDatabaseUrl := (given args.databaseUrl).isSome }, 0)
  retried : (c.run s).2 ≠ 0 → ∀ p, c.product = some p → ∀ app, s.app = some app →
    (p = .database → app.databaseUrl.isSome) →
    ∃ retry : InitCall, retry.product = some p ∧ (retry.run s).2 = 0 ∧
      ∃ i, (retry.run s).1.kept p = some i ∧ i.app = app ∧ i.success = true

/-- What is kept is kept of the app that was created, and came with a success. A
Database is kept only of an app with a url. -/
structure Sound (s : Globals) : Prop where
  kept : ∀ p i, s.kept p = some i → s.app = some i.app ∧ i.success = true
  database : ∀ i, s.kept .database = some i → i.app.databaseUrl.isSome
  calls : ∀ c, Whole s c → Failsafe s c

/-- What a call that succeeds makes of the globals. -/
inductive Becomes (s : Globals) : Globals → Prop
  | same : Becomes s s
  | app {options : AppOptions} : s.app = none → Becomes s { s with
      app := some options, hasDatabaseUrl := options.databaseUrl.isSome }
  | kept {p app region} : s.app = some app → (p = .database → s.hasDatabaseUrl = true) →
      Becomes s (s.keep p (some ⟨app, region, true⟩))

/-- A call of a product fails and leaves everything, or succeeds. -/
def Comes (s : Globals) (p : Option Product) (r : Globals × Int64) : Prop :=
  (r.2 ≠ 0 ∧ r.1 = s ∧ ∀ q, p = some q → s.kept q = none) ∨ (r.2 = 0 ∧ Becomes s r.1)

structure InitInv (s : Globals) : Prop where
  url : s.hasDatabaseUrl = (s.app.bind AppOptions.databaseUrl).isSome
  kept : ∀ p i, s.kept p = some i → s.app = some i.app ∧ i.success = true
  database : ∀ i, s.kept .database = some i → i.app.databaseUrl.isSome

section Steps

variable {s t : Globals} {p : Product} {region : Option Bytes} {o : Outcome}

theorem InitInv.start : InitInv .start := ⟨rfl, nofun, nofun⟩

theorem keep_same {i : Option Instance} : (s.keep p i).kept p = i := Function.update_self _ _ _

theorem keep_other {q : Product} {i : Option Instance} (h : q ≠ p) :
    (s.keep p i).kept q = s.kept q := Function.update_of_ne h _ _

theorem InitInv.becomes (hs : InitInv s) (h : Becomes s t) : InitInv t := by
  cases h with
  | same => exact hs
  | app hnone =>
    have hkept : ∀ p i, s.kept p ≠ some i := by
      intro p i hi
      have happ := (hs.kept p i hi).1
      rw [hnone] at happ
      cases happ
    exact ⟨rfl, fun p i hi => absurd hi (hkept p i), fun i hi => absurd hi (hkept _ i)⟩
  | @kept p app region happ hurl =>
    refine ⟨hs.url, ?_, ?_⟩
    · intro q i hi
      by_cases hq : q = p
      · rw [hq, keep_same] at hi
        cases hi
        exact ⟨happ, rfl⟩
      · rw [keep_other hq] at hi
        exact hs.kept q i hi
    · intro i hi
      by_cases hp : .database = p
      · rw [hp, keep_same] at hi
        cases hi
        have hflag := hs.url
        rw [hurl hp.symm, happ] at hflag
        exact hflag.symm
      · rw [keep_other hp] at hi
        exact hs.database i hi

theorem keep_none (h : s.kept p = none) : s.keep p none = s := by
  unfold Globals.keep
  rw [← h, Function.update_eq_self]

theorem outcome_cases (o : Outcome) (app : AppOptions) (region : Option Bytes) :
    o.instance app region = none ∨ o.instance app region = some ⟨app, region, o.success⟩ := by
  unfold Outcome.instance
  split
  · exact .inr rfl
  · exact .inl rfl

theorem comes_failed {q : Option Product} {rc : Int64} (hrc : rc ≠ 0)
    (h : ∀ p, q = some p → s.kept p = none) : Comes s q (s, rc) := .inl ⟨hrc, rfl, h⟩

/-- An init that resets always leaves everything when it fails. -/
theorem resetInit_comes (hp : p ≠ .database) : Comes s (some p) (resetInit s p region o) := by
  unfold resetInit
  split
  · exact .inr ⟨rfl, .same⟩
  · next hkept =>
    have hnone : s.kept p = none := by simpa using hkept
    have habsent : ∀ q, some p = some q → s.kept q = none := by
      intro q hq
      cases hq
      exact hnone
    split
    · exact comes_failed (by decide) habsent
    · next app happ =>
      dsimp only
      split
      · rw [keep_none hnone]
        exact comes_failed (by decide) habsent
      · next hgot =>
        refine .inr ⟨rfl, ?_⟩
        rcases outcome_cases o app region with hi | hi
        · simp [hi] at hgot
        · have hsuccess : o.success = true := by simpa [hi] using hgot
          rw [hi, hsuccess]
          exact .kept happ fun h => absurd h hp

/-- One that keeps what it got does so when that came with a success or not at all. -/
theorem keepInit_comes (hp : p ≠ .database)
    (hwhole : s.app.isSome → s.kept p = none → o.got = true → o.success = true) :
    Comes s (some p) (keepInit s p o) := by
  have hsame : keepInit s p o = resetInit s p none o := by
    unfold keepInit resetInit
    split
    · rfl
    · next hkept =>
      have hnone : s.kept p = none := by simpa using hkept
      cases happ : s.app with
      | none => rfl
      | some app =>
        have hgot := hwhole (by rw [happ]; rfl) hnone
        rcases outcome_cases o app none with hi | hi
        · simp [hi]
        · have hsuccess : o.success = true := by
            apply hgot
            unfold Outcome.instance at hi
            split at hi
            · assumption
            · cases hi
          simp [hi, hsuccess]
  rw [hsame]
  exact resetInit_comes hp

theorem fdbAppInit_created (hs : InitInv s) (hnone : s.app = none) (args : AppArgs) :
    fdbAppInit s args true = ({ s with
      app := some args.options, hasDatabaseUrl := (given args.databaseUrl).isSome }, 0) := by
  have hflag := hs.url
  obtain ⟨app, hasDatabaseUrl, kept⟩ := s
  cases hnone
  cases hflag
  unfold fdbAppInit
  cases (given args.databaseUrl).isSome <;> rfl

theorem fdbAppInit_comes (hs : InitInv s) {args : AppArgs} {created : Bool}
    (hwhole : s.app = none → (given args.databaseUrl).isSome → created = true) :
    Comes s none (fdbAppInit s args created) := by
  by_cases hnone : s.app = none
  · cases created with
    | true =>
      rw [fdbAppInit_created hs hnone]
      exact .inr ⟨rfl, .app hnone⟩
    | false =>
      have hgiven : (given args.databaseUrl).isSome = false := by
        rw [Bool.eq_false_iff]
        intro h
        cases hwhole hnone h
      obtain ⟨app, hasDatabaseUrl, kept⟩ := s
      cases hnone
      unfold fdbAppInit
      rw [hgiven]
      exact comes_failed (by decide : (-1 : Int64) ≠ 0) nofun
  · rw [fdbAppInit, if_pos (Option.isSome_iff_ne_none.mpr hnone)]
    exact .inr ⟨rfl, .same⟩

/-- The Database is there, or is not and nothing changes, or is got from an app with
a url. -/
theorem ensureDatabase_cases (s : Globals) (o : Outcome) :
    (∃ i, s.kept .database = some i ∧ ensureDatabase s o = (s, some i)) ∨
    (s.kept .database = none ∧ ensureDatabase s o = (s, none)) ∨
    ∃ app, s.app = some app ∧ s.hasDatabaseUrl = true ∧
      ensureDatabase s o =
        (s.keep .database (some ⟨app, none, true⟩), some ⟨app, none, true⟩) := by
  unfold ensureDatabase
  cases hkept : s.kept .database with
  | some i => exact .inl ⟨i, rfl, rfl⟩
  | none =>
    right
    rw [if_neg nofun]
    cases s.app with
    | none => exact .inl ⟨rfl, rfl⟩
    | some app =>
      dsimp only
      split
      · exact .inl ⟨rfl, rfl⟩
      · next hflag =>
        have hurl : s.hasDatabaseUrl = true := by
          rw [Bool.not_eq_true', Bool.not_eq_false] at hflag
          exact hflag
        have hgot : (if o.success then o.instance app none else none) = none ∨
            (if o.success then o.instance app none else none) = some ⟨app, none, true⟩ := by
          split
          · next hsuccess =>
            rw [← hsuccess]
            exact outcome_cases o app none
          · exact .inl rfl
        rcases hgot with hi | hi
        · rw [hi, keep_none hkept]
          exact .inl ⟨rfl, rfl⟩
        · rw [hi]
          exact .inr ⟨app, rfl, hurl, rfl⟩

theorem ensureDatabase_comes : Comes s (some .database) (operation s .database o) := by
  unfold operation
  rw [if_pos rfl]
  rcases ensureDatabase_cases s o with ⟨i, -, hi⟩ | ⟨hnone, hi⟩ | ⟨app, happ, hurl, hi⟩
  · rw [hi]
    exact .inr ⟨rfl, .same⟩
  · rw [hi]
    refine comes_failed (by decide) ?_
    intro q hq
    cases hq
    exact hnone
  · rw [hi]
    exact .inr ⟨rfl, .kept happ fun _ => hurl⟩

theorem operation_comes (p : Product) (o : Outcome) :
    Comes s (some p) (operation s p o) := by
  by_cases hp : p = .database
  · rw [hp]
    exact ensureDatabase_comes
  · unfold operation
    rw [if_neg hp]
    cases hkept : s.kept p with
    | some i => exact .inr ⟨rfl, .same⟩
    | none =>
      refine comes_failed (by decide) ?_
      intro q hq
      cases hq
      exact hkept

theorem run_comes (hs : InitInv s) {c : InitCall} (hc : Whole s c) :
    Comes s c.product (c.run s) := by
  cases c with
  | app args created => exact fdbAppInit_comes hs hc
  | firestore o => exact keepInit_comes (by decide) hc
  | auth o => exact keepInit_comes (by decide) hc
  | storage o => exact resetInit_comes (by decide)
  | functions region o => exact resetInit_comes (by decide)
  | operation p o => exact operation_comes p o

theorem InitInv.step (hs : InitInv s) {c : InitCall} (hc : Whole s c) : InitInv (c.run s).1 := by
  rcases run_comes hs hc with ⟨-, heq, -⟩ | ⟨-, hbecomes⟩
  · rw [heq]
    exact hs
  · exact hs.becomes hbecomes

/-- The call that inits a product, when all goes well. -/
def Product.retry : Product → InitCall
  | .database => .operation .database ⟨true, true⟩
  | .firestore => .firestore ⟨true, true⟩
  | .auth => .auth ⟨true, true⟩
  | .storage => .storage ⟨true, true⟩
  | .functions => .functions none ⟨true, true⟩

theorem retry_run {app : AppOptions} (happ : s.app = some app) (hnone : s.kept p = none)
    (hurl : p = .database → s.hasDatabaseUrl = true) :
    p.retry.run s = (s.keep p (some ⟨app, none, true⟩), 0) := by
  cases p with
  | database =>
    simp [Product.retry, InitCall.run, operation, ensureDatabase, hnone, happ, hurl,
      Outcome.instance]
  | firestore =>
    simp [Product.retry, InitCall.run, fdbFsInit, keepInit, hnone, happ, Outcome.instance]
  | auth =>
    simp [Product.retry, InitCall.run, fdbAuthInit, keepInit, hnone, happ, Outcome.instance]
  | storage =>
    simp [Product.retry, InitCall.run, fdbStorageInit, resetInit, hnone, happ, Outcome.instance]
  | functions =>
    simp [Product.retry, InitCall.run, fdbFunctionsInit, resetInit, hnone, happ,
      Outcome.instance, given]

theorem retry_product (p : Product) : p.retry.product = some p := by
  cases p <;> rfl

theorem InitInv.failsafe (hs : InitInv s) {c : InitCall} (hc : Whole s c) : Failsafe s c := by
  have hcomes := run_comes hs hc
  have habsent : (c.run s).2 ≠ 0 → ∀ p, c.product = some p → s.kept p = none := by
    intro hrc
    rcases hcomes with ⟨-, -, h⟩ | ⟨hzero, -⟩
    · exact h
    · exact absurd hzero hrc
  refine ⟨?_, habsent, ?_, fun _ hnone args => fdbAppInit_created hs hnone args, ?_⟩
  · intro hrc
    rcases hcomes with ⟨-, h, -⟩ | ⟨hzero, -⟩
    · exact h
    · exact absurd hzero hrc
  · intro hrc p hp hne o
    unfold operation
    rw [if_neg hne, habsent hrc p hp]
    rfl
  · intro hrc p hp app happ hurl
    have hflag : p = .database → s.hasDatabaseUrl = true := by
      intro h
      rw [hs.url, happ]
      exact hurl h
    have hrun := retry_run happ (habsent hrc p hp) hflag
    refine ⟨p.retry, retry_product p, by rw [hrun], ⟨app, none, true⟩, ?_, rfl, rfl⟩
    rw [hrun]
    exact keep_same

end Steps

/-- As long as no app with a url fails to be created, and neither Firestore nor Auth
comes with a failure, no failed call leaves anything behind. -/
theorem inits_failsafe (s : Globals) (h : Run initStep Whole .start s) : Sound s := by
  have hs : InitInv s := h.invariant .start fun t c u ht hc hstep => by
    cases hstep
    exact ht.step hc
  exact ⟨hs.kept, hs.database, fun c hc => hs.failsafe hc⟩

/-- An app with a database url, and one without. -/
def withUrl : AppArgs := ⟨[0x61], [0x6b], [0x70], some [0x68], none⟩

def withoutUrl : AppArgs := ⟨[0x61], [0x6b], [0x70], some [], none⟩

/-- Storage fails, and is there at the second try. -/
def secondTry : List InitCall :=
  [.app withUrl true, .storage ⟨true, false⟩, .storage ⟨true, true⟩, .operation .database ⟨true, true⟩]

theorem secondTry_sound : ∃ s, exec initStep .start secondTry = some s ∧
    (s.kept .storage).isSome ∧ (s.kept .database).isSome ∧ Sound s := by
  have hexec : exec initStep .start secondTry = some _ := rfl
  refine ⟨_, hexec, rfl, rfl, inits_failsafe _ (Run.of_exec hexec ?_)⟩
  exact .next (fun _ _ => rfl) rfl (.next trivial rfl (.next trivial rfl (.next trivial rfl trivial)))

/-- The app with the url is not created, and one without is. -/
def staleUrl : List InitCall :=
  [.app withUrl false, .app withoutUrl true, .operation .database ⟨true, true⟩]

/-- Auth comes with a failure. -/
def failedAuth : List InitCall := [.app withoutUrl true, .auth ⟨true, false⟩]

/-- The one has a Database of an app without a url. The other operates on what came
with a failure, and is not tried again. -/
theorem failed_inits_unsound :
    (∃ s i, Run initStep (fun _ _ => True) .start s ∧ s.kept .database = some i ∧
      i.app.databaseUrl = none ∧ ¬ Sound s) ∧
    ∃ s, Run initStep (fun _ _ => True) .start s ∧ (InitCall.run s (.auth ⟨true, true⟩)).2 = 0 ∧
      (operation s .auth ⟨false, false⟩).2 = 0 ∧ ¬ Sound s := by
  constructor
  · have hexec : exec initStep .start staleUrl = some _ := rfl
    refine ⟨_, _, Run.of_exec hexec (.unguarded _), rfl, rfl, ?_⟩
    intro h
    cases h.database _ rfl
  · have hexec : exec initStep .start failedAuth = some _ := rfl
    refine ⟨_, Run.of_exec hexec (.unguarded _), rfl, rfl, ?_⟩
    intro h
    cases (h.kept .auth _ rfl).2

end App
