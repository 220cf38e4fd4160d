import FirebaseFfi.Assoc.Emplace
import FirebaseFfi.Cbor.Head
import FirebaseFfi.Dart.Value
import FirebaseFfi.Machine.Run
import FirebaseFfi.Tinycbor.Encoder

namespace AppCheck
open Assoc Cbor Machine
open Dart (ascii)
open Tinycbor (cString)

structure AppCheckToken where
  token : Bytes
  expireTimeMillis : Int64

/-- What a completion of the SDK is invoked with. -/
structure Result where
  token : AppCheckToken
  error : Int32
  message : Bytes

/-- `kAppCheckErrorInvalidConfiguration`. -/
def invalidConfiguration : Int32 := 2

def notRegistered : Result :=
  ⟨⟨[], 0⟩, invalidConfiguration, ascii "no Dart provider is registered"⟩

/-- How the app's callback ends. What it throws may have no text. -/
inductive Supplied
  | token (token : Bytes) (expiry : Int64)
  | threw (message : Option Bytes)

/-- The answer, as the app has given it. -/
def Supplied.told : Supplied → Option Result
  | .token t expiry => some ⟨⟨t, expiry⟩, 0, []⟩
  | .threw (some m) => some ⟨⟨[], 0⟩, 5, m⟩
  | .threw none => none

/-- A call of GetToken, with the id and the port that it took. No port is 0. -/
structure Request where
  id : Int64
  port : Nat

/-- g_pending, g_next_request and g_provider_port; the calls that have parked
their completion and not posted yet, the port that Dart holds with the messages
queued on it, and the answers that are being computed. A completion is known by
the place of its call. `completing` are those taken out of g_pending and not
invoked yet. -/
structure State where
  pending : List (Int64 × Nat)
  next : Int64
  port : Nat
  requests : List Request
  posting : List (Int64 × Nat)
  ports : Nat
  opened : Option Nat
  queue : List Int64
  installing : Bool
  answering : List Int64
  completing : List (Nat × Result)
  invoked : List (Nat × Result)
  supplied : List (Int64 × Supplied)

def State.start : State := ⟨[], 1, 0, [], [], 0, none, [], false, [], [], [], []⟩

/-- The part of GetToken that holds the lock. There is no id after the largest. -/
def getToken (s : State) : Option State :=
  if s.next = Int64.maxValue then none
  else
    let c := s.requests.length
    let t := { s with next := s.next + 1, requests := s.requests ++ [Request.mk s.next s.port] }
    if s.port = 0 then some { t with invoked := t.invoked ++ [(c, notRegistered)] }
    else
      some { t with
        pending := assign t.pending (s.next, c)
        posting := t.posting ++ [(s.next, s.port)] }

def getLimitedUseToken (s : State) : Option State := getToken s

/-- A message to a closed port is dropped, and so is one without a buffer. -/
def fdbPostBuffer (s : State) (port : Nat) (id : Int64) (allocated : Bool) : State :=
  if allocated && s.opened = some port then { s with queue := s.queue ++ [id] } else s

/-- The provider is installed up to the call of fdb_ac_use_custom_provider. Closing
a port drops what is queued on it. -/
def useCustomAppCheckProvider (s : State) : State :=
  { s with
    ports := s.ports + 1
    opened := some (s.ports + 1)
    queue := []
    installing := true }

/-- Its strings end at a NUL. -/
def fdbAcSupplyToken (s : State) (requestId : Int64) (token : Bytes) (expireMillis : Int64)
    (errorCode : Int32) (message : Bytes) : State × Int64 :=
  match s.pending.lookup requestId with
  | none => (s, -1)
  | some c =>
    let result : AppCheckToken := if errorCode = 0 then ⟨cString token, expireMillis⟩ else ⟨[], 0⟩
    ({ s with
        pending := erase s.pending requestId
        completing := s.completing ++ [(c, Result.mk result errorCode (cString message))] }, 0)

/-- The end of `_answer`. With no text for what was thrown it does not come to the
call. -/
def answer (s : State) (id : Int64) (a : Supplied) : State :=
  let t := { s with supplied := s.supplied ++ [(id, a)] }
  match a with
  | .token text expiry => (fdbAcSupplyToken t id text expiry 0 []).1
  | .threw (some message) => (fdbAcSupplyToken t id [] 0 5 message).1
  | .threw none => t

/-- Steps of the SDK's threads (`ask` up to the post, `post`), of Dart installing a
provider, handling a message and answering, and of whoever invokes a completion.
`supply` is an answer that was not asked for. -/
inductive Action
  | ask (limited : Bool)
  | post (i : Nat) (allocated : Bool)
  | close
  | install
  | deliver
  | answer (i : Nat) (a : Supplied)
  | supply (id : Int64) (a : Supplied)
  | invoke (i : Nat)

/-- While Dart installs a provider it handles no message and gives no answer. -/
def step (s : State) : Action → Option State
  | .ask limited => if limited then getLimitedUseToken s else getToken s
  | .post i allocated =>
    match s.posting[i]? with
    | some e => some (fdbPostBuffer { s with posting := s.posting.eraseIdx i } e.2 e.1 allocated)
    | none => none
  | .close => if s.installing then none else some (useCustomAppCheckProvider s)
  | .install => if s.installing then some { s with port := s.ports, installing := false } else none
  | .deliver =>
    match s.installing, s.queue with
    | false, id :: rest => some { s with queue := rest, answering := s.answering ++ [id] }
    | _, _ => none
  | .answer i a =>
    match s.installing, s.answering[i]? with
    | false, some id => some (answer { s with answering := s.answering.eraseIdx i } id a)
    | _, _ => none
  | .supply id a => if s.installing then none else some (answer s id a)
  | .invoke i =>
    match s.completing[i]? with
    | some e =>
      some { s with completing := s.completing.eraseIdx i, invoked := s.invoked ++ [e] }
    | none => none

/-- Its message is on the way to the open port, or queued on it. -/
def State.Deliverable (s : State) (id : Int64) : Prop :=
  ∃ port, s.opened = some port ∧ ((id, port) ∈ s.posting ∨ id ∈ s.queue)

/-- The completion was invoked for this call, with the answer for its own id. -/
def State.Own (s : State) (q : Request) (r : Result) : Prop :=
  (q.port = 0 ∧ r = notRegistered) ∨ ∃ a, (q.id, a) ∈ s.supplied ∧ a.told = some r

structure Served (s : State) : Prop where
  ids : (s.requests.map Request.id).Nodup
  parked : (s.pending.map Prod.fst).Nodup
  once : (s.invoked.map Prod.fst).Nodup
  own : ∀ c r, (c, r) ∈ s.invoked → ∃ q, s.requests[c]? = some q ∧ s.Own q r
  answerable : ∀ id c, (id, c) ∈ s.pending → s.Deliverable id ∨ id ∈ s.answering

/-- The texts of an answer have no NUL, and there is one for what was thrown. -/
def Supplied.Whole (a : Supplied) : Prop :=
  ∃ r, a.told = some r ∧ 0 ∉ r.token.token ∧ 0 ∉ r.message

def State.Parked (s : State) (id : Int64) : Prop := ∃ c, (id, c) ∈ s.pending

/-- The provider is installed again only when every parked request is being
answered, no request takes the port that is being replaced, and for a parked
request no message is lost for want of a buffer and the answer is whole. -/
def Undropped (s : State) : Action → Prop
  | .ask _ => s.port = 0 ∨ s.opened = some s.port
  | .post i allocated => ∀ e, s.posting[i]? = some e → s.Parked e.1 → allocated = true
  | .close => ∀ id, s.Parked id → id ∈ s.answering
  | .answer i a => ∀ id, s.answering[i]? = some id → s.Parked id → a.Whole
  | .supply id a => s.Parked id → a.Whole
  | _ => True

/-- The completions that there are. -/
def State.held (s : State) : List Nat :=
  s.pending.map Prod.snd ++ (s.completing.map Prod.fst ++ s.invoked.map Prod.fst)

/-- What holds of the parked requests and the completions. -/
structure Core (s : State) : Prop where
  below : ∀ q ∈ s.requests, q.id < s.next
  ids : (s.requests.map Request.id).Nodup
  parked : (s.pending.map Prod.fst).Nodup
  asked : ∀ id c, (id, c) ∈ s.pending → ∃ q, s.requests[c]? = some q ∧ q.id = id
  held : s.held.Nodup
  known : ∀ c ∈ s.held, c < s.requests.length
  completing : ∀ c r, (c, r) ∈ s.completing → ∃ q, s.requests[c]? = some q ∧ s.Own q r
  invoked : ∀ c r, (c, r) ∈ s.invoked → ∃ q, s.requests[c]? = some q ∧ s.Own q r

/-- It will be answered. -/
def State.Waits (s : State) (id : Int64) : Prop := s.Deliverable id ∨ id ∈ s.answering

structure Inv (s : State) : Prop where
  core : Core s
  waits : ∀ id c, (id, c) ∈ s.pending → s.Waits id

variable {s u : State} {id : Int64} {a : Supplied}

/-- The core says nothing of the ports, or of what is on its way to them. -/
theorem Core.routed (h : Core s) (port : Nat) (posting : List (Int64 × Nat)) (ports : Nat)
    (opened : Option Nat) (queue : List Int64) (installing : Bool) (answering : List Int64) :
    Core { s with
      port := port, posting := posting, ports := ports, opened := opened, queue := queue,
      installing := installing, answering := answering } :=
  ⟨h.below, h.ids, h.parked, h.asked, h.held, h.known, h.completing, h.invoked⟩

theorem Inv.start : Inv .start := by
  refine ⟨⟨?_, .nil, .nil, ?_, .nil, ?_, ?_, ?_⟩, ?_⟩
  · intro q hq
    cases hq
  · intro id c h
    cases h
  · intro c h
    cases h
  · intro c r h
    cases h
  · intro c r h
    cases h
  · intro id c h
    cases h

theorem Core.fresh (hs : Core s) {c : Nat} (h : (id, c) ∈ s.pending) : id < s.next := by
  obtain ⟨q, hq, rfl⟩ := hs.asked id c h
  exact hs.below q (List.mem_of_getElem? hq)

theorem getElem_requests {q : Request} {c : Nat} {q' : Request} (h : s.requests[c]? = some q) :
    (s.requests ++ [q'])[c]? = some q := by
  rw [List.getElem?_append_left (List.getElem?_eq_some_iff.mp h).1]
  exact h

/-- A call takes the next id, which no other has taken. -/
theorem Core.request (hs : Core s) (hmax : s.next ≠ Int64.maxValue) {t : State}
    (hnext : t.next = s.next + 1)
    (hrequests : t.requests = s.requests ++ [Request.mk s.next s.port])
    (hheld : t.held.Perm (s.requests.length :: s.held))
    (hparked : (t.pending.map Prod.fst).Nodup)
    (hasked : ∀ id c, (id, c) ∈ t.pending → (id, c) ∈ s.pending ∨ (id, c) = (s.next, s.requests.length))
    (hcompleting : t.completing = s.completing)
    (hinvoked : ∀ c r, (c, r) ∈ t.invoked → (c, r) ∈ s.invoked ∨
      c = s.requests.length ∧ s.Own ⟨s.next, s.port⟩ r)
    (hsupplied : t.supplied = s.supplied) : Core t := by
  have hown : ∀ {q r}, s.Own q r → t.Own q r := by
    intro q r h
    rw [State.Own, hsupplied]
    exact h
  have hold : ∀ {c : Nat} {q : Request}, s.requests[c]? = some q → t.requests[c]? = some q := by
    intro c q h
    rw [hrequests]
    exact getElem_requests h
  have hnew : t.requests[s.requests.length]? = some (Request.mk s.next s.port) := by
    rw [hrequests]
    exact List.getElem?_concat_length
  refine ⟨?_, ?_, hparked, ?_, ?_, ?_, ?_, ?_⟩
  · intro q hq
    rw [hrequests] at hq
    rw [hnext]
    rcases List.mem_append.mp hq with hq | hq
    · exact Int64.lt_trans (hs.below q hq) (lt_succ hmax)
    · rw [List.mem_singleton.mp hq]
      exact lt_succ hmax
  · rw [hrequests, List.map_append, List.nodup_append]
    refine ⟨hs.ids, List.nodup_singleton _, ?_⟩
    intro i hi j hj hij
    obtain ⟨q, hq, rfl⟩ := List.mem_map.mp hi
    obtain rfl : j = s.next := List.mem_singleton.mp hj
    have hlt := hs.below q hq
    rw [hij] at hlt
    exact Int64.lt_irrefl hlt
  · intro id c hid
    rcases hasked id c hid with hid | hid
    · obtain ⟨q, hq, heq⟩ := hs.asked id c hid
      exact ⟨q, hold hq, heq⟩
    · cases hid
      exact ⟨_, hnew, rfl⟩
  · rw [hheld.nodup_iff, List.nodup_cons]
    exact ⟨fun hmem => Nat.lt_irrefl _ (hs.known _ hmem), hs.held⟩
  · intro c hc
    rw [hrequests, List.length_append, List.length_singleton]
    rcases List.mem_cons.mp (hheld.mem_iff.mp hc) with rfl | hc
    · exact Nat.lt_succ_self _
    · exact Nat.lt_succ_of_lt (hs.known c hc)
  · intro c r hr
    rw [hcompleting] at hr
    obtain ⟨q, hq, h⟩ := hs.completing c r hr
    exact ⟨q, hold hq, hown h⟩
  · intro c r hr
    rcases hinvoked c r hr with hr | ⟨rfl, h⟩
    · obtain ⟨q, hq, h⟩ := hs.invoked c r hr
      exact ⟨q, hold hq, hown h⟩
    · exact ⟨_, hnew, hown h⟩

/-- A call parks its completion under a new id, and its message goes to the open
port, or there is no port and it fails. -/
theorem Inv.ask (hs : Inv s) (hport : s.port = 0 ∨ s.opened = some s.port)
    (h : getToken s = some u) : Inv u := by
  have hcore := hs.core
  unfold getToken at h
  split at h
  · cases h
  · next hmax =>
    dsimp only at h
    split at h
    · next hnone =>
      cases h
      refine ⟨hcore.request hmax rfl rfl ?_ hcore.parked (fun _ _ h => .inl h) rfl ?_ rfl, hs.waits⟩
      · simp only [State.held, List.map_append, ← List.append_assoc]
        exact List.perm_append_singleton _ _
      · intro c r hr
        rcases List.mem_append.mp hr with hr | hr
        · exact .inl hr
        · cases List.mem_singleton.mp hr
          exact .inr ⟨rfl, .inl ⟨hnone, rfl⟩⟩
    · next hsome =>
      cases h
      have hopened : s.opened = some s.port := hport.resolve_left hsome
      have hfresh : ∀ e ∈ s.pending, e.1 ≠ s.next := by
        intro e he heq
        obtain ⟨id, c⟩ := e
        have hlt := hcore.fresh he
        rw [show id = s.next from heq] at hlt
        exact Int64.lt_irrefl hlt
      rw [assign_fresh hfresh]
      refine ⟨hcore.request hmax rfl rfl ?_ ?_ ?_ rfl (fun _ _ h => .inl h) rfl, ?_⟩
      · simp only [State.held, List.map_append, List.append_assoc]
        exact List.perm_middle
      · rw [List.map_append, List.nodup_append]
        refine ⟨hcore.parked, List.nodup_singleton _, ?_⟩
        intro i hi j hj hij
        obtain ⟨e, he, rfl⟩ := List.mem_map.mp hi
        obtain rfl : j = s.next := List.mem_singleton.mp hj
        exact hfresh e he hij
      · intro id c hid
        rcases List.mem_append.mp hid with hid | hid
        · exact .inl hid
        · exact .inr (List.mem_singleton.mp hid)
      · intro id c hid
        rcases List.mem_append.mp hid with hid | hid
        · rcases hs.waits id c hid with ⟨p, hp, hposting | hqueue⟩ | hanswering
          · exact .inl ⟨p, hp, .inl (List.mem_append_left _ hposting)⟩
          · exact .inl ⟨p, hp, .inr hqueue⟩
          · exact .inr hanswering
        · cases List.mem_singleton.mp hid
          exact .inl ⟨s.port, hopened, .inl (List.mem_append_right _ (List.mem_singleton_self _))⟩

theorem mem_or_eraseIdx {α : Type} {l : List α} {i : Nat} {x y : α} (hx : x ∈ l)
    (hy : l[i]? = some y) : x = y ∨ x ∈ l.eraseIdx i := by
  obtain ⟨j, hj⟩ := List.mem_iff_getElem?.mp hx
  by_cases hij : j = i
  · subst hij
    rw [hy] at hj
    exact .inl (Option.some.inj hj).symm
  · right
    rw [List.mem_eraseIdx_iff_getElem?]
    exact ⟨j, hij, hj⟩

/-- A message is queued on the open port, or it was for another. -/
theorem Inv.post (hs : Inv s) {i p : Nat} {allocated : Bool} (hi : s.posting[i]? = some (id, p))
    (ha : s.Parked id → allocated = true) :
    Inv (fdbPostBuffer { s with posting := s.posting.eraseIdx i } p id allocated) := by
  have hcore := hs.core
  unfold fdbPostBuffer
  split
  · next hposted =>
    have hopened : s.opened = some p := of_decide_eq_true (Bool.and_eq_true_iff.mp hposted).2
    refine ⟨hcore.routed _ _ _ _ _ _ _, ?_⟩
    intro j c hj
    rcases hs.waits j c hj with ⟨o, ho, hposting | hqueue⟩ | hanswering
    · rcases mem_or_eraseIdx hposting hi with heq | hposting
      · cases heq
        exact .inl ⟨p, hopened, .inr (List.mem_append_right _ (List.mem_singleton_self _))⟩
      · exact .inl ⟨o, ho, .inl hposting⟩
    · exact .inl ⟨o, ho, .inr (List.mem_append_left _ hqueue)⟩
    · exact .inr hanswering
  · next hlost =>
    have hopened : s.Parked id → s.opened ≠ some p := by
      intro hid h
      exact hlost (Bool.and_eq_true_iff.mpr ⟨ha hid, decide_eq_true h⟩)
    refine ⟨hcore.routed _ _ _ _ _ _ _, ?_⟩
    intro j c hj
    rcases hs.waits j c hj with ⟨o, ho, hposting | hqueue⟩ | hanswering
    · rcases mem_or_eraseIdx hposting hi with heq | hposting
      · cases heq
        exact absurd ho (hopened ⟨c, hj⟩)
      · exact .inl ⟨o, ho, .inl hposting⟩
    · exact .inl ⟨o, ho, .inr hqueue⟩
    · exact .inr hanswering

theorem told_read {r : Result} (ha : a.Whole) (h : a.told = some r) :
    cString r.token.token = r.token.token ∧ cString r.message = r.message := by
  obtain ⟨r', hr', htoken, hmessage⟩ := ha
  rw [h] at hr'
  obtain rfl := Option.some.inj hr'
  exact ⟨Tinycbor.cString_eq_self.mpr htoken, Tinycbor.cString_eq_self.mpr hmessage⟩

/-- An answer for an id that is not parked is dropped. -/
theorem answer_absent (h : s.pending.lookup id = none) :
    answer s id a = { s with supplied := s.supplied ++ [(id, a)] } := by
  cases a with
  | token text expiry => simp only [answer, fdbAcSupplyToken, h]
  | threw message =>
    cases message with
    | none => rfl
    | some m => simp only [answer, fdbAcSupplyToken, h]

/-- The completion that is parked under an id is taken out with the answer. -/
theorem answer_found {c : Nat} (ha : a.Whole) (h : s.pending.lookup id = some c) :
    ∃ r, a.told = some r ∧ answer s id a = { s with
      supplied := s.supplied ++ [(id, a)]
      pending := erase s.pending id
      completing := s.completing ++ [(c, r)] } := by
  have hwhole := ha
  obtain ⟨r, hr, -⟩ := hwhole
  refine ⟨r, hr, ?_⟩
  obtain ⟨htoken, hmessage⟩ := told_read ha hr
  cases a with
  | token text expiry =>
    cases hr
    have htoken : cString text = text := htoken
    simp only [answer, fdbAcSupplyToken, h, if_pos, htoken]
    rfl
  | threw message =>
    cases message with
    | none => cases hr
    | some m =>
      cases hr
      have hmessage : cString m = m := hmessage
      simp only [answer, fdbAcSupplyToken, h, hmessage]
      rfl

theorem own_supplied {q : Request} {r : Result} {e : Int64 × Supplied} {t : State}
    (ht : t.supplied = s.supplied ++ [e]) (h : s.Own q r) : t.Own q r := by
  rcases h with h | ⟨b, hb, hr⟩
  · exact .inl h
  · refine .inr ⟨b, ?_, hr⟩
    rw [ht]
    exact List.mem_append_left _ hb

/-- After an answer its id is not parked, and the others are as they were. -/
theorem Core.answer (hs : Core s) (ha : s.Parked id → a.Whole) : Core (answer s id a) ∧
    ∀ j c, (j, c) ∈ (AppCheck.answer s id a).pending → (j, c) ∈ s.pending ∧ j ≠ id := by
  cases hid : s.pending.lookup id with
  | none =>
    rw [answer_absent hid]
    refine ⟨⟨hs.below, hs.ids, hs.parked, hs.asked, hs.held, hs.known, ?_, ?_⟩, ?_⟩
    · intro c r hr
      obtain ⟨q, hq, hown⟩ := hs.completing c r hr
      exact ⟨q, hq, own_supplied rfl hown⟩
    · intro c r hr
      obtain ⟨q, hq, hown⟩ := hs.invoked c r hr
      exact ⟨q, hq, own_supplied rfl hown⟩
    · intro j c hj
      refine ⟨hj, ?_⟩
      rintro rfl
      have hne := List.lookup_eq_none_iff.mp hid _ hj
      simp at hne
  | some c =>
    have hperm := erase_perm hs.parked hid
    have hmem : (id, c) ∈ s.pending := hperm.mem_iff.mpr List.mem_cons_self
    obtain ⟨r, hr, heq⟩ := @answer_found s id a c (ha ⟨c, hmem⟩) hid
    rw [heq]
    have hheld : ((erase s.pending id).map Prod.snd ++ ((s.completing ++ [(c, r)]).map Prod.fst ++
        s.invoked.map Prod.fst)).Perm s.held := by
      rw [List.map_append, List.append_assoc]
      refine List.Perm.trans ?_ ((hperm.map Prod.snd).symm.append_right _)
      rw [← List.append_assoc]
      exact List.perm_middle.trans (.of_eq (by rw [List.append_assoc]; rfl))
    refine ⟨⟨hs.below, hs.ids, ?_, ?_, ?_, ?_, ?_, ?_⟩, ?_⟩
    · exact hs.parked.sublist (List.filter_sublist.map Prod.fst)
    · intro j d hj
      exact hs.asked j d (mem_erase.mp hj).1
    · exact hheld.nodup_iff.mpr hs.held
    · intro d hd
      exact hs.known d (hheld.mem_iff.mp hd)
    · intro d r' hd
      rcases List.mem_append.mp hd with hd | hd
      · obtain ⟨q, hq, hown⟩ := hs.completing d r' hd
        exact ⟨q, hq, own_supplied rfl hown⟩
      · cases List.mem_singleton.mp hd
        obtain ⟨q, hq, hqid⟩ := hs.asked id c hmem
        refine ⟨q, hq, .inr ⟨a, ?_, hr⟩⟩
        rw [hqid]
        exact List.mem_append_right _ (List.mem_singleton_self _)
    · intro d r' hd
      obtain ⟨q, hq, hown⟩ := hs.invoked d r' hd
      exact ⟨q, hq, own_supplied rfl hown⟩
    · intro j d hj
      exact mem_erase.mp hj

theorem Inv.answer (hs : Core s) (ha : s.Parked id → a.Whole)
    (hwaits : ∀ j c, (j, c) ∈ s.pending → j ≠ id → s.Waits j) : Inv (AppCheck.answer s id a) := by
  obtain ⟨hcore, hold⟩ := @Core.answer s id a hs ha
  have hsame : ∀ j, (AppCheck.answer s id a).Waits j ↔ s.Waits j := by
    intro j
    cases hid : s.pending.lookup id with
    | none => rw [answer_absent hid]; rfl
    | some c =>
      have hmem := (lookup_mem hs.parked).mp hid
      obtain ⟨r, -, heq⟩ := @answer_found s id a c (ha ⟨c, hmem⟩) hid
      rw [heq]
      rfl
  refine ⟨hcore, ?_⟩
  intro j c hj
  obtain ⟨hj, hne⟩ := hold j c hj
  exact (hsame j).mpr (hwaits j c hj hne)

/-- A completion that was taken out is invoked. -/
theorem Inv.invoke (hs : Inv s) {i : Nat} {e : Nat × Result} (hi : s.completing[i]? = some e) :
    Inv { s with completing := s.completing.eraseIdx i, invoked := s.invoked ++ [e] } := by
  have hcore := hs.core
  have hperm : s.completing.Perm (e :: s.completing.eraseIdx i) := by
    obtain ⟨hlt, heq⟩ := List.getElem?_eq_some_iff.mp hi
    rw [← heq]
    exact (List.getElem_cons_eraseIdx_perm hlt).symm
  have hheld : (s.pending.map Prod.snd ++ ((s.completing.eraseIdx i).map Prod.fst ++
      (s.invoked ++ [e]).map Prod.fst)).Perm s.held := by
    refine List.Perm.append_left _ ?_
    refine List.Perm.trans ?_ ((hperm.map Prod.fst).symm.append_right _)
    rw [List.map_append, ← List.append_assoc]
    exact List.perm_append_singleton _ _
  refine ⟨⟨hcore.below, hcore.ids, hcore.parked, hcore.asked, hheld.nodup_iff.mpr hcore.held, ?_,
    ?_, ?_⟩, hs.waits⟩
  · intro c hc
    exact hcore.known c (hheld.mem_iff.mp hc)
  · intro c r hr
    exact hcore.completing c r (List.mem_of_mem_eraseIdx hr)
  · intro c r hr
    rcases List.mem_append.mp hr with hr | hr
    · exact hcore.invoked c r hr
    · obtain rfl := List.mem_singleton.mp hr
      exact hcore.completing c r (List.mem_of_getElem? hi)

theorem Inv.step {b : Action} (hs : Inv s) (hb : Undropped s b) (h : step s b = some u) : Inv u := by
  have hcore := hs.core
  cases b with
  | ask limited =>
    have hask : getToken s = some u := by cases limited <;> exact h
    exact hs.ask hb hask
  | post i allocated =>
    simp only [AppCheck.step] at h
    split at h
    · next e hi =>
      obtain ⟨id, p⟩ := e
      cases h
      exact hs.post hi (hb _ hi)
    · cases h
  | close =>
    simp only [AppCheck.step] at h
    split at h
    · cases h
    · cases h
      refine ⟨hcore.routed _ _ _ _ _ _ _, ?_⟩
      intro id c hid
      exact .inr (hb id ⟨c, hid⟩)
  | install =>
    simp only [AppCheck.step] at h
    split at h
    · cases h
      exact ⟨hcore.routed _ _ _ _ _ _ _, hs.waits⟩
    · cases h
  | deliver =>
    simp only [AppCheck.step] at h
    split at h
    · next id rest _ hqueue =>
      cases h
      refine ⟨hcore.routed _ _ _ _ _ _ _, ?_⟩
      intro j c hj
      rcases hs.waits j c hj with ⟨p, hp, hposting | hmem⟩ | hanswering
      · exact .inl ⟨p, hp, .inl hposting⟩
      · rw [hqueue] at hmem
        rcases List.mem_cons.mp hmem with rfl | hmem
        · exact .inr (List.mem_append_right _ (List.mem_singleton_self _))
        · exact .inl ⟨p, hp, .inr hmem⟩
      · exact .inr (List.mem_append_left _ hanswering)
    · cases h
  | answer i a =>
    simp only [AppCheck.step] at h
    split at h
    · next id _ hi =>
      cases h
      have hcore' : Core { s with answering := s.answering.eraseIdx i } :=
        hcore.routed _ _ _ _ _ _ _
      refine Inv.answer hcore' (hb id hi) ?_
      intro j c hj hne
      rcases hs.waits j c hj with hdeliverable | hanswering
      · exact .inl hdeliverable
      · rcases mem_or_eraseIdx hanswering hi with heq | hanswering
        · exact absurd heq hne
        · exact .inr hanswering
    · cases h
  | supply id a =>
    simp only [AppCheck.step] at h
    split at h
    · cases h
    · cases h
      exact Inv.answer hcore hb fun j c hj _ => hs.waits j c hj
  | invoke i =>
    simp only [AppCheck.step] at h
    split at h
    · next e hi =>
      cases h
      exact hs.invoke hi
    · cases h

/-- As long as the provider is installed again only when nothing is on its way to
the port it closes, every parked request can still be answered, and every
completion is invoked once at most and with its own answer. -/
theorem requests_served (s : State) (h : Run step Undropped .start s) : Served s := by
  have hinv : Inv s := h.invariant .start fun t b u ht hb hstep => ht.step hb hstep
  have hcore := hinv.core
  refine ⟨hcore.ids, hcore.parked, ?_, hcore.invoked, hinv.waits⟩
  exact (List.nodup_append.mp (List.nodup_append.mp hcore.held).2.1).2.1

/-- A request that is answered before the provider is installed again. -/
def answered : List Action :=
  [.close, .install, .ask false, .post 0 true, .deliver, .answer 0 (.token (ascii "t") 7), .invoke 0,
    .close, .install]

theorem answered_served : ∃ s, exec step .start answered = some s ∧
    s.invoked.map Prod.fst = [0] ∧ Served s := by
  have hexec : exec step .start answered = some _ := rfl
  refine ⟨_, hexec, rfl, requests_served _ (Run.of_exec hexec ?_)⟩
  have hnone : ∀ id, ¬ ∃ c, (id, c) ∈ ([] : List (Int64 × Nat)) := by
    intro id h
    obtain ⟨c, hc⟩ := h
    cases hc
  refine .next (fun id h => absurd h (hnone id)) rfl ?_
  refine .next trivial rfl ?_
  refine .next (.inr rfl) rfl ?_
  refine .next (fun _ _ _ => rfl) rfl ?_
  refine .next trivial rfl ?_
  refine .next (fun _ _ _ => ⟨_, rfl, by simp [ascii], by simp⟩) rfl ?_
  refine .next trivial rfl ?_
  refine .next (fun id h => absurd h (hnone id)) rfl ?_
  exact .next trivial rfl trivial

/-- The provider is installed again while a request is queued on its port. -/
def reinstalled : List Action :=
  [.close, .install, .ask false, .post 0 true, .close, .install]

/-- Nobody is left to answer the request. -/
theorem reinstalled_unserved : ∃ s, Run step (fun _ _ => True) .start s ∧
    s.pending = [(1, 0)] ∧ ¬ Served s := by
  have hexec : exec step .start reinstalled = some _ := rfl
  refine ⟨_, Run.of_exec hexec (.unguarded _), rfl, ?_⟩
  intro h
  rcases h.answerable 1 0 (List.mem_singleton_self _) with ⟨p, -, hposting | hqueue⟩ | hanswering
  · cases hposting
  · cases hqueue
  · cases hanswering

end AppCheck
