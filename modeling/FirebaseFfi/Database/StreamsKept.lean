import FirebaseFfi.Database.Streams

namespace Database
open Assoc Cbor Dart Machine Tinycbor
open Firebase (Less)

section Invariant

variable (package : CborPackage) (less : Less)

/-- The listener is the one that the call asks for. -/
def Asked (call : StreamCall) (listener : Listener) : Prop :=
  ∃ database c, call.listenCall package database listener.port = .ok c ∧
    c.listener less = some listener

/-- The listener that feeds a stream was made for it, and all that it posted was
sent to its port. -/
structure Fed (n : Listening) (reports : Nat → List (Int64 × Report)) (s : DbStream) (l : Nat) :
    Prop where
  made : ∃ listener, n.created[l]? = some listener ∧ Asked package less s.call listener
  sent : s.inbox.sent = (postAll less (reports l)).2

/-- A live stream has its listener under its handle, and that has the stream's
port. -/
structure Keeps (n : Listening) (s : DbStream) (port handle : Int64) (l : Nat)
    (listener : Listener) : Prop where
  source : s.source = some l
  held : (handle, l) ∈ n.table s.call.kind
  created : n.created[l]? = some listener
  port : listener.port = port
  given : s.call.givesBack handle = true

/-- The error is the one that a native call answers with. -/
def RefusedWith (call : StreamCall) (error : DbError) : Prop :=
  ∃ rc : Int64, (rc = -1 ∨ rc = -2 ∨ rc = -3) ∧
    (call.refused rc = .refused error ∨ call.refused rc = .failed error)

/-- The query of the call cannot be encoded. -/
def Unencodable (call : StreamCall) : Prop :=
  ∃ database port thrown, call.listenCall package database port = .error thrown

structure StreamInv (n : Listening) (reports : Nat → List (Int64 × Report)) (s : DbStream) :
    Prop where
  fed : ∀ l, s.source = some l → Fed package less n reports s l
  unfed : s.source = none → s.inbox.sent = []
  added : s.out.sent =
    s.inbox.received.filterMap (s.call.handled package) ++ (s.refusal.map StreamItem.error).toList
  live : ∀ port handle, s.phase = .live port handle →
    ∃ l listener, Keeps n s port handle l listener
  started : s.source ≠ none →
    ((∃ port handle, s.phase = .live port handle) ∨ s.phase = .cancelled) ∧ s.refusal = none
  refused : ∀ error, s.phase = .refused error ∨ s.phase = .failed error ∨
    s.refusal = some error → RefusedWith s.call error
  ended : s.refusal ≠ none → s.phase = .closed ∨ s.phase = .cancelled
  heard : s.phase = .cancelled → s.listened = true
  halted : ∀ port, s.phase = .halted port → Unencodable package s.call

structure WatchInv (w : Watching) : Prop where
  listen : ListenInv w.listening
  seq : ∀ l, w.seq l = (postAll less (w.reports l)).1
  fresh : ∀ l, w.listening.created.length ≤ l → w.reports l = []
  streams : ∀ {i : Nat} {s}, w.streams[i]? = some s →
    StreamInv package less w.listening w.reports s
  apart : ∀ {i j : Nat} {s t l}, w.streams[i]? = some s → w.streams[j]? = some t → s.source = some l →
    t.source = some l → i = j
  owned : ∀ {kind l}, (kind, l) ∈ w.listening.registered → ∃ (i : Nat) (s : DbStream), w.streams[i]? = some s ∧
    s.source = some l ∧ s.call.kind = kind ∧ ∃ port handle, s.phase = .live port handle
  ports : ∀ {i j : Nat} {s t port}, w.streams[i]? = some s → w.streams[j]? = some t →
    s.phase.port = some port → t.phase.port = some port → i = j

end Invariant

section Streams

variable {package : CborPackage} {less : Less} {n n' : Listening}
  {reports reports' : Nat → List (Int64 × Report)} {s s' : DbStream} {w : Watching} {i : Nat}

/-- Nothing is said of the listeners but of the stream's own. -/
theorem StreamInv.frame (h : StreamInv package less n reports s)
    (hcreated : ∀ l listener, s.source = some l → n.created[l]? = some listener →
      n'.created[l]? = some listener)
    (htable : ∀ l handle, s.source = some l → (handle, l) ∈ n.table s.call.kind →
      (∃ port, s.phase = .live port handle) → (handle, l) ∈ n'.table s.call.kind)
    (hreports : ∀ l, s.source = some l → reports' l = reports l) :
    StreamInv package less n' reports' s := by
  refine ⟨?_, h.unfed, h.added, ?_, h.started, h.refused, h.ended, h.heard, h.halted⟩
  · intro l hl
    obtain ⟨⟨listener, hlistener, hasked⟩, hsent⟩ := h.fed l hl
    refine ⟨⟨listener, hcreated l listener hl hlistener, hasked⟩, ?_⟩
    rw [hreports l hl]
    exact hsent
  · intro port handle hphase
    obtain ⟨l, listener, hkeeps⟩ := h.live port handle hphase
    exact ⟨l, listener, hkeeps.source, htable l handle hkeeps.source hkeeps.held ⟨port, hphase⟩,
      hcreated l listener hkeeps.source hkeeps.created, hkeeps.port, hkeeps.given⟩

theorem WatchInv.start : WatchInv package less .start := by
  refine ⟨.start, fun l => rfl, fun l _ => rfl, ?_, ?_, ?_, ?_⟩
  · intro i s h
    cases h
  · intro i j s t l h
    cases h
  · intro kind l h
    cases h
  · intro i j s t port h
    cases h

theorem StreamInv.new (call : StreamCall) : StreamInv package less n reports (.new call) := by
  refine ⟨?_, fun _ => rfl, rfl, ?_, ?_, ?_, ?_, ?_, ?_⟩
  · intro l hl
    cases hl
  · intro port handle h
    cases h
  · intro h
    exact absurd rfl h
  · rintro error (h | h | h) <;> cases h
  · intro h
    exact absurd rfl h
  · intro h
    cases h
  · intro port h
    cases h

theorem set_cases {j : Nat} {t : DbStream} (h : (w.streams.set i s')[j]? = some t) :
    (j = i ∧ t = s') ∨ (j ≠ i ∧ w.streams[j]? = some t) := by
  rw [List.getElem?_set] at h
  split at h
  · next hij =>
    split at h
    · exact .inl ⟨hij.symm, (Option.some.inj h).symm⟩
    · cases h
  · next hij => exact .inr ⟨Ne.symm hij, h⟩

/-- A stream is replaced, with the listener tables and reports there are then. -/
theorem WatchInv.replace (h : WatchInv package less w) (hi : w.streams[i]? = some s)
    (hn : ListenInv n) {seq : Nat → Int64} (hseq : ∀ l, seq l = (postAll less (reports l)).1)
    (hfresh : ∀ l, n.created.length ≤ l → reports l = [])
    (hs : StreamInv package less n reports s')
    (hothers : ∀ {j : Nat} {t}, j ≠ i → w.streams[j]? = some t →
      StreamInv package less n reports t)
    (hapart : ∀ {j : Nat} {t l}, j ≠ i → w.streams[j]? = some t → s'.source = some l →
      t.source ≠ some l)
    (howned : ∀ {kind l}, (kind, l) ∈ n.registered →
      (s'.source = some l ∧ s'.call.kind = kind ∧ ∃ port handle, s'.phase = .live port handle) ∨
      ∃ (j : Nat) (t : DbStream), j ≠ i ∧ w.streams[j]? = some t ∧ t.source = some l ∧
        t.call.kind = kind ∧ ∃ port handle, t.phase = .live port handle)
    (hports : ∀ {j : Nat} {t port}, j ≠ i → w.streams[j]? = some t →
      s'.phase.port = some port → t.phase.port ≠ some port) :
    WatchInv package less ⟨n, seq, reports, w.streams.set i s'⟩ := by
  have hlt : i < w.streams.length := (List.getElem?_eq_some_iff.mp hi).1
  refine ⟨hn, hseq, hfresh, ?_, ?_, ?_, ?_⟩
  · intro j t ht
    rcases set_cases ht with ⟨-, rfl⟩ | ⟨hj, ht⟩
    · exact hs
    · exact hothers hj ht
  · intro j k t u l ht hu htl hul
    rcases set_cases ht with ⟨rfl, rfl⟩ | ⟨hj, htj⟩
    · rcases set_cases hu with ⟨rfl, rfl⟩ | ⟨hk, huk⟩
      · rfl
      · exact absurd hul (hapart hk huk htl)
    · rcases set_cases hu with ⟨rfl, rfl⟩ | ⟨hk, huk⟩
      · exact absurd htl (hapart hj htj hul)
      · exact h.apart htj huk htl hul
  · intro kind l hl
    rcases howned hl with hown | ⟨j, t, hj, ht, hown⟩
    · exact ⟨i, s', by simp [hlt], hown⟩
    · refine ⟨j, t, ?_, hown⟩
      show (w.streams.set i s')[j]? = some t
      rw [List.getElem?_set_ne (Ne.symm hj)]
      exact ht
  · intro j k t u port ht hu htp hup
    rcases set_cases ht with ⟨rfl, rfl⟩ | ⟨hj, htj⟩
    · rcases set_cases hu with ⟨rfl, rfl⟩ | ⟨hk, huk⟩
      · rfl
      · exact absurd hup (hports hk huk htp)
    · rcases set_cases hu with ⟨rfl, rfl⟩ | ⟨hk, huk⟩
      · exact absurd htp (hports hj htj hup)
      · exact h.ports htj huk htp hup

/-- A stream goes on with the same listener and port. -/
theorem WatchInv.set (h : WatchInv package less w) (hi : w.streams[i]? = some s)
    (hs : StreamInv package less w.listening w.reports s') (hsource : s'.source = s.source)
    (hcall : s'.call = s.call) (hport : s'.phase.port = s.phase.port)
    (hlive : ∀ port handle, s.phase = .live port handle → s'.phase = .live port handle) :
    WatchInv package less { w with streams := w.streams.set i s' } := by
  refine h.replace hi h.listen h.seq h.fresh hs (fun _ ht => h.streams ht) ?_ ?_ ?_
  · intro j t l hj ht hl htl
    rw [hsource] at hl
    exact hj (h.apart ht hi htl hl)
  · intro kind l hl
    obtain ⟨j, t, ht, htl, hkind, port, handle, hphase⟩ := h.owned hl
    by_cases hj : j = i
    · subst hj
      obtain rfl := Option.some.inj (ht.symm.trans hi)
      exact .inl ⟨hsource.trans htl, hcall ▸ hkind, port, handle, hlive port handle hphase⟩
    · exact .inr ⟨j, t, hj, ht, htl, hkind, port, handle, hphase⟩
  · intro j t port hj ht hp htp
    rw [hport] at hp
    exact hj (h.ports ht hi htp hp)

/-- A stream with an open port has added no error of its own. -/
theorem StreamInv.unrefused (h : StreamInv package less n reports s)
    (hphase : s.phase ≠ .closed ∧ s.phase ≠ .cancelled) : s.refusal = none := by
  by_contra hne
  rcases h.ended hne with hclosed | hcancelled
  · exact hphase.1 hclosed
  · exact hphase.2 hcancelled

theorem StreamInv.message (h : StreamInv package less n reports s)
    (hm : s.message package = some s') :
    StreamInv package less n reports s' ∧ s'.source = s.source ∧ s'.call = s.call ∧
      s'.phase = s.phase := by
  unfold DbStream.message at hm
  split at hm
  · cases hm
  · next hport =>
    obtain ⟨⟨bytes, inbox⟩, hreceive, hs'⟩ := Option.map_eq_some_iff.mp hm
    obtain ⟨hsent, hreceived, -⟩ := Channel.receive_cases hreceive
    have hnone : s.refusal = none := by
      apply h.unrefused
      constructor <;>
      · intro hphase
        rw [hphase] at hport
        exact hport rfl
    have hadded := h.added
    rw [hnone] at hadded
    have hfed : ∀ out : Channel StreamItem, ∀ l, s.source = some l →
        Fed package less n reports { s with inbox := inbox, out := out } l := by
      intro out l hl
      exact ⟨(h.fed l hl).made, hsent.trans (h.fed l hl).sent⟩
    have hkeeps : ∀ out : Channel StreamItem, ∀ port handle, s.phase = .live port handle →
        ∃ l listener, Keeps n { s with inbox := inbox, out := out } port handle l listener := by
      intro out port handle hphase
      obtain ⟨l, listener, hk⟩ := h.live port handle hphase
      exact ⟨l, listener, hk.source, hk.held, hk.created, hk.port, hk.given⟩
    cases hitem : s.call.handled package bytes with
    | some item =>
      simp only [hitem] at hs'
      subst hs'
      refine ⟨⟨hfed _, fun hsource => hsent.trans (h.unfed hsource), ?_, hkeeps _, h.started,
        h.refused, h.ended, h.heard, h.halted⟩, rfl, rfl, rfl⟩
      simp [hnone, hreceived, hadded, hitem]
    | none =>
      simp only [hitem] at hs'
      subst hs'
      refine ⟨⟨hfed _, fun hsource => hsent.trans (h.unfed hsource), ?_, hkeeps _, h.started,
        h.refused, h.ended, h.heard, h.halted⟩, rfl, rfl, rfl⟩
      simp [hnone, hreceived, hadded, hitem]

theorem StreamInv.deliver (h : StreamInv package less n reports s) (hd : s.deliver = some s') :
    StreamInv package less n reports s' ∧ s'.source = s.source ∧ s'.call = s.call ∧
      s'.phase = s.phase := by
  unfold DbStream.deliver at hd
  split at hd
  · cases hd
  · cases hd
  · obtain ⟨⟨item, out⟩, hreceive, rfl⟩ := Option.map_eq_some_iff.mp hd
    obtain ⟨hsent, -, -⟩ := Channel.receive_cases hreceive
    refine ⟨⟨?_, h.unfed, hsent.trans h.added, ?_, h.started, h.refused, h.ended, h.heard, h.halted⟩, rfl, rfl, rfl⟩
    · intro l hl
      exact ⟨(h.fed l hl).made, (h.fed l hl).sent⟩
    · intro port handle hphase
      obtain ⟨l, listener, hk⟩ := h.live port handle hphase
      exact ⟨l, listener, hk.source, hk.held, hk.created, hk.port, hk.given⟩

/-- Whether a stream is listened to says nothing about what feeds it. -/
theorem StreamInv.listened (h : StreamInv package less n reports s) :
    StreamInv package less n reports { s with listened := true } := by
  refine ⟨?_, h.unfed, h.added, ?_, h.started, h.refused, h.ended, fun _ => rfl, h.halted⟩
  · intro l hl
    exact ⟨(h.fed l hl).made, (h.fed l hl).sent⟩
  · intro port handle hphase
    obtain ⟨l, listener, hk⟩ := h.live port handle hphase
    exact ⟨l, listener, hk.source, hk.held, hk.created, hk.port, hk.given⟩

/-- The error of a stream that no listener was made for. -/
theorem StreamInv.addError (h : StreamInv package less n reports s) {error : DbError}
    (hphase : s.phase = .refused error ∨ s.phase = .failed error) :
    StreamInv package less n reports (s.addError error) ∧ s.phase.port = none := by
  have hnone : s.refusal = none := by
    apply h.unrefused
    rcases hphase with hphase | hphase <;> simp [hphase]
  have hsource : s.source = none := by
    by_contra hne
    rcases (h.started hne).1 with ⟨port, handle, hlive⟩ | hcancelled <;>
      rcases hphase with hphase | hphase <;> simp_all
  have hempty : s.inbox.received = [] := by
    have hflow := s.inbox.flow
    rw [h.unfed hsource] at hflow
    exact (List.append_eq_nil_iff.mp hflow.symm).1
  have hport : s.phase.port = none := by
    rcases hphase with hphase | hphase <;> simp [hphase, Phase.port]
  refine ⟨⟨?_, h.unfed, ?_, ?_, ?_, ?_, fun _ => .inl rfl, ?_, ?_⟩, hport⟩
  · intro l hl
    cases hsource.symm.trans hl
  · have hadded := h.added
    rw [hnone, hempty] at hadded
    simp [DbStream.addError, hadded, hempty]
  · intro port handle hlive
    cases hlive
  · intro hne
    exact absurd hsource hne
  · rintro e (he | he | he)
    · cases he
    · cases he
    · obtain rfl := Option.some.inj he
      exact h.refused error (hphase.elim .inl fun hfailed => .inr (.inl hfailed))
  · intro hcancelled
    cases hcancelled
  · intro port hhalted
    cases hhalted

/-- A new listener under a handle, for the call and the port. -/
structure Begun (package : CborPackage) (less : Less) (s : DbStream) (n n' : Listening)
    (port handle : Int64) (listener : Listener) : Prop where
  added : Added n listener handle n'
  listen : ListenInv n'
  kind : listener.kind = s.call.kind
  port : listener.port = port
  asked : Asked package less s.call listener
  given : s.call.givesBack handle = true

theorem listener_made {call : StreamCall} {database : Bool} {port : Int64} {c : ListenCall}
    {listener : Listener} (hc : call.listenCall package database port = .ok c)
    (hl : c.listener less = some listener) :
    listener.kind = call.kind ∧ listener.port = port := by
  cases call with
  | onValue path =>
    cases hc
    cases hl
    exact ⟨rfl, rfl⟩
  | onQueryValue path query =>
    obtain ⟨spec, -, hspec⟩ := bind_ok hc
    cases hspec
    rw [ListenCall.listener, Option.bind_some] at hl
    obtain ⟨query, -, rfl⟩ := Option.map_eq_some_iff.mp hl
    exact ⟨rfl, rfl⟩
  | onChildEvent path query =>
    obtain ⟨spec, -, hspec⟩ := bind_ok hc
    cases hspec
    rw [ListenCall.listener, Option.bind_some] at hl
    obtain ⟨query, -, rfl⟩ := Option.map_eq_some_iff.mp hl
    exact ⟨rfl, rfl⟩

/-- What becomes of a stream that starts: nothing is asked of the native side, it
refuses, or it makes a listener. -/
theorem begin_cases (hn : ListenInv n) {database : Bool} {port : Int64}
    (h : s.begin package less n database port = some (n', s')) :
    (n' = n ∧ Unencodable package s.call ∧ s' = { s with phase := .halted port }) ∨
    (n' = n ∧ ∃ rc : Int64, (rc = -1 ∨ rc = -2 ∨ rc = -3) ∧
      s' = { s with phase := s.call.refused rc }) ∨
    (∃ handle listener, Begun package less s n n' port handle listener ∧
      s' = { s with phase := .live port handle, source := some n.created.length }) := by
  unfold DbStream.begin at h
  split at h
  · next thrown hthrown =>
    cases h
    exact .inl ⟨rfl, ⟨database, port, thrown, hthrown⟩, rfl⟩
  · next c hc =>
    obtain ⟨⟨after, handle⟩, hrun, hs'⟩ := Option.map_eq_some_iff.mp h
    rcases hn.answers hrun with ⟨l, hl, hadded, hfailed, hheld⟩ | ⟨hrc, rfl, hfailed, -⟩
    · simp only [hfailed] at hs'
      cases hs'
      obtain ⟨hkind, hport⟩ := listener_made hc hl
      refine .inr (.inr ⟨handle, l, ⟨hadded, ?_, hkind, hport, ?_, ?_⟩, rfl⟩)
      · rcases run_cases hrun with ⟨_, -, hadd⟩ | ⟨-, heq⟩
        · exact hn.add hadd
        · rw [heq]
          exact hn
      · exact ⟨database, c, hport ▸ hc, hl⟩
      · unfold StreamCall.givesBack
        split
        · rfl
        · exact hheld
    · simp only [hfailed] at hs'
      cases hs'
      exact .inr (.inl ⟨rfl, handle, hrc, rfl⟩)

/-- The listeners there were stay as they were beside a new one. -/
theorem StreamInv.beside (h : StreamInv package less n reports s) {listener : Listener}
    {handle : Int64} (hadded : Added n listener handle n') :
    StreamInv package less n' reports s := by
  apply h.frame
  · intro l x _ hl
    rw [hadded.created]
    exact List.getElem?_append_left (List.getElem?_eq_some_iff.mp hl).1 ▸ hl
  · intro l k _ hmem _
    exact (mem_added hadded).mpr (.inl hmem)
  · intro l _
    rfl

theorem StreamInv.unstarted (h : StreamInv package less n reports s) (hphase : s.phase = .idle) :
    s.source = none ∧ s.refusal = none := by
  refine ⟨?_, h.unrefused (by simp [hphase])⟩
  by_contra hne
  rcases (h.started hne).1 with ⟨port, handle, hlive⟩ | hcancelled <;> simp_all

/-- A stream that is not fed goes on without a listener. -/
theorem StreamInv.unfed_phase (h : StreamInv package less n reports s) (hidle : s.phase = .idle)
    {phase : Phase} (hlive : ∀ port handle, phase ≠ .live port handle)
    (hrefused : ∀ error, phase = .refused error ∨ phase = .failed error →
      RefusedWith s.call error) (hgoes : phase ≠ .cancelled)
    (hhalted : ∀ port, phase = .halted port → Unencodable package s.call) :
    StreamInv package less n reports { s with phase := phase } := by
  obtain ⟨hsource, hnone⟩ := h.unstarted hidle
  refine ⟨?_, h.unfed, h.added, ?_, ?_, ?_, ?_, fun hphase => absurd hphase hgoes, hhalted⟩
  · intro l hl
    cases hsource.symm.trans hl
  · intro port handle hphase
    exact absurd hphase (hlive port handle)
  · intro hne
    exact absurd hsource hne
  · rintro error (he | he | he)
    · exact hrefused error (.inl he)
    · exact hrefused error (.inr he)
    · cases hnone.symm.trans he
  · intro hne
    exact absurd hnone hne

theorem free_port {port : Int64} (hport : port ∉ w.ports) {j : Nat} {t : DbStream}
    (ht : w.streams[j]? = some t) : t.phase.port ≠ some port := by
  intro htp
  exact hport (List.mem_filterMap.mpr ⟨t, List.mem_of_getElem? ht, htp⟩)

/-- A stream that is idle starts on a port of its own. -/
theorem WatchInv.begin (h : WatchInv package less w) (hi : w.streams[i]? = some s)
    (hidle : s.phase = .idle) {database : Bool} {port : Int64}
    (hfree : ∀ {j : Nat} {t}, w.streams[j]? = some t → t.phase.port ≠ some port)
    (hbegin : s.begin package less w.listening database port = some (n', s')) :
    WatchInv package less { w with listening := n', streams := w.streams.set i s' } := by
  have hs := h.streams hi
  obtain ⟨hsource, hnone⟩ := hs.unstarted hidle
  have hkept : ∀ {kind l}, (kind, l) ∈ w.listening.registered →
      ∃ (j : Nat) (t : DbStream), j ≠ i ∧ w.streams[j]? = some t ∧ t.source = some l ∧
        t.call.kind = kind ∧ ∃ port handle, t.phase = .live port handle := by
    intro kind l hl
    obtain ⟨j, t, ht, htl, hrest⟩ := h.owned hl
    refine ⟨j, t, ?_, ht, htl, hrest⟩
    rintro rfl
    obtain rfl := Option.some.inj (ht.symm.trans hi)
    cases hsource.symm.trans htl
  rcases begin_cases h.listen hbegin with
    ⟨rfl, hthrows, rfl⟩ | ⟨rfl, rc, hrc, rfl⟩ | ⟨handle, listener, hbegun, rfl⟩
  · refine h.replace hi h.listen h.seq h.fresh ?_ (fun _ ht => h.streams ht) ?_
      (fun hl => .inr (hkept hl)) ?_
    · refine hs.unfed_phase hidle (fun _ _ hphase => by cases hphase) ?_
        (fun hphase => by cases hphase) fun _ _ => hthrows
      rintro e (he | he) <;> cases he
    · intro j t l _ _ hl
      cases hsource.symm.trans hl
    · intro j t p _ ht hp
      obtain rfl := Option.some.inj hp
      exact hfree ht
  · have hneither : ∀ port handle, s.call.refused rc ≠ .live port handle := by
      intro port handle hphase
      cases hcall : s.call <;> rw [hcall] at hphase <;> cases hphase
    have hclosed : (s.call.refused rc).port = none := by
      cases s.call <;> rfl
    refine h.replace hi h.listen h.seq h.fresh ?_ (fun _ ht => h.streams ht) ?_
      (fun hl => .inr (hkept hl)) ?_
    · refine hs.unfed_phase hidle hneither (fun error he => ⟨rc, hrc, he⟩) ?_ ?_
      · intro hphase
        cases hcall : s.call <;> rw [hcall] at hphase <;> cases hphase
      · intro p hphase
        rw [hphase] at hclosed
        cases hclosed
    · intro j t l _ _ hl
      cases hsource.symm.trans hl
    · intro j t p _ _ hp
      cases hclosed.symm.trans hp
  · have hadded := hbegun.added
    have hfresh := h.fresh w.listening.created.length (Nat.le_refl _)
    refine h.replace hi hbegun.listen h.seq ?_ ?_ (fun _ ht => (h.streams ht).beside hadded) ?_ ?_ ?_
    · intro l hl
      rw [hadded.created, List.length_append] at hl
      exact h.fresh l (Nat.le_of_add_right_le hl)
    · have hcreated : n'.created[w.listening.created.length]? = some listener := by
        rw [hadded.created, List.getElem?_concat_length]
      refine ⟨?_, ?_, hs.added, ?_, fun _ => ⟨.inl ⟨port, handle, rfl⟩, hnone⟩, ?_, ?_, ?_, ?_⟩
      · intro l hl
        obtain rfl := Option.some.inj hl
        refine ⟨⟨listener, hcreated, hbegun.asked⟩, ?_⟩
        rw [hfresh]
        exact hs.unfed hsource
      · intro hl
        cases hl
      · intro p k hphase
        cases hphase
        refine ⟨_, listener, rfl, ?_, hcreated, hbegun.port, hbegun.given⟩
        exact (mem_added hadded).mpr (.inr ⟨hbegun.kind.symm, rfl⟩)
      · rintro error (he | he | he)
        · cases he
        · cases he
        · cases hnone.symm.trans he
      · intro hne
        exact absurd hnone hne
      · intro hphase
        cases hphase
      · intro p hphase
        cases hphase
    · intro j t l _ ht hl htl
      obtain rfl := Option.some.inj hl
      obtain ⟨⟨x, hx, -⟩, -⟩ := (h.streams ht).fed _ htl
      exact absurd (List.getElem?_eq_some_iff.mp hx).1 (Nat.lt_irrefl _)
    · intro kind l hl
      rw [hadded.registered, List.mem_append, List.mem_singleton] at hl
      rcases hl with hl | hl
      · exact .inr (hkept hl)
      · cases hl
        exact .inl ⟨rfl, hbegun.kind.symm, port, handle, rfl⟩
    · intro j t p _ ht hp
      obtain rfl := Option.some.inj hp
      exact hfree ht

theorem WatchInv.ask (h : WatchInv package less w) {call : StreamCall} {database : Bool}
    {port : Int64} {w' : Watching} (hstep : w.ask package less call database port = some w') :
    WatchInv package less w' := by
  have hnew : WatchInv package less { w with streams := w.streams ++ [.new call] } := by
    have hcases : ∀ {i : Nat} {s : DbStream}, (w.streams ++ [DbStream.new call])[i]? = some s →
        w.streams[i]? = some s ∨ s = .new call := by
      intro i s hs
      rw [List.getElem?_append] at hs
      split at hs
      · exact .inl hs
      · exact .inr (List.mem_singleton.mp (List.mem_of_getElem? hs))
    refine ⟨h.listen, h.seq, h.fresh, ?_, ?_, ?_, ?_⟩
    · intro i s hs
      rcases hcases hs with hs | rfl
      · exact h.streams hs
      · exact .new call
    · intro i j s t l hs ht hl htl
      rcases hcases hs with hs | rfl
      · rcases hcases ht with ht | rfl
        · exact h.apart hs ht hl htl
        · cases htl
      · cases hl
    · intro kind l hl
      obtain ⟨i, s, hs, hrest⟩ := h.owned hl
      refine ⟨i, s, ?_, hrest⟩
      show (w.streams ++ [DbStream.new call])[i]? = some s
      rw [List.getElem?_append_left (List.getElem?_eq_some_iff.mp hs).1]
      exact hs
    · intro i j s t port hs ht hp htp
      rcases hcases hs with hs | rfl
      · rcases hcases ht with ht | rfl
        · exact h.ports hs ht hp htp
        · cases htp
      · cases hp
  unfold Watching.ask at hstep
  split at hstep
  · next path =>
    split at hstep
    · cases hstep
    · next hport =>
      obtain ⟨⟨after, s⟩, hbegin, rfl⟩ := Option.map_eq_some_iff.mp hstep
      have hfree : port ∉ ({ w with streams := w.streams ++ [.new (.onValue path)] } : Watching).ports := by
        simpa [Watching.ports, DbStream.new, Phase.port] using hport
      have hset := hnew.begin (i := w.streams.length) (by simp) rfl (free_port hfree) hbegin
      simpa using hset
  · cases hstep
    exact hnew

theorem WatchInv.listened (h : WatchInv package less w) {database : Bool} {port : Int64}
    {w' : Watching} (hstep : w.listen package less i database port = some w') :
    WatchInv package less w' := by
  obtain ⟨s, hi, hstep⟩ := Option.bind_eq_some_iff.mp hstep
  have hs := (h.streams hi).listened
  have hset := h.set hi hs rfl rfl rfl fun _ _ hphase => hphase
  have hi' : (w.streams.set i { s with listened := true })[i]? = some { s with listened := true } :=
    List.getElem?_set_self (List.getElem?_eq_some_iff.mp hi).1
  split at hstep
  · cases hstep
  · split at hstep
    · next hphase =>
      split at hstep
      · cases hstep
      · next hport =>
        obtain ⟨⟨after, s'⟩, hbegin, rfl⟩ := Option.map_eq_some_iff.mp hstep
        have hfree : ∀ {j : Nat} {t : DbStream},
            (w.streams.set i { s with listened := true })[j]? = some t →
              t.phase.port ≠ some port := by
          intro j t ht
          rcases set_cases ht with ⟨-, rfl⟩ | ⟨-, ht⟩
          · exact fun hp => free_port hport hi hp
          · exact free_port hport ht
        simpa using hset.begin hi' hphase hfree hbegin
    · next error hphase =>
      cases hstep
      obtain ⟨hadd, hnone⟩ := hs.addError (.inr hphase)
      refine h.set hi hadd rfl rfl hnone.symm ?_
      intro port handle hlive
      cases hphase.symm.trans hlive
    · cases hstep
      exact hset

theorem set_same (hi : w.streams[i]? = some s) : w.streams.set i s = w.streams := by
  apply List.ext_getElem?
  intro j
  rw [List.getElem?_set]
  split
  · next hij =>
    subst hij
    rw [if_pos (List.getElem?_eq_some_iff.mp hi).1, hi]
  · rfl

/-- Ports are apart, so a message goes to one stream. -/
theorem WatchInv.post_one (h : WatchInv package less w) (hi : w.streams[i]? = some s)
    {port : Int64} (hport : s.phase.port = some port) (bytes : Bytes) :
    (w.streams.map fun t =>
      if t.phase.port = some port then { t with inbox := t.inbox.send bytes } else t) =
      w.streams.set i { s with inbox := s.inbox.send bytes } := by
  apply List.ext_getElem?
  intro j
  rw [List.getElem?_map, List.getElem?_set]
  split
  · next hij =>
    subst hij
    rw [if_pos (List.getElem?_eq_some_iff.mp hi).1, hi, Option.map_some, if_pos hport]
  · next hij =>
    cases ht : w.streams[j]? with
    | none => rfl
    | some t =>
      rw [Option.map_some, if_neg]
      intro htp
      exact hij (h.ports hi ht hport htp)

/-- The listener of a live stream has posted once more. -/
theorem WatchInv.told (h : WatchInv package less w) (hi : w.streams[i]? = some s) {l : Nat}
    (hl : s.source = some l) (r : Int64 × Report) (inbox : Channel Bytes)
    (hreceived : inbox.received = s.inbox.received)
    (hsent : inbox.sent = (postAll less (w.reports l ++ [r])).2) :
    WatchInv package less ⟨w.listening,
      Function.update w.seq l (postAll less (w.reports l ++ [r])).1,
      Function.update w.reports l (w.reports l ++ [r]),
      w.streams.set i { s with inbox := inbox }⟩ := by
  have hs := h.streams hi
  obtain ⟨⟨x, hx, hasked⟩, -⟩ := hs.fed l hl
  have hlt := (List.getElem?_eq_some_iff.mp hx).1
  have hreports : ∀ k, k ≠ l →
      Function.update w.reports l (w.reports l ++ [r]) k = w.reports k := fun k hk =>
    Function.update_of_ne hk _ _
  refine h.replace hi h.listen ?_ ?_ ?_ ?_ ?_ ?_ ?_
  · intro k
    by_cases hk : k = l
    · rw [hk, Function.update_self, Function.update_self]
    · rw [Function.update_of_ne hk, hreports k hk]
      exact h.seq k
  · intro k hk
    rw [hreports k (by omega)]
    exact h.fresh k hk
  · refine ⟨?_, ?_, ?_, ?_, hs.started, hs.refused, hs.ended, hs.heard, hs.halted⟩
    · intro k hk
      obtain rfl := Option.some.inj (hl.symm.trans hk)
      refine ⟨⟨x, hx, hasked⟩, ?_⟩
      rw [Function.update_self]
      exact hsent
    · intro hnone
      cases hl.symm.trans hnone
    · show s.out.sent = inbox.received.filterMap _ ++ _
      rw [hreceived]
      exact hs.added
    · intro port handle hphase
      obtain ⟨k, listener, hk⟩ := hs.live port handle hphase
      exact ⟨k, listener, hk.source, hk.held, hk.created, hk.port, hk.given⟩
  · intro j t hj ht
    refine (h.streams ht).frame (fun _ _ _ hx => hx) (fun _ _ _ hmem _ => hmem) ?_
    intro k hk
    refine hreports k ?_
    rintro rfl
    exact hj (h.apart ht hi hk hl)
  · intro j t k hj ht hk htk
    obtain rfl := Option.some.inj (hl.symm.trans hk)
    exact hj (h.apart ht hi htk hl)
  · intro kind k hk
    obtain ⟨j, t, ht, htk, hkind, hlive⟩ := h.owned hk
    by_cases hj : j = i
    · subst hj
      obtain rfl := Option.some.inj (ht.symm.trans hi)
      exact .inl ⟨htk, hkind, hlive⟩
    · exact .inr ⟨j, t, hj, ht, htk, hkind, hlive⟩
  · intro j t port hj ht hp htp
    exact hj (h.ports ht hi htp hp)

/-- What the SDK tells a listener goes to the port of its stream, and to no other. -/
theorem WatchInv.report (h : WatchInv package less w) {kind : ListenKind} {l : Nat}
    {postedNs : Int64} {r : Report} {w' : Watching}
    (hstep : w.report less kind l postedNs r = some w') : WatchInv package less w' := by
  unfold Watching.report at hstep
  split at hstep
  · cases hstep
  · next listener hlistener =>
    split at hstep
    · next hguard =>
      obtain ⟨i, s, hi, hsource, hkind, port, handle, hphase⟩ := h.owned hguard.1
      have hs := h.streams hi
      obtain ⟨k, x, hkeeps⟩ := hs.live port handle hphase
      obtain rfl := Option.some.inj (hsource.symm.trans hkeeps.source)
      obtain rfl := Option.some.inj (hlistener.symm.trans hkeeps.created)
      have hport : s.phase.port = some listener.port := by
        rw [hphase, hkeeps.port]
        rfl
      have hposts := postAll_snoc less postedNs (w.reports l) r
      rw [← h.seq] at hposts
      have hsent := (hs.fed l hsource).sent
      cases hbytes : (r.post less postedNs (w.seq l)).2 with
      | some bytes =>
        simp only [hbytes] at hstep hposts
        obtain rfl := Option.some.inj hstep
        have htold := h.told hi hsource (postedNs, r) (s.inbox.send bytes) rfl
          (by rw [hposts, Channel.send_sent, hsent]; rfl)
        rw [hposts] at htold
        simp only [Watching.post]
        rw [h.post_one hi hport]
        exact htold
      | none =>
        simp only [hbytes] at hstep hposts
        obtain rfl := Option.some.inj hstep
        have htold := h.told hi hsource (postedNs, r) s.inbox rfl
          (by rw [hposts, hsent]; simp)
        rw [hposts] at htold
        have hsame : w.streams.set i { s with inbox := s.inbox } = w.streams := set_same hi
        rw [hsame] at htold
        exact htold
    · cases hstep

/-- What feeds a cancelled stream is of no matter to it. -/
theorem StreamInv.cancelled (h : StreamInv package less n reports s) (hlistened : s.listened = true)
    (hcreated : ∀ (l : Nat) listener, n.created[l]? = some listener →
      n'.created[l]? = some listener) :
    StreamInv package less n' reports { s with phase := .cancelled } := by
  refine ⟨?_, h.unfed, h.added, ?_, fun hne => ⟨.inr rfl, (h.started hne).2⟩, ?_,
    fun _ => .inr rfl, fun _ => hlistened, fun _ hphase => by cases hphase⟩
  · intro l hl
    obtain ⟨⟨listener, hlistener, hasked⟩, hsent⟩ := h.fed l hl
    exact ⟨⟨listener, hcreated l listener hlistener, hasked⟩, hsent⟩
  · intro port handle hphase
    cases hphase
  · rintro error (he | he | he)
    · cases he
    · cases he
    · exact h.refused error (.inr (.inr he))

/-- A stream that holds no listener is cancelled on its own. -/
theorem WatchInv.cancel_unfed (h : WatchInv package less w) (hi : w.streams[i]? = some s)
    (hlistened : s.listened = true)
    (hlive : ∀ port handle, s.phase ≠ .live port handle) :
    WatchInv package less { w with streams := w.streams.set i { s with phase := .cancelled } } := by
  refine h.replace hi h.listen h.seq h.fresh ((h.streams hi).cancelled hlistened fun _ _ hx => hx)
    (fun _ ht => h.streams ht) ?_ ?_ ?_
  · intro j t l hj ht hl htl
    exact hj (h.apart ht hi htl hl)
  · intro kind l hl
    obtain ⟨j, t, ht, htl, hkind, port, handle, hphase⟩ := h.owned hl
    refine .inr ⟨j, t, ?_, ht, htl, hkind, port, handle, hphase⟩
    rintro rfl
    obtain rfl := Option.some.inj (ht.symm.trans hi)
    exact hlive port handle hphase
  · intro j t port _ _ hp
    cases hp

/-- The handle of a live stream is given back, and takes its listener off. -/
theorem WatchInv.cancel_live (h : WatchInv package less w) (hi : w.streams[i]? = some s)
    (hlistened : s.listened = true)
    {port handle : Int64} (hphase : s.phase = .live port handle) :
    WatchInv package less { w with
      listening := fdbDbUnlisten w.listening handle
      streams := w.streams.set i { s with phase := .cancelled } } := by
  have hs := h.streams hi
  obtain ⟨l, listener, hkeeps⟩ := hs.live port handle hphase
  have hremoved := h.listen.remove hkeeps.held
  rw [← h.listen.sign hkeeps.held] at hremoved
  have hcreated := hremoved.created
  refine h.replace hi (h.listen.unlisten handle) h.seq ?_ ?_ ?_ ?_ ?_ ?_
  · intro k hk
    rw [hcreated] at hk
    exact h.fresh k hk
  · apply hs.cancelled hlistened
    intro k x hx
    rw [hcreated]
    exact hx
  · intro j t hj ht
    refine (h.streams ht).frame ?_ ?_ fun _ _ => rfl
    · intro k x _ hx
      rw [hcreated]
      exact hx
    · intro k g hk hmem _
      refine (hremoved.table t.call.kind _).mpr ⟨hmem, ?_⟩
      rintro rfl
      -- one handle, so one listener, and so one stream
      have heq := List.inj_on_of_nodup_map h.listen.once (h.listen.live _ _ hmem)
        (h.listen.live _ _ hkeeps.held) rfl
      have hsame : k = l := congrArg Returned.listener heq
      subst hsame
      exact hj (h.apart ht hi hk hkeeps.source)
  · intro j t k hj ht hk htk
    exact hj (h.apart ht hi htk hk)
  · intro kind k hk
    have hnodup := hremoved.registered.nodup_iff.mp h.listen.nodup
    have hold := hremoved.registered.mem_iff.mpr (List.mem_cons_of_mem _ hk)
    obtain ⟨j, t, ht, htk, hkind, hlive⟩ := h.owned hold
    refine .inr ⟨j, t, ?_, ht, htk, hkind, hlive⟩
    rintro rfl
    obtain rfl := Option.some.inj (ht.symm.trans hi)
    obtain rfl := Option.some.inj (hkeeps.source.symm.trans htk)
    rw [← hkind] at hk
    exact (List.nodup_cons.mp hnodup).1 hk
  · intro j t p _ _ hp
    cases hp

theorem WatchInv.cancel (h : WatchInv package less w) {w' : Watching}
    (hstep : w.cancel i = some w') : WatchInv package less w' := by
  obtain ⟨s, hi, hstep⟩ := Option.bind_eq_some_iff.mp hstep
  split at hstep
  · cases hstep
  · next hlistened =>
    obtain rfl := Option.some.inj hstep
    rw [Bool.not_eq_true, Bool.not_eq_false'] at hlistened
    cases hphase : s.phase with
    | live port handle =>
      obtain ⟨l, listener, hkeeps⟩ := (h.streams hi).live port handle hphase
      simp only [hkeeps.given, if_true]
      exact h.cancel_live hi hlistened hphase
    | _ => exact h.cancel_unfed hi hlistened (by simp [hphase])

theorem WatchInv.step (h : WatchInv package less w) {a : WatchAction} {w' : Watching}
    (hstep : w.step package less a = some w') : WatchInv package less w' := by
  cases a with
  | ask call database port => exact h.ask hstep
  | listen i database port => exact h.listened hstep
  | report kind l postedNs r => exact h.report hstep
  | message i =>
    obtain ⟨s', hs', rfl⟩ := Option.map_eq_some_iff.mp hstep
    obtain ⟨s, hi, hm⟩ := Option.bind_eq_some_iff.mp hs'
    obtain ⟨hinv, hsource, hcall, hphase⟩ := (h.streams hi).message hm
    exact h.set hi hinv hsource hcall (congrArg _ hphase) fun _ _ hlive => hphase.trans hlive
  | microtask i =>
    obtain ⟨s', hs', rfl⟩ := Option.map_eq_some_iff.mp hstep
    obtain ⟨s, hi, hm⟩ := Option.bind_eq_some_iff.mp hs'
    unfold DbStream.microtask at hm
    split at hm
    · next error hphase =>
      cases hm
      obtain ⟨hinv, hnone⟩ := (h.streams hi).addError (.inl hphase)
      refine h.set hi hinv rfl rfl hnone.symm ?_
      intro port handle hlive
      cases hphase.symm.trans hlive
    · cases hm
  | deliver i =>
    obtain ⟨s', hs', rfl⟩ := Option.map_eq_some_iff.mp hstep
    obtain ⟨s, hi, hd⟩ := Option.bind_eq_some_iff.mp hs'
    obtain ⟨hinv, hsource, hcall, hphase⟩ := (h.streams hi).deliver hd
    exact h.set hi hinv hsource hcall (congrArg _ hphase) fun _ _ hlive => hphase.trans hlive
  | cancel i => exact h.cancel hstep

end Streams

end Database
