import FirebaseFfi.Firestore.TransactionStage

namespace Firestore
open Cbor Dart Machine

section Run

variable (package : CborPackage)

/-- What holds between two steps of every run. -/
structure Attended (w : World) : Prop where
  stage : Stage package w
  unfinished : w.native.registered = true → w.session.listening = true ∧ w.commits = []
  exact : ∀ c ∈ w.commits, Recorded package w.runs c

/-- What holds between two steps of a run in which handlers that have thrown
throw again. -/
structure Sound (w : World) : Prop where
  stage : Stage package w
  once : w.session.completions.length ≤ 1
  unfinished : w.native.registered = true → w.session.listening = true ∧ w.commits = []
  success : .done ∈ w.session.completions → w.commits ≠ []
  exact : ∀ c ∈ w.commits, Recorded package w.runs c
  handler : ∀ e, .error e ∈ w.session.completions → ∃ r ∈ w.runs, r.thrown ≠ none
  last : (∃ r ∈ w.runs, r.thrown ≠ none) → ∀ r, w.runs.getLast? = some r → r.thrown ≠ none
  clean : w.commits ≠ [] → ∀ r ∈ w.runs, r.thrown = none

variable {package} {document : Bytes → Bool} {limit : UInt32} {w u : World}

theorem Sound.attended (h : Sound package w) : Attended package w :=
  ⟨h.stage, h.unfinished, h.exact⟩

theorem Sound.outcome (h : Sound package w) : Outcome package w := by
  refine ⟨h.once, h.success, h.exact, fun e he => ?_⟩
  by_contra hcommits
  obtain ⟨r, hr, hthrown⟩ := h.handler e he
  exact hthrown (h.clean hcommits r hr)

theorem step_run {s t : Native} {events : List Event}
    (h : Firestore.step document s .run = some (t, events)) (hreq : s.state.req = .none) :
    s.registered = true ∧ s.lambda.stopped = true ∧
      t = { s with lambda := .waiting, state := { s.state with attempt := s.state.attempt + 1 } } := by
  simp only [Firestore.step, Option.ite_none_right_eq_some, Bool.and_eq_true] at h
  obtain ⟨⟨hreg, hstop⟩, h⟩ := h
  have hserve := serve_none (s := { s with
    state := { s.state with attempt := s.state.attempt + 1 } }) hreq
  rw [hserve] at h
  cases h
  exact ⟨hreg, hstop, rfl⟩

theorem step_finish {s t : Native} {events : List Event}
    (h : Firestore.step document s .finish = some (t, events)) :
    s.registered = true ∧ s.lambda.stopped = true ∧ t = { s with registered := false } := by
  simp only [Firestore.step, Option.ite_none_right_eq_some, Bool.and_eq_true] at h
  obtain ⟨⟨hreg, hstop⟩, h⟩ := h
  cases h
  exact ⟨hreg, hstop, rfl⟩

theorem Attended.run (h : Attended package w) {now : UInt64}
    (hstep : w.step package document limit (.run now) = some u) : Attended package u := by
  simp only [World.step, Option.ite_none_right_eq_some] at hstep
  obtain ⟨hlimit, hstep⟩ := hstep
  obtain ⟨⟨t, events⟩, ht, rfl⟩ := Option.map_eq_some_iff.mp hstep
  have hstopped : w.native.registered = true ∧ w.native.lambda.stopped = true := by
    simp only [Firestore.step, Option.ite_none_right_eq_some, Bool.and_eq_true] at ht
    exact ht.1
  obtain ⟨hreq, hin, hout, hruns, -⟩ := h.stage.stopped package hstopped.1 hstopped.2
  obtain ⟨hreg, _, rfl⟩ := step_run ht hreq
  have hlt := limit.toNat_lt
  refine ⟨.posted hreg rfl hreq ⟨now, ?_⟩ hout ?_ ?_, h.unfinished, h.exact⟩
  · show w.inbox ++ _ = _
    rw [hin]
    rfl
  · exact congrArg (· + 1) hruns
  · show w.native.state.attempt + 1 < 2 ^ 32
    omega

theorem Sound.run (h : Sound package w) {now : UInt64}
    (hstep : w.step package document limit (.run now) = some u) : Sound package u := by
  have ha := h.attended.run hstep
  simp only [World.step, Option.ite_none_right_eq_some] at hstep
  obtain ⟨_, hstep⟩ := hstep
  obtain ⟨⟨t, events⟩, _, rfl⟩ := Option.map_eq_some_iff.mp hstep
  exact ⟨ha.stage, h.once, ha.unfinished, h.success, ha.exact, h.handler, h.last, h.clean⟩

/-- What is committed is what the handler recorded in its last run. -/
theorem Attended.commit (h : Attended package w) {now : UInt64}
    (hstep : w.step package document limit (.commit now) = some u) : Attended package u := by
  simp only [World.step] at hstep
  split at hstep
  · next writes hl =>
    obtain ⟨⟨t, events⟩, ht, rfl⟩ := Option.map_eq_some_iff.mp hstep
    obtain ⟨hreg, hstop, rfl⟩ := step_finish ht
    obtain ⟨_, hin, hout, hruns, hok⟩ := h.stage.stopped package hreg hstop
    refine ⟨.finished rfl hstop hout fun m hm => ?_, ?_, fun c hc => ?_⟩
    · have hm' : m ∈ w.inbox ++ [⟨now, 0, []⟩] := hm
      rw [hin, List.nil_append, List.mem_singleton] at hm'
      subst hm'
      exact .inr ⟨rfl, by simp⟩
    · intro hfalse
      cases hfalse
    · rcases List.mem_append.mp hc with hc | hc
      · exact h.exact c hc
      · rw [List.mem_singleton.mp hc]
        exact (hok writes hl).recorded package hruns
  · cases hstep

theorem Sound.commit (h : Sound package w) {now : UInt64}
    (hstep : w.step package document limit (.commit now) = some u) : Sound package u := by
  have ha := h.attended.commit hstep
  simp only [World.step] at hstep
  split at hstep
  · next writes hl =>
    obtain ⟨⟨t, events⟩, ht, rfl⟩ := Option.map_eq_some_iff.mp hstep
    obtain ⟨hreg, hstop, rfl⟩ := step_finish ht
    obtain ⟨_, _, _, _, hok⟩ := h.stage.stopped package hreg hstop
    obtain ⟨run, hlast, hthrown, _⟩ := hok writes hl
    refine ⟨ha.stage, h.once, ha.unfinished, ?_, ha.exact, h.handler, h.last, ?_⟩
    · intro _
      simp
    · intro _ r hr
      by_contra hne
      exact h.last ⟨r, hr, hne⟩ run hlast hthrown
  · cases hstep

theorem Attended.fail (h : Attended package w) {now : UInt64} {error : Bytes}
    (hstep : w.step package document limit (.fail now error) = some u) : Attended package u := by
  simp only [World.step] at hstep
  obtain ⟨⟨t, events⟩, ht, rfl⟩ := Option.map_eq_some_iff.mp hstep
  obtain ⟨hreg, hstop, rfl⟩ := step_finish ht
  obtain ⟨_, hin, hout, _, _⟩ := h.stage.stopped package hreg hstop
  refine ⟨.finished rfl hstop hout fun m hm => ?_, ?_, h.exact⟩
  · have hm' : m ∈ w.inbox ++ [⟨now, -1, error⟩] := hm
    rw [hin, List.nil_append, List.mem_singleton] at hm'
    subst hm'
    exact .inl rfl
  · intro hfalse
    cases hfalse

theorem Sound.fail (h : Sound package w) {now : UInt64} {error : Bytes}
    (hstep : w.step package document limit (.fail now error) = some u) : Sound package u := by
  have ha := h.attended.fail hstep
  simp only [World.step] at hstep
  obtain ⟨⟨t, events⟩, _, rfl⟩ := Option.map_eq_some_iff.mp hstep
  exact ⟨ha.stage, h.once, ha.unfinished, h.success, ha.exact, h.handler, h.last, h.clean⟩

theorem lambdaStep_registered {s t : Native} (h : LambdaStep s t) : t.registered = s.registered := by
  cases h with
  | serves _ ht => rw [ht, serve_registered]
  | answers _ ht => rw [ht]
  | returns _ _ ht => rw [ht]
  | throws _ _ ht => rw [ht]

theorem Attended.lambda (h : Attended package w) {a : LambdaAction}
    (hstep : w.step package document limit (.lambda a) = some u) : Attended package u := by
  simp only [World.step] at hstep
  obtain ⟨⟨t, events⟩, ht, rfl⟩ := Option.map_eq_some_iff.mp hstep
  have hlambda := lambda_step ht
  refine ⟨h.stage.lambda package hlambda, fun hreg => h.unfinished ?_, h.exact⟩
  rw [← lambdaStep_registered hlambda]
  exact hreg

theorem Sound.lambda (h : Sound package w) {a : LambdaAction}
    (hstep : w.step package document limit (.lambda a) = some u) : Sound package u := by
  have ha := h.attended.lambda hstep
  simp only [World.step] at hstep
  obtain ⟨⟨t, events⟩, _, rfl⟩ := Option.map_eq_some_iff.mp hstep
  exact ⟨ha.stage, h.once, ha.unfinished, h.success, ha.exact, h.handler, h.last, h.clean⟩

/-- A call fills the slot. The last one is a commit or an abort. -/
theorem Attended.issue (h : Attended package w)
    (hstep : w.step package document limit .issue = some u) : Attended package u := by
  simp only [World.step] at hstep
  split at hstep
  · next c cs hc =>
    cases hstep
    have hregistered : ∀ s : Native, (s.request c).registered = s.registered := by
      intro s
      unfold Native.request
      split <;> rfl
    refine ⟨?_, fun hreg => h.unfinished (by rw [← hregistered]; exact hreg), h.exact⟩
    cases h.stage with
    | @handled run gets ends hreg hopen hreq hin hout hgets hends hruns hlast =>
      have hrequest : w.native.request c = { w.native with state := w.native.state.accept c } :=
        if_pos hreg
      have hattempt : (w.native.state.accept c).attempt = w.native.state.attempt := by
        cases c <;> rfl
      rw [hrequest]
      rw [hc] at hout
      cases gets with
      | nil =>
        rcases hends with rfl | rfl
        · cases hout
        · cases hout
          exact .answered hreg hopen ⟨_, rfl⟩ hin rfl (hruns.trans hattempt.symm) hlast
      | cons g gets =>
        obtain ⟨rfl, rfl⟩ := List.cons.inj hout
        cases c with
        | get id path port =>
          exact .handled hreg hopen (.inr rfl) hin rfl hgets hends hruns hlast
        | commit => cases hgets
        | abort => cases hgets
    | threw hl hin =>
      refine .threw ?_ hin
      show (w.native.request c).lambda = _
      unfold Native.request
      split <;> exact hl
    | between _ _ _ _ hout =>
      rw [hout] at hc
      cases hc
    | posted _ _ _ _ hout =>
      rw [hout] at hc
      cases hc
    | answered _ _ _ _ hout =>
      rw [hout] at hc
      cases hc
    | applying _ _ _ _ hout =>
      rw [hout] at hc
      cases hc
    | finished _ _ hout =>
      rw [hout] at hc
      cases hc
  · cases hstep

theorem Sound.issue (h : Sound package w)
    (hstep : w.step package document limit .issue = some u) : Sound package u := by
  have ha := h.attended.issue hstep
  simp only [World.step] at hstep
  split at hstep
  · cases hstep
    exact ⟨ha.stage, h.once, ha.unfinished, h.success, ha.exact, h.handler, h.last, h.clean⟩
  · cases hstep

theorem onMessage_attempt (package : CborPackage) {m : Message} (hpos : 0 < m.seq) {s : Session}
    (hs : s.listening = true) (run : HandlerRun) :
    onMessage package run s m.bytes = onAttempt package run s :=
  process_attempt package hs ⟨m.seq, m.now, m.payload, run, hpos⟩

/-- The completions that a last message can lead to. -/
def Message.Gives (m : Message) : Completion → Prop
  | .done => m.seq = 0
  | .exception _ _ => True
  | .error _ => False

/-- The last message makes no calls. It completes the future, with success only
if the transaction succeeded, or leaves it. -/
theorem onMessage_last (package : CborPackage) {m : Message} (hm : m.seq = -1 ∨ m.seq = 0)
    (s : Session) (run : HandlerRun) :
    (onMessage package run s m.bytes).1.calls = s.calls ∧
      ((onMessage package run s m.bytes).1.completions = s.completions ∨ ∃ c, m.Gives c ∧
        (onMessage package run s m.bytes).1.completions = (s.complete c).completions) := by
  unfold onMessage
  split
  · exact ⟨rfl, .inl rfl⟩
  · rw [Message.bytes, seqOf_post]
    dsimp only
    rcases hm with hm | hm
    · rw [hm, if_pos (by decide), onFailure]
      split
      · exact ⟨rfl, .inl rfl⟩
      · split
        · split
          · exact ⟨rfl, .inl rfl⟩
          · next message _ =>
            refine ⟨complete_calls _ _, .inr ⟨.exception (-1) message, trivial, ?_⟩⟩
            apply complete_congr
            rfl
        · exact ⟨rfl, .inl rfl⟩
    · rw [hm, if_neg (by decide), if_pos rfl]
      refine ⟨complete_calls _ _, .inr ⟨.done, hm, ?_⟩⟩
      apply complete_congr
      rfl

theorem last_not_positive {m : Message} (h : m.seq = -1 ∨ m.seq = 0) : ¬ 0 < m.seq := by
  rcases h with h | h
  · rw [h]
    decide
  · rw [h]
    decide

theorem attempt_positive {n : Nat} (hpos : 0 < n) (hlt : n < 2 ^ 32) : 0 < Int64.ofNat n := by
  rw [Int64.lt_iff_toInt_lt, Int64.toInt_ofNat_of_lt (by omega)]
  exact Int.natCast_pos.mpr hpos

/-- Dart handles an attempt that is posted. -/
theorem Attended.attempt (h : Attended package w) {run : HandlerRun} {m : Message}
    (hreg : w.native.registered = true) (hl : w.native.lambda = .waiting)
    (hreq : w.native.state.req = .none) (hruns : w.runs.length + 1 = w.native.state.attempt)
    (hpos : 0 < m.seq) : Attended package (w.handle package m [] run) := by
  obtain ⟨hlistening, hcommits⟩ := h.unfinished hreg
  have hmessage := onMessage_attempt package hpos hlistening run
  obtain ⟨gets, ends, hcalls, hgets, hends⟩ := onAttempt_calls package w.session run
  unfold World.handle
  rw [if_pos hpos, hmessage]
  refine ⟨?_, fun _ => ⟨?_, hcommits⟩, ?_⟩
  · have hout : (onAttempt package run w.session).1.calls.drop w.session.calls.length =
        gets ++ ends := by
      rw [hcalls, List.drop_left]
    have hlength : (w.runs ++ [run]).length = w.native.state.attempt := by
      rw [List.length_append, ← hruns]
      rfl
    refine .handled hreg (by rw [hl]; rfl) (.inl hreq) rfl hout hgets ?_ hlength
      List.getLast?_concat
    rw [onAttempt_txnId]
    exact hends
  · exact (onAttempt_listening package w.session run).trans hlistening
  · intro c hc
    rw [hcommits] at hc
    cases hc

theorem Sound.attempt (h : Sound package w) {run : HandlerRun} {m : Message}
    (hreg : w.native.registered = true) (hl : w.native.lambda = .waiting)
    (hreq : w.native.state.req = .none) (hruns : w.runs.length + 1 = w.native.state.attempt)
    (hpos : 0 < m.seq) (hguard : (∃ r ∈ w.runs, r.thrown ≠ none) → run.thrown ≠ none) :
    Sound package (w.handle package m [] run) := by
  have ha : Attended package (w.handle package m [] run) :=
    h.attended.attempt hreg hl hreq hruns hpos
  obtain ⟨hlistening, hcommits⟩ := h.unfinished hreg
  have hmessage := onMessage_attempt package hpos hlistening run
  have hcompletions := onAttempt_completions package w.session run
  have hdone : .done ∉ w.session.completions := fun hd => h.success hd hcommits
  unfold World.handle at ha ⊢
  rw [if_pos hpos, hmessage] at ha ⊢
  refine ⟨ha.stage, ?_, ha.unfinished, ?_, ha.exact, ?_, ?_, ?_⟩
  · rcases hcompletions with hsame | ⟨e, _, hcomplete⟩
    · rw [hsame]
      exact h.once
    · rw [hcomplete]
      exact complete_length h.once _
  · intro hd
    rcases hcompletions with hsame | ⟨e, _, hcomplete⟩
    · rw [hsame] at hd
      exact absurd hd hdone
    · rw [hcomplete] at hd
      rcases mem_complete hd with hd | hd
      · exact absurd hd hdone
      · cases hd
  · intro e he
    have hold : ∀ e, .error e ∈ w.session.completions → ∃ r ∈ w.runs ++ [run], r.thrown ≠ none := by
      intro e he
      obtain ⟨r, hr, hthrown⟩ := h.handler e he
      exact ⟨r, List.mem_append_left _ hr, hthrown⟩
    rcases hcompletions with hsame | ⟨e', hthrown, hcomplete⟩
    · rw [hsame] at he
      exact hold e he
    · rw [hcomplete] at he
      rcases mem_complete he with he | _
      · exact hold e he
      · refine ⟨run, List.mem_append_right _ (List.mem_singleton.mpr rfl), ?_⟩
        rw [hthrown]
        exact Option.some_ne_none e'
  · intro hthrew last hlast
    obtain ⟨r, hr, hthrown⟩ := hthrew
    rw [List.getLast?_concat] at hlast
    cases hlast
    rcases List.mem_append.mp hr with hr | hr
    · exact hguard ⟨r, hr, hthrown⟩
    · rw [← List.mem_singleton.mp hr]
      exact hthrown
  · exact fun hne => absurd hcommits hne

/-- Dart handles the last message. -/
theorem Attended.last_message (h : Attended package w) {run : HandlerRun} {m : Message}
    {rest : List Message} (hreg : w.native.registered = false)
    (hstop : w.native.lambda.stopped = true) (hin : w.inbox = m :: rest)
    (hmessages : ∀ m ∈ w.inbox, m.seq = -1 ∨ m.seq = 0 ∧ w.commits ≠ []) :
    Attended package (w.handle package m rest run) := by
  have hm := hmessages m (by rw [hin]; exact List.mem_cons_self)
  have hzero : m.seq = -1 ∨ m.seq = 0 := hm.imp_right And.left
  have hneg := last_not_positive hzero
  obtain ⟨hcalls, -⟩ := onMessage_last package hzero w.session run
  unfold World.handle
  rw [if_neg hneg]
  refine ⟨.finished hreg hstop ?_ fun m' hm' => hmessages m' ?_, ?_, h.exact⟩
  · show (onMessage package run w.session m.bytes).1.calls.drop _ = _
    rw [hcalls, List.drop_length]
  · rw [hin]
    exact List.mem_cons_of_mem _ hm'
  · intro htrue
    exact absurd (hreg.symm.trans htrue) (by decide)

theorem Sound.last_message (h : Sound package w) {run : HandlerRun} {m : Message}
    {rest : List Message} (hreg : w.native.registered = false)
    (hstop : w.native.lambda.stopped = true) (hin : w.inbox = m :: rest)
    (hmessages : ∀ m ∈ w.inbox, m.seq = -1 ∨ m.seq = 0 ∧ w.commits ≠ []) :
    Sound package (w.handle package m rest run) := by
  have ha : Attended package (w.handle package m rest run) :=
    h.attended.last_message hreg hstop hin hmessages
  have hm := hmessages m (by rw [hin]; exact List.mem_cons_self)
  have hzero : m.seq = -1 ∨ m.seq = 0 := hm.imp_right And.left
  have hneg := last_not_positive hzero
  obtain ⟨-, hcompletions⟩ := onMessage_last package hzero w.session run
  unfold World.handle at ha ⊢
  rw [if_neg hneg] at ha ⊢
  refine ⟨ha.stage, ?_, ha.unfinished, ?_, h.exact, ?_, h.last, h.clean⟩
  · rcases hcompletions with hsame | ⟨c, _, hcomplete⟩
    · rw [hsame]
      exact h.once
    · rw [hcomplete]
      exact complete_length h.once c
  · intro hd
    rcases hcompletions with hsame | ⟨c, hlast, hcomplete⟩
    · rw [hsame] at hd
      exact h.success hd
    · rw [hcomplete] at hd
      rcases mem_complete hd with hd | rfl
      · exact h.success hd
      · rcases hm with hm | hm
        · have hseq : m.seq = 0 := hlast
          rw [hm] at hseq
          exact absurd hseq (by decide)
        · exact hm.2
  · intro e he
    rcases hcompletions with hsame | ⟨c, hlast, hcomplete⟩
    · rw [hsame] at he
      exact h.handler e he
    · rw [hcomplete] at he
      rcases mem_complete he with he | rfl
      · exact h.handler e he
      · cases hlast

/-- A message that is handled is an attempt that is posted, or the last one. -/
theorem Attended.message (h : Attended package w) {m : Message} {rest : List Message}
    (hm : w.inbox = m :: rest) :
    (w.native.registered = true ∧ w.native.lambda = .waiting ∧ w.native.state.req = .none ∧
        w.runs.length + 1 = w.native.state.attempt ∧ 0 < m.seq ∧ rest = []) ∨
      (w.native.registered = false ∧ w.native.lambda.stopped = true ∧
        ∀ m ∈ w.inbox, m.seq = -1 ∨ m.seq = 0 ∧ w.commits ≠ []) := by
  cases h.stage with
  | posted hreg hl hreq hin _ hruns hlt =>
    obtain ⟨now, hin⟩ := hin
    rw [hm] at hin
    cases hin
    exact .inl ⟨hreg, hl, hreq, hruns, attempt_positive (by omega) hlt, rfl⟩
  | finished hreg hstop _ hmessages => exact .inr ⟨hreg, hstop, hmessages⟩
  | between _ _ _ hin =>
    rw [hin] at hm
    cases hm
  | handled _ _ _ hin =>
    rw [hin] at hm
    cases hm
  | answered _ _ _ hin =>
    rw [hin] at hm
    cases hm
  | applying _ _ _ hin =>
    rw [hin] at hm
    cases hm
  | threw _ hin =>
    rw [hin] at hm
    cases hm

theorem Attended.deliver (h : Attended package w) {run : HandlerRun}
    (hstep : w.step package document limit (.deliver run) = some u) : Attended package u := by
  simp only [World.step] at hstep
  split at hstep
  · next m rest hm hnone =>
    cases hstep
    rcases h.message hm with ⟨hreg, hl, hreq, hruns, hpos, rfl⟩ | ⟨hreg, hstop, hmessages⟩
    · exact h.attempt hreg hl hreq hruns hpos
    · exact h.last_message hreg hstop hm hmessages
  · cases hstep

theorem Sound.deliver (h : Sound package w) {run : HandlerRun}
    (hguard : KeepsThrowing w (.deliver run))
    (hstep : w.step package document limit (.deliver run) = some u) : Sound package u := by
  simp only [World.step] at hstep
  split at hstep
  · next m rest hm hnone =>
    cases hstep
    rcases h.attended.message hm with ⟨hreg, hl, hreq, hruns, hpos, rfl⟩ | ⟨hreg, hstop, hmessages⟩
    · exact h.attempt hreg hl hreq hruns hpos (hguard _ _ hm hpos)
    · exact h.last_message hreg hstop hm hmessages
  · cases hstep

theorem start_sound (txnId : Int64) : Sound package (.start txnId) := by
  refine ⟨.between rfl rfl rfl rfl rfl rfl ?_, Nat.zero_le 1, fun _ => ⟨rfl, rfl⟩, ?_, ?_, ?_, ?_,
    fun h => absurd rfl h⟩
  · rintro writes ⟨⟩
  · rintro ⟨⟩
  · rintro c ⟨⟩
  · rintro e ⟨⟩
  · rintro ⟨r, ⟨⟩, _⟩

theorem Attended.step {a : WorldAction} (h : Attended package w)
    (hstep : w.step package document limit a = some u) : Attended package u := by
  cases a with
  | run now => exact h.run hstep
  | commit now => exact h.commit hstep
  | fail now error => exact h.fail hstep
  | lambda a => exact h.lambda hstep
  | deliver run => exact h.deliver hstep
  | issue => exact h.issue hstep

theorem Sound.step {a : WorldAction} (h : Sound package w) (hguard : KeepsThrowing w a)
    (hstep : w.step package document limit a = some u) : Sound package u := by
  cases a with
  | run now => exact h.run hstep
  | commit now => exact h.commit hstep
  | fail now error => exact h.fail hstep
  | lambda a => exact h.lambda hstep
  | deliver run => exact h.deliver hguard hstep
  | issue => exact h.issue hstep

/-- The writes being applied are those the handler recorded in this attempt. -/
theorem Attended.applying (h : Attended package w) {writes : Bytes}
    (hl : w.native.lambda = .applying writes) :
    Recorded package w.runs (w.native.state.attempt, writes) := by
  obtain ⟨-, -, -, -, hruns, hwrote⟩ := h.stage.while_applying package hl
  exact hwrote.recorded package hruns

theorem attended (txnId : Int64)
    (h : Run (World.step package document limit) (fun _ _ => True) (.start txnId) w) :
    Attended package w :=
  h.invariant (start_sound txnId).attended fun _ _ _ hi _ hs => hi.step hs

end Run

/-- In a run in which a handler that has thrown throws in every later attempt,
the future tells what became of the transaction. -/
theorem transaction_outcome (package : CborPackage) (document : Bytes → Bool) (limit : UInt32)
    (txnId : Int64) {w : World}
    (h : Run (World.step package document limit) KeepsThrowing (.start txnId) w) :
    Outcome package w :=
  (h.invariant (start_sound txnId) fun _ _ _ hi hg hs => hi.step hg hs).outcome

/-- A package as far as the one list of writes that deletes `c/d`. -/
def deletePackage : CborPackage :=
  { idlePackage with
    encode := fun _ => [0x81, 0x82, 0x66] ++ ascii "delete" ++ [0x63] ++ ascii "c/d" }

def deletes : HandlerRun := ⟨[.write (.delete (ascii "c/d"))], none⟩

def throws : HandlerRun := ⟨[], some .other⟩

def deleteOnce : List WorldAction :=
  [.run 0, .deliver deletes, .issue, .lambda .wake, .lambda (.apply .ok), .commit 0,
    .deliver throws]

theorem deleteOnce_outcome :
    ∃ w, exec (World.step deletePackage (fun _ => true) 5) (.start 1) deleteOnce = some w ∧
      w.session.completions = [.done] ∧ Outcome deletePackage w := by
  refine ⟨_, rfl, rfl, transaction_outcome deletePackage (fun _ => true) 5 1 ?_⟩
  have hexec : exec (World.step deletePackage (fun _ => true) 5) (.start 1) deleteOnce =
      some _ := rfl
  refine Run.of_exec hexec ⟨trivial, ?_⟩
  rintro _ ⟨⟩
  refine ⟨fun _ _ _ _ h => ?_, ?_⟩
  · obtain ⟨_, ⟨⟩, _⟩ := h
  rintro _ ⟨⟩
  refine ⟨trivial, ?_⟩
  rintro _ ⟨⟩
  refine ⟨trivial, ?_⟩
  rintro _ ⟨⟩
  refine ⟨trivial, ?_⟩
  rintro _ ⟨⟩
  refine ⟨trivial, ?_⟩
  rintro _ ⟨⟩
  refine ⟨fun _ _ _ _ _ => Option.some_ne_none _, ?_⟩
  rintro _ ⟨⟩
  exact trivial

/-- The handler throws in the first attempt, and the SDK runs a second. -/
def throwThenDelete : List WorldAction :=
  [.run 0, .deliver throws, .issue, .lambda .wake, .run 0, .deliver deletes, .issue, .lambda .wake,
    .lambda (.apply .ok), .commit 0, .deliver throws]

/-- The future has the handler's error, and the write is committed. -/
theorem throwThenDelete_committed :
    ∃ w, exec (World.step deletePackage (fun _ => true) 5) (.start 1) throwThenDelete = some w ∧
      w.session.completions = [.error .other] ∧
      w.commits = [(2, deletePackage.encode .null)] ∧ ¬ Outcome deletePackage w := by
  refine ⟨_, rfl, rfl, rfl, fun h => ?_⟩
  have hnone := h.error .other (List.mem_singleton.mpr rfl)
  cases hnone

end Firestore
