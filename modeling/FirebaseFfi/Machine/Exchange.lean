import FirebaseFfi.Machine.Run
import Mathlib.Data.List.Nodup

namespace Machine

/-- Calls that a server answers one by one. A call is refused at once or becomes a
request; of the result a message is posted, unless it is lost; and the handler of
the call makes an outcome of the message, unless it throws. -/
structure Protocol (Call Request Result Message Outcome : Type) where
  start : Call → Except Outcome Request
  post : Request → Result → Option Message
  handle : Call → Message → Option Outcome

/-- A call that waits at its port. `job` is the one that was made for it. -/
structure Waiter (Call Port Outcome : Type) where
  call : Call
  port : Port
  listening : Bool
  outcome : Option Outcome
  job : Option Nat

/-- A request with the port it is to be answered at. -/
structure Job (Request Port Result : Type) where
  request : Request
  port : Port
  result : Option Result

section Exchange

variable {Call Request Result Message Outcome Port : Type}

/-- The calls of one side, the jobs of the other, and the messages in between. A
message goes by its port only. -/
structure Exchange (Call Request Result Message Outcome Port : Type) where
  calls : List (Waiter Call Port Outcome)
  jobs : List (Job Request Port Result)
  queue : List (Port × Message)

inductive ExchangeAction (Call Result Port : Type)
  | call (c : Call) (port : Port)
  | complete (j : Nat) (r : Result)
  | deliver

namespace Exchange

def start : Exchange Call Request Result Message Outcome Port := ⟨[], [], []⟩

def ports (x : Exchange Call Request Result Message Outcome Port) : List Port :=
  x.calls.filterMap fun w => if w.listening then some w.port else none

variable (P : Protocol Call Request Result Message Outcome) [DecidableEq Port]
  (x : Exchange Call Request Result Message Outcome Port)

/-- The port of a call is not open for another one. -/
def call (c : Call) (port : Port) : Option (Exchange Call Request Result Message Outcome Port) :=
  if port ∈ x.ports then none
  else
    match P.start c with
    | .error o => some { x with calls := x.calls ++ [⟨c, port, false, some o, none⟩] }
    | .ok request =>
      some { x with
        calls := x.calls ++ [⟨c, port, true, none, some x.jobs.length⟩]
        jobs := x.jobs ++ [⟨request, port, none⟩] }

/-- A job is completed once. -/
def complete (j : Nat) (r : Result) : Option (Exchange Call Request Result Message Outcome Port) :=
  x.jobs[j]?.bind fun job =>
    match job.result with
    | some _ => none
    | none =>
      some { x with
        jobs := x.jobs.set j { job with result := some r }
        queue := x.queue ++ ((P.post job.request r).map (job.port, ·)).toList }

/-- The handler closes its port before anything else. -/
def answered (w : Waiter Call Port Outcome) (m : Message) : Waiter Call Port Outcome :=
  { w with listening := false, outcome := P.handle w.call m }

def deliver : Option (Exchange Call Request Result Message Outcome Port) :=
  match x.queue with
  | [] => none
  | (port, m) :: queue =>
    some { x with
      calls := x.calls.map fun w => if w.listening ∧ w.port = port then answered P w m else w
      queue := queue }

def step : ExchangeAction Call Result Port →
    Option (Exchange Call Request Result Message Outcome Port)
  | .call c port => x.call P c port
  | .complete j r => x.complete P j r
  | .deliver => x.deliver P

end Exchange

/-- Where a call is: refused, waiting for its job, without a message because that
was lost, with its message on the way, or answered. -/
inductive Stage (P : Protocol Call Request Result Message Outcome)
    (x : Exchange Call Request Result Message Outcome Port) (w : Waiter Call Port Outcome) : Prop
  | refused {o} : P.start w.call = .error o → w.job = none → w.listening = false →
      w.outcome = some o → Stage P x w
  | waiting {j request} : P.start w.call = .ok request → w.job = some j →
      x.jobs[j]? = some ⟨request, w.port, none⟩ → w.listening = true → w.outcome = none →
      (∀ m, (w.port, m) ∉ x.queue) → Stage P x w
  | lost {j request r} : P.start w.call = .ok request → w.job = some j →
      x.jobs[j]? = some ⟨request, w.port, some r⟩ → P.post request r = none →
      w.listening = true → w.outcome = none → (∀ m, (w.port, m) ∉ x.queue) → Stage P x w
  | underway {j request r m} : P.start w.call = .ok request → w.job = some j →
      x.jobs[j]? = some ⟨request, w.port, some r⟩ → P.post request r = some m →
      w.listening = true → w.outcome = none → (w.port, m) ∈ x.queue → Stage P x w
  | answered {j request r m} : P.start w.call = .ok request → w.job = some j →
      x.jobs[j]? = some ⟨request, w.port, some r⟩ → P.post request r = some m →
      w.listening = false → w.outcome = P.handle w.call m → Stage P x w

/-- What holds of an exchange at any time. -/
structure Exchange.Kept (P : Protocol Call Request Result Message Outcome)
    (x : Exchange Call Request Result Message Outcome Port) : Prop where
  stages : ∀ w ∈ x.calls, Stage P x w
  made : x.calls.filterMap Waiter.job = List.range x.jobs.length
  ports : x.ports.Nodup
  posted : (x.queue.map Prod.fst).Nodup
  heard : ∀ e ∈ x.queue, e.1 ∈ x.ports

section Lists

variable {α β : Type}

/-- Of a list's values that are kept, each comes from one element. -/
theorem eq_of_filterMap {f : α → Option β} {l : List α} (h : (l.filterMap f).Nodup) {a b : α} {c : β}
    (ha : a ∈ l) (hb : b ∈ l) (hac : f a = some c) (hbc : f b = some c) : a = b := by
  induction l with
  | nil => cases ha
  | cons d l ih =>
    have htail : (l.filterMap f).Nodup := h.sublist ((List.sublist_cons_self d l).filterMap f)
    have hhead : ∀ e ∈ l, f d = some c → f e ≠ some c := by
      intro e he hd hec
      rw [List.filterMap_cons_some hd, List.nodup_cons] at h
      exact h.1 (List.mem_filterMap.mpr ⟨e, he, hec⟩)
    rcases List.mem_cons.mp ha with rfl | ha'
    · rcases List.mem_cons.mp hb with rfl | hb'
      · rfl
      · exact absurd hbc (hhead b hb' hac)
    · rcases List.mem_cons.mp hb with rfl | hb'
      · exact absurd hac (hhead a ha' hbc)
      · exact ih htail ha' hb'

theorem filterMap_range (f : α → β) (l : List α) :
    (List.range l.length).filterMap (fun j => l[j]?.map f) = l.map f := by
  induction l with
  | nil => rfl
  | cons a l ih =>
    rw [List.length_cons, List.range_succ_eq_map, List.filterMap_cons, List.filterMap_map,
      List.map_cons, ← ih]
    rfl

end Lists

section Steps

variable {P : Protocol Call Request Result Message Outcome}
  {x x' : Exchange Call Request Result Message Outcome Port} {w w' : Waiter Call Port Outcome}

theorem Exchange.mem_ports {port : Port} :
    port ∈ x.ports ↔ ∃ w ∈ x.calls, w.listening = true ∧ w.port = port := by
  simp [Exchange.ports, List.mem_filterMap]

theorem Stage.frame (h : Stage P x w)
    (hjobs : ∀ j job, w.job = some j → x.jobs[j]? = some job → x'.jobs[j]? = some job)
    (hqueue : w.listening = true → ∀ m, (w.port, m) ∈ x'.queue ↔ (w.port, m) ∈ x.queue) :
    Stage P x' w := by
  cases h with
  | refused hstart hjob hlistening hout => exact .refused hstart hjob hlistening hout
  | waiting hstart hjob hmade hlistening hout hno =>
    exact .waiting hstart hjob (hjobs _ _ hjob hmade) hlistening hout
      fun m hm => hno m ((hqueue hlistening m).mp hm)
  | lost hstart hjob hmade hpost hlistening hout hno =>
    exact .lost hstart hjob (hjobs _ _ hjob hmade) hpost hlistening hout
      fun m hm => hno m ((hqueue hlistening m).mp hm)
  | underway hstart hjob hmade hpost hlistening hout hm =>
    exact .underway hstart hjob (hjobs _ _ hjob hmade) hpost hlistening hout
      ((hqueue hlistening _).mpr hm)
  | answered hstart hjob hmade hpost hlistening hout =>
    exact .answered hstart hjob (hjobs _ _ hjob hmade) hpost hlistening hout

namespace Exchange.Kept

/-- Two calls that are open have two ports. -/
theorem port_inj (h : x.Kept P) (hw : w ∈ x.calls) (hw' : w' ∈ x.calls)
    (hlistening : w.listening = true) (hlistening' : w'.listening = true)
    (hport : w.port = w'.port) : w = w' :=
  eq_of_filterMap h.ports hw hw' (if_pos hlistening) (by rw [if_pos hlistening', hport])

theorem job_inj (h : x.Kept P) (hw : w ∈ x.calls) (hw' : w' ∈ x.calls) {j : Nat}
    (hj : w.job = some j) (hj' : w'.job = some j) : w = w' :=
  eq_of_filterMap (h.made ▸ List.nodup_range) hw hw' hj hj'

/-- Every job was made for a call. -/
theorem job_for (h : x.Kept P) {j : Nat} {job : Job Request Port Result}
    (hj : x.jobs[j]? = some job) : ∃ w ∈ x.calls, w.job = some j := by
  have hmem : j ∈ x.calls.filterMap Waiter.job := by
    rw [h.made]
    exact List.mem_range.mpr (List.getElem?_eq_some_iff.mp hj).1
  exact List.mem_filterMap.mp hmem

/-- A call whose job is not done waits for it. -/
theorem unanswered (h : x.Kept P) (hw : w ∈ x.calls) {j : Nat} {job : Job Request Port Result}
    (hjob : w.job = some j) (hj : x.jobs[j]? = some job) (hnone : job.result = none) :
    P.start w.call = .ok job.request ∧ w.port = job.port ∧ w.listening = true ∧
      w.outcome = none ∧ ∀ m, (w.port, m) ∉ x.queue := by
  have hsame : ∀ {i : Nat} {made : Job Request Port Result}, w.job = some i →
      x.jobs[i]? = some made → made = job := by
    intro i made hi hmade
    rw [hjob] at hi
    cases hi
    rw [hj] at hmade
    exact (Option.some.inj hmade).symm
  cases h.stages w hw with
  | refused _ hno =>
    rw [hjob] at hno
    cases hno
  | waiting hstart hi hmade hlistening hout hno =>
    obtain rfl := hsame hi hmade
    exact ⟨hstart, rfl, hlistening, hout, hno⟩
  | lost _ hi hmade =>
    obtain rfl := hsame hi hmade
    cases hnone
  | underway _ hi hmade =>
    obtain rfl := hsame hi hmade
    cases hnone
  | answered _ hi hmade =>
    obtain rfl := hsame hi hmade
    cases hnone

end Exchange.Kept

theorem Exchange.complete_cases {j : Nat} {r : Result} (h : x.complete P j r = some x') :
    ∃ job, x.jobs[j]? = some job ∧ job.result = none ∧
      x' = { x with
        jobs := x.jobs.set j { job with result := some r }
        queue := x.queue ++ ((P.post job.request r).map (job.port, ·)).toList } := by
  obtain ⟨job, hjob, h⟩ := Option.bind_eq_some_iff.mp h
  split at h
  · cases h
  · next hnone =>
    cases h
    exact ⟨job, hjob, hnone, rfl⟩

theorem Exchange.Kept.start : (Exchange.start : Exchange Call Request Result Message Outcome Port).Kept P :=
  ⟨by simp [Exchange.start], rfl, .nil, .nil, by simp [Exchange.start]⟩

namespace Exchange.Kept

/-- The job that is done moves its own call on, and no other. -/
theorem complete (h : x.Kept P) {j : Nat} {r : Result} (hstep : x.complete P j r = some x') :
    x'.Kept P := by
  obtain ⟨job, hj, hnone, rfl⟩ := complete_cases hstep
  obtain ⟨v, hv, hvjob⟩ := h.job_for hj
  obtain ⟨hstart, hport, hlistening, hout, hno⟩ := h.unanswered hv hvjob hj hnone
  have hdone : (x.jobs.set j { job with result := some r })[j]? =
      some ⟨job.request, v.port, some r⟩ := by
    rw [List.getElem?_set_self (List.getElem?_eq_some_iff.mp hj).1, hport]
  have hopen : job.port ∈ x.ports := mem_ports.mpr ⟨v, hv, hlistening, hport⟩
  have hfresh : job.port ∉ x.queue.map Prod.fst := by
    rw [List.mem_map]
    rintro ⟨⟨port, m⟩, hm, heq⟩
    exact hno m (hport.trans heq.symm ▸ hm)
  refine ⟨?_, ?_, h.ports, ?_, ?_⟩
  · intro w hw
    by_cases hwj : w.job = some j
    · obtain rfl := h.job_inj hw hv hwj hvjob
      cases hpost : P.post job.request r with
      | none =>
        exact .lost hstart hwj hdone hpost hlistening hout (by simpa [hpost] using hno)
      | some m =>
        exact .underway hstart hwj hdone hpost hlistening hout (by simp [hport])
    · refine (h.stages w hw).frame ?_ ?_
      · intro i made hi hmade
        have hne : j ≠ i := fun heq => hwj (heq ▸ hi)
        rw [List.getElem?_set_ne hne]
        exact hmade
      · intro hwlistening m
        have hne : w.port ≠ job.port := by
          intro heq
          rw [h.port_inj hw hv hwlistening hlistening (heq.trans hport.symm)] at hwj
          exact hwj hvjob
        cases P.post job.request r <;> simp [hne]
  · rw [List.length_set]
    exact h.made
  · cases P.post job.request r with
    | none => simpa using h.posted
    | some m =>
      have hmap : (x.queue ++ [(job.port, m)]).map Prod.fst = x.queue.map Prod.fst ++ [job.port] := by
        simp
      show ((x.queue ++ [(job.port, m)]).map Prod.fst).Nodup
      rw [hmap, List.nodup_append]
      exact ⟨h.posted, by simp, fun a ha b hb hab => hfresh (List.mem_singleton.mp hb ▸ hab ▸ ha)⟩
  · intro e he
    rcases List.mem_append.mp he with he | he
    · exact h.heard e he
    · obtain ⟨m, -, rfl⟩ := Option.map_eq_some_iff.mp (Option.mem_toList.mp he)
      exact hopen

/-- A message is for the one call that is open at its port. -/
theorem receiver (h : x.Kept P) {port : Port} {m : Message} (hm : (port, m) ∈ x.queue) :
    ∃ w ∈ x.calls, w.listening = true ∧ w.port = port ∧ w.outcome = none ∧
      ∃ j request r, P.start w.call = .ok request ∧ w.job = some j ∧
        x.jobs[j]? = some ⟨request, port, some r⟩ ∧ P.post request r = some m := by
  obtain ⟨w, hw, hlistening, rfl⟩ := mem_ports.mp (h.heard _ hm)
  refine ⟨w, hw, hlistening, rfl, ?_⟩
  cases h.stages w hw with
  | refused _ _ hclosed =>
    rw [hlistening] at hclosed
    cases hclosed
  | waiting _ _ _ _ _ hno => exact absurd hm (hno m)
  | lost _ _ _ _ _ _ hno => exact absurd hm (hno m)
  | underway hstart hjob hmade hpost _ hout hm' =>
    cases List.inj_on_of_nodup_map h.posted hm hm' rfl
    exact ⟨hout, _, _, _, hstart, hjob, hmade, hpost⟩
  | answered _ _ _ _ hclosed =>
    rw [hlistening] at hclosed
    cases hclosed

/-- With nothing on the way, a call without an outcome is one whose job is not done,
whose message was lost, or whose handler has thrown. -/
theorem unsettled (h : x.Kept P) (hempty : x.queue = []) (hw : w ∈ x.calls)
    (hnone : w.outcome = none) : ∃ j job, w.job = some j ∧ x.jobs[j]? = some job ∧
      ∀ r, job.result = some r → (P.post job.request r).bind (P.handle w.call) = none := by
  cases h.stages w hw with
  | refused _ _ _ hout =>
    rw [hnone] at hout
    cases hout
  | waiting _ hjob hmade => exact ⟨_, _, hjob, hmade, fun r hr => by cases hr⟩
  | lost _ hjob hmade hpost =>
    refine ⟨_, _, hjob, hmade, fun r hr => ?_⟩
    cases hr
    rw [hpost]
    rfl
  | underway _ _ _ _ _ _ hm =>
    rw [hempty] at hm
    cases hm
  | answered _ hjob hmade hpost _ hout =>
    refine ⟨_, _, hjob, hmade, fun r hr => ?_⟩
    cases hr
    rw [hpost, Option.bind_some, ← hout, hnone]

/-- A call was refused, or it was asked for and is served with the result of its own
job. -/
theorem served (h : x.Kept P) (hw : w ∈ x.calls) :
    (∃ o, P.start w.call = .error o ∧ w.job = none ∧ w.outcome = some o) ∨
      ∃ j job, P.start w.call = .ok job.request ∧ w.job = some j ∧ x.jobs[j]? = some job ∧
        ∀ o, w.outcome = some o → ∃ r m, job.result = some r ∧ P.post job.request r = some m ∧
          P.handle w.call m = some o := by
  cases h.stages w hw with
  | refused hstart hjob _ hout => exact .inl ⟨_, hstart, hjob, hout⟩
  | waiting hstart hjob hmade _ hout =>
    exact .inr ⟨_, _, hstart, hjob, hmade, fun o ho => by rw [hout] at ho; cases ho⟩
  | lost hstart hjob hmade _ _ hout =>
    exact .inr ⟨_, _, hstart, hjob, hmade, fun o ho => by rw [hout] at ho; cases ho⟩
  | underway hstart hjob hmade _ _ hout =>
    exact .inr ⟨_, _, hstart, hjob, hmade, fun o ho => by rw [hout] at ho; cases ho⟩
  | answered hstart hjob hmade hpost _ hout =>
    exact .inr ⟨_, _, hstart, hjob, hmade, fun o ho => ⟨_, _, rfl, hpost, hout.symm.trans ho⟩⟩

/-- The requests are those of the calls that were not refused, in their order. -/
theorem requests (h : x.Kept P) :
    x.jobs.map Job.request = x.calls.filterMap fun w => (P.start w.call).toOption := by
  have hcall : ∀ w ∈ x.calls, (P.start w.call).toOption =
      w.job.bind fun j => x.jobs[j]?.map Job.request := by
    intro w hw
    cases h.stages w hw with
    | refused hstart hjob => rw [hstart, hjob]; rfl
    | waiting hstart hjob hmade => rw [hstart, hjob, Option.bind_some, hmade]; rfl
    | lost hstart hjob hmade => rw [hstart, hjob, Option.bind_some, hmade]; rfl
    | underway hstart hjob hmade => rw [hstart, hjob, Option.bind_some, hmade]; rfl
    | answered hstart hjob hmade => rw [hstart, hjob, Option.bind_some, hmade]; rfl
  rw [List.filterMap_congr hcall, ← List.filterMap_filterMap, h.made, filterMap_range]

end Exchange.Kept

/-- What becomes of a call. Once its port is closed it stays as it is. -/
structure Waiter.Later (w w' : Waiter Call Port Outcome) : Prop where
  call : w'.call = w.call
  port : w'.port = w.port
  job : w'.job = w.job
  ended : w.listening = false → w' = w

theorem Waiter.Later.refl (w : Waiter Call Port Outcome) : w.Later w := ⟨rfl, rfl, rfl, fun _ => rfl⟩

theorem Waiter.Later.trans {v : Waiter Call Port Outcome} (h : w.Later w') (h' : w'.Later v) :
    w.Later v := by
  refine ⟨h'.call.trans h.call, h'.port.trans h.port, h'.job.trans h.job, ?_⟩
  intro hclosed
  obtain rfl := h.ended hclosed
  exact h'.ended hclosed

variable [DecidableEq Port]

theorem Exchange.call_cases {c : Call} {port : Port} (h : x.call P c port = some x') :
    port ∉ x.ports ∧
      ((∃ o, P.start c = .error o ∧
        x' = { x with calls := x.calls ++ [⟨c, port, false, some o, none⟩] }) ∨
      ∃ request, P.start c = .ok request ∧
        x' = { x with
          calls := x.calls ++ [⟨c, port, true, none, some x.jobs.length⟩]
          jobs := x.jobs ++ [⟨request, port, none⟩] }) := by
  unfold Exchange.call at h
  split at h
  · cases h
  · next hport =>
    refine ⟨hport, ?_⟩
    split at h
    · next o hstart =>
      cases h
      exact .inl ⟨o, hstart, rfl⟩
    · next request hstart =>
      cases h
      exact .inr ⟨request, hstart, rfl⟩

theorem Exchange.deliver_cases (h : x.deliver P = some x') :
    ∃ port m, x.queue = (port, m) :: x'.queue ∧ x'.jobs = x.jobs ∧
      x'.calls = x.calls.map fun w =>
        if w.listening ∧ w.port = port then answered P w m else w := by
  unfold Exchange.deliver at h
  split at h
  · cases h
  · next port m queue hqueue =>
    cases h
    exact ⟨port, m, hqueue, rfl, rfl⟩

namespace Exchange.Kept

theorem call (h : x.Kept P) {c : Call} {port : Port} (hstep : x.call P c port = some x') :
    x'.Kept P := by
  obtain ⟨hport, ⟨o, hstart, rfl⟩ | ⟨request, hstart, rfl⟩⟩ := call_cases hstep
  · refine ⟨?_, ?_, ?_, h.posted, ?_⟩
    · intro w hw
      rcases List.mem_append.mp hw with hw | hw
      · exact (h.stages w hw).frame (fun _ _ _ => id) fun _ _ => Iff.rfl
      · rw [List.mem_singleton.mp hw]
        exact .refused hstart rfl rfl rfl
    · simp [h.made]
    · simpa [Exchange.ports] using h.ports
    · simpa [Exchange.ports] using h.heard
  · have hlast : ∀ m, (port, m) ∉ x.queue := fun m hm => hport (h.heard _ hm)
    refine ⟨?_, ?_, ?_, h.posted, ?_⟩
    · intro w hw
      rcases List.mem_append.mp hw with hw | hw
      · refine (h.stages w hw).frame (fun j job _ hj => ?_) fun _ _ => Iff.rfl
        rw [List.getElem?_append_left (List.getElem?_eq_some_iff.mp hj).1]
        exact hj
      · rw [List.mem_singleton.mp hw]
        exact .waiting hstart rfl List.getElem?_concat_length rfl rfl hlast
    · simp [h.made, List.range_succ]
    · have hports : ∀ y : Exchange Call Request Result Message Outcome Port, y.calls =
          x.calls ++ [⟨c, port, true, none, some x.jobs.length⟩] → y.ports = x.ports ++ [port] := by
        intro y hy
        simp [Exchange.ports, hy]
      rw [hports _ rfl]
      exact List.nodup_append.mpr ⟨h.ports, by simp, fun a ha b hb hab =>
        hport (List.mem_singleton.mp hb ▸ hab ▸ ha)⟩
    · intro e he
      have := h.heard e he
      simp only [Exchange.ports, List.filterMap_append, List.mem_append]
      exact .inl this

/-- The port of an answered call is closed, and no other is opened. -/
theorem closed_ports (port : Port) (m : Message) (calls : List (Waiter Call Port Outcome)) :
    ((calls.map fun w => if w.listening ∧ w.port = port then answered P w m else w).filterMap
      fun w => if w.listening then some w.port else none).Sublist
      (calls.filterMap fun w => if w.listening then some w.port else none) := by
  induction calls with
  | nil => exact .refl _
  | cons w calls ih =>
    rw [List.map_cons]
    by_cases hopen : w.listening ∧ w.port = port
    · rw [if_pos hopen, List.filterMap_cons_none (by rfl)]
      exact ih.trans ((List.sublist_cons_self w calls).filterMap _)
    · rw [if_neg hopen, List.filterMap_cons, List.filterMap_cons]
      split
      · exact ih
      · exact ih.cons_cons _

theorem deliver (h : x.Kept P) (hstep : x.deliver P = some x') : x'.Kept P := by
  obtain ⟨port, m, hqueue, hjobs, hcalls⟩ := deliver_cases hstep
  obtain ⟨v, hv, hlistening, rfl, -, j, request, r, hstart, hjob, hmade, hpost⟩ :=
    h.receiver (hqueue ▸ List.mem_cons_self)
  have hnodup := h.posted
  rw [hqueue, List.map_cons, List.nodup_cons] at hnodup
  have hother : ∀ w ∈ x.calls, ¬ (w.listening = true ∧ w.port = v.port) → w ∈ x'.calls := by
    intro w hw hne
    rw [hcalls]
    exact List.mem_map.mpr ⟨w, hw, if_neg hne⟩
  refine ⟨?_, ?_, ?_, hnodup.2, ?_⟩
  · intro w hw
    rw [hcalls] at hw
    obtain ⟨u, hu, rfl⟩ := List.mem_map.mp hw
    by_cases hopen : u.listening = true ∧ u.port = v.port
    · obtain rfl := h.port_inj hu hv hopen.1 hlistening hopen.2
      rw [if_pos hopen]
      exact .answered hstart hjob (hjobs ▸ hmade) hpost rfl rfl
    · rw [if_neg hopen]
      refine (h.stages u hu).frame (fun _ _ _ hmade => hjobs ▸ hmade) fun hulistening m' => ?_
      rw [hqueue, List.mem_cons]
      refine ⟨.inr, fun hm => hm.resolve_left ?_⟩
      intro heq
      exact hopen ⟨hulistening, (Prod.mk.inj heq).1⟩
  · rw [hcalls, hjobs, ← h.made, List.filterMap_map]
    apply List.filterMap_congr
    intro w _
    show Waiter.job (if _ then _ else _) = _
    split <;> rfl
  · refine h.ports.sublist ?_
    rw [Exchange.ports, Exchange.ports, hcalls]
    exact closed_ports v.port m x.calls
  · intro e he
    have hne : e.1 ≠ v.port := fun heq => hnodup.1 (heq ▸ List.mem_map.mpr ⟨e, he, rfl⟩)
    obtain ⟨w, hw, hwlistening, hport⟩ := mem_ports.mp (h.heard e (hqueue ▸ List.mem_cons_of_mem _ he))
    exact mem_ports.mpr ⟨w, hother w hw fun hopen => hne (hport.symm.trans hopen.2), hwlistening,
      hport⟩

theorem step (h : x.Kept P) {a : ExchangeAction Call Result Port} (hstep : x.step P a = some x') :
    x'.Kept P := by
  cases a with
  | call c port => exact h.call hstep
  | complete j r => exact h.complete hstep
  | deliver => exact h.deliver hstep

theorem run {guard : Exchange Call Request Result Message Outcome Port →
      ExchangeAction Call Result Port → Prop}
    (h : Run (Exchange.step P) guard .start x) : x.Kept P :=
  h.invariant .start fun _ _ _ hkept _ hstep => hkept.step hstep

/-- The messages that are on the way can all be delivered. -/
theorem drains (h : x.Kept P) : ∃ as x', exec (Exchange.step P) x as = some x' ∧
    x'.queue = [] ∧ x'.jobs = x.jobs ∧ x'.Kept P := by
  induction hn : x.queue.length generalizing x with
  | zero => exact ⟨[], x, rfl, List.length_eq_zero_iff.mp hn, rfl, h⟩
  | succ n ih =>
    cases hqueue : x.queue with
    | nil => rw [hqueue] at hn; cases hn
    | cons e queue =>
      obtain ⟨y, hy⟩ : ∃ y, x.deliver P = some y := by
        rw [Exchange.deliver, hqueue]
        exact ⟨_, rfl⟩
      obtain ⟨port, m, hrest, hjobs, -⟩ := deliver_cases hy
      have hlen : y.queue.length = n := by
        rw [hrest, List.length_cons] at hn
        omega
      obtain ⟨as, z, hz, hempty, hzjobs, hkept⟩ := ih (h.deliver hy) hlen
      refine ⟨.deliver :: as, z, ?_, hempty, hzjobs.trans hjobs, hkept⟩
      rw [exec]
      show (x.deliver P).bind _ = _
      rw [hy]
      exact hz

end Exchange.Kept

theorem Exchange.step_later {a : ExchangeAction Call Result Port} (hstep : x.step P a = some x')
    {i : Nat} (hi : x.calls[i]? = some w) : ∃ w', x'.calls[i]? = some w' ∧ w.Later w' := by
  cases a with
  | call c port =>
    obtain ⟨-, ⟨o, -, rfl⟩ | ⟨request, -, rfl⟩⟩ := call_cases hstep <;>
      exact ⟨w, by rw [List.getElem?_append_left (List.getElem?_eq_some_iff.mp hi).1, hi], .refl w⟩
  | complete j r =>
    obtain ⟨job, -, -, rfl⟩ := complete_cases hstep
    exact ⟨w, hi, .refl w⟩
  | deliver =>
    obtain ⟨port, m, -, -, hcalls⟩ := deliver_cases hstep
    rw [hcalls, List.getElem?_map, hi, Option.map_some]
    refine ⟨_, rfl, ?_⟩
    split
    · next hopen =>
      refine ⟨rfl, rfl, rfl, fun hclosed => ?_⟩
      rw [hopen.1] at hclosed
      cases hclosed
    · exact .refl w

/-- What is known of every result that is given is known of every one there is. -/
theorem Exchange.results_meet {Q : Request → Result → Prop}
    (h : Run (Exchange.step P) (fun x a => ∀ j r job, a = .complete j r → x.jobs[j]? = some job →
      Q job.request r) .start x) :
    ∀ job ∈ x.jobs, ∀ r, job.result = some r → Q job.request r := by
  refine h.invariant (I := fun x => ∀ job ∈ x.jobs, ∀ r, job.result = some r → Q job.request r)
    (by simp [Exchange.start]) ?_
  intro x a x' hx ha hstep made hmade r hr
  cases a with
  | call c port =>
    obtain ⟨-, ⟨o, -, rfl⟩ | ⟨request, -, rfl⟩⟩ := call_cases hstep
    · exact hx made hmade r hr
    · rcases List.mem_append.mp hmade with hmade | hmade
      · exact hx made hmade r hr
      · rw [List.mem_singleton.mp hmade] at hr
        cases hr
  | complete j f =>
    obtain ⟨job, hj, -, rfl⟩ := complete_cases hstep
    rcases List.mem_or_eq_of_mem_set hmade with hmade | rfl
    · exact hx made hmade r hr
    · cases hr
      exact ha j r job rfl hj
  | deliver =>
    obtain ⟨port, m, -, hjobs, -⟩ := deliver_cases hstep
    rw [hjobs] at hmade
    exact hx made hmade r hr

/-- A call is answered at most once, whatever comes after. -/
theorem Exchange.run_later (h : Run (Exchange.step P) (fun _ _ => True) x x') {i : Nat}
    (hi : x.calls[i]? = some w) : ∃ w', x'.calls[i]? = some w' ∧ w.Later w' := by
  refine h.invariant (I := fun y => ∃ w', y.calls[i]? = some w' ∧ w.Later w') ⟨w, hi, .refl w⟩ ?_
  rintro y a z ⟨v, hv, hlater⟩ - hstep
  obtain ⟨v', hv', hlater'⟩ := step_later hstep hv
  exact ⟨v', hv', hlater.trans hlater'⟩

end Steps

end Exchange

end Machine
