/-
  When the work loop stops. A `Course` is what an agent and its handler do in one life of a
  runner: how each callback ends, and which calls of the runner are made in it and in the
  report of its failure. `StopsAt` tells after which callbacks the loop is over. Main fact:
  alone on its thread, a runner calls `doWork` exactly as often as the first of these says,
  and for ever if there is none (`loop_stops_at_first`).
-/
import RingTransport.Proofs.Runner.Alone
import RingTransport.Proofs.Runner.Life

namespace RingTransport.Runner

open Relation

/-! ## Courses -/

/-- A callback, and the report if it fails. -/
structure Attempt where
  /-- What the callback does before it ends. -/
  actions : List Action
  ending : Outcome
  /-- What the handler does if it is called. -/
  reaction : List Action

/-- What the agent does in the callback. -/
def Attempt.behaviour (a : Attempt) : Behaviour := ⟨a.actions, none, a.ending⟩

/-- The calls made in the callback and in its report. -/
def Attempt.calls (a : Attempt) (cb : Callback) : List Action :=
  a.actions ++ if (fault cb a.ending).isSome then a.reaction else []

/-- The loop is over after this attempt at work. The work closes the runner, or the handler
does; or it asks to stop; or it finds nothing to do when the runner is cancelled already; or
it fails and the runner is cancelled once the handler has been called. -/
def Attempt.Stops (a : Attempt) (cancelled : Prop) : Prop :=
  .close ∈ a.calls .doWork ∨ a.ending = .error .cancelled ∨
    (a.ending = .ok 0 ∧ (cancelled ∨ .cancel ∈ a.actions)) ∨
    ((fault .doWork a.ending).isSome ∧ (cancelled ∨ .cancel ∈ a.calls .doWork))

/-- What an agent and its handler do. The start is attempt 0, and the work follows from 1 on. -/
structure Course where
  role : String
  attempts : Nat → Attempt
  close : Attempt

/-- The callback of an attempt. -/
def callbackOf : Nat → Callback
  | 0 => .onStart
  | _ + 1 => .doWork

namespace Course

/-- The calls made in an attempt. -/
def calls (course : Course) (i : Nat) : List Action := (course.attempts i).calls (callbackOf i)

/-- The runner was cancelled at first, or in an attempt before this one. -/
def CancelledBefore (course : Course) (atFirst : Prop) (i : Nat) : Prop :=
  atFirst ∨ ∃ j < i, .cancel ∈ course.calls j

/-- After this attempt the loop is over, if it was not before. -/
def StopsAt (course : Course) (atFirst : Prop) : Nat → Prop
  | 0 => (fault .onStart (course.attempts 0).ending).isSome ∨ .close ∈ (course.attempts 0).actions
  | i + 1 => (course.attempts (i + 1)).Stops (course.CancelledBefore atFirst (i + 1))

/-- How far a course is. -/
structure State where
  works : Nat
  closing : Bool

/-- The attempt in progress. -/
def current (course : Course) (now : State) : Attempt :=
  if now.closing then course.close else course.attempts now.works

/-- The agent that takes the course, and its handler. -/
def agent (course : Course) : Agent State where
  role := course.role
  perform cb _ now :=
    let now := match cb with
      | .onStart => now
      | .doWork => { now with works := now.works + 1 }
      | .onClose => { now with closing := true }
    ((course.current now).behaviour, [], now)
  react _ e now := (⟨(course.current now).reaction, false⟩, [.error e], now)

/-- The main thread is going to cancel a new runner a number of times and then to run it. -/
def start (layers cancels : Nat) : Play State :=
  (Play.init layers ⟨0, false⟩).modifyPlayer 0 fun player =>
    { player with calls := List.replicate cancels .cancel ++ [.run] }

end Course

/-! ## Attempts -/

variable {course : Course} {handler : Handler} {c : Cells} {a : Attempt} {cb : Callback}
  {e : AgentError} {below reporting : Frame} {stack rest : List Frame} {calls : List Call}
  {plans : List Plan} {σ : Type} {agent : Agent σ} {s : σ} {works i : Nat}

/-- What an attempt does to the cells, by the calls made in it. -/
def Attempt.after (a : Attempt) (handler : Handler) (cb : Callback) (c : Cells) : Cells :=
  let c := a.actions.foldl Action.after c
  match fault cb a.ending with
  | none => c
  | some _ => a.reaction.foldl Action.after (c.counted handler)

theorem Attempt.after_of_none (h : fault cb a.ending = none) :
    a.after handler cb c = a.actions.foldl Action.after c := by
  rw [Attempt.after, h]

theorem Attempt.after_of_some (h : fault cb a.ending = some e) :
    a.after handler cb c =
      a.reaction.foldl Action.after ((a.actions.foldl Action.after c).counted handler) := by
  rw [Attempt.after, h]

theorem Cells.RunByMain.attempt (h : c.RunByMain) (a : Attempt) :
    (a.after handler cb c).RunByMain := by
  have hactions := h.actions a.actions
  cases hfault : fault cb a.ending with
  | none =>
    rw [Attempt.after_of_none hfault]
    exact hactions
  | some e =>
    rw [Attempt.after_of_some hfault]
    exact (hactions.counted handler).actions a.reaction

theorem Attempt.running_after :
    (a.after handler cb c).running = true ↔ c.running = true ∧ .close ∉ a.calls cb := by
  cases hfault : fault cb a.ending with
  | none => simp [Attempt.after_of_none hfault, Attempt.calls, hfault, running_actions]
  | some e =>
    simp [Attempt.after_of_some hfault, Attempt.calls, hfault, running_actions, Cells.counted,
      and_assoc]

theorem Attempt.cancelled_after :
    (a.after handler cb c).cancelled = true ↔ c.cancelled = true ∨ .cancel ∈ a.calls cb := by
  cases hfault : fault cb a.ending with
  | none => simp [Attempt.after_of_none hfault, Attempt.calls, hfault, cancelled_actions]
  | some e =>
    simp [Attempt.after_of_some hfault, Attempt.calls, hfault, cancelled_actions, Cells.counted,
      or_assoc]

/-- A callback that does not fail gets to its end. -/
theorem leads_returned (h : c.RunByMain) (hfault : fault cb a.ending = none)
    (hafter : afterCallback handler a.ending.result (below :: rest) = some stack) :
    Leads agent handler
      ⟨c, .callback cb :: below :: rest, calls, ⟨a.actions, none, .finish a.ending⟩ :: plans, s,
        works⟩
      ⟨a.after handler cb c, stack, calls, plans, s, works⟩ := by
  have hstep : stepThread handler 0 (a.actions.foldl Action.after c)
      (.callback cb :: below :: rest) (.finish a.ending) =
        some (a.actions.foldl Action.after c, stack, [.ended cb a.ending]) := by
    simp only [stepThread, hafter, Option.map_some]
  rw [Attempt.after_of_none hfault]
  exact (leads_actions h rfl).tail (steps_ending rfl Move.noConfusion hstep rfl)

/-- A callback that fails gets to the end of its report. -/
theorem leads_failed (h : c.RunByMain) (hfault : fault cb a.ending = some e)
    (hafter : afterCallback handler a.ending.result (below :: rest) =
      some (.report e handler :: reporting :: rest))
    (hsettled : afterReport none (reporting :: rest) = some stack)
    (hreact : ∃ written, agent.react (some "main") e s = (⟨a.reaction, false⟩, written, s)) :
    Leads agent handler
      ⟨c, .callback cb :: below :: rest, calls, ⟨a.actions, none, .finish a.ending⟩ :: plans, s,
        works⟩
      ⟨a.after handler cb c, stack, calls, plans, s, works⟩ := by
  have hactions := h.actions a.actions
  have hended : stepThread handler 0 (a.actions.foldl Action.after c)
      (.callback cb :: below :: rest) (.finish a.ending) =
        some (a.actions.foldl Action.after c, .report e handler :: reporting :: rest,
          [.ended cb a.ending]) := by
    simp only [stepThread, hafter, Option.map_some]
  have hreturned : stepThread handler 0 (a.after handler cb c)
      (.handling e :: reporting :: rest) (.settle none) =
        some (a.after handler cb c, stack, [.settled none]) := by
    simp only [stepThread, hsettled, Option.map_some]
  have hcallback : Leads agent handler
      ⟨c, .callback cb :: below :: rest, calls, ⟨a.actions, none, .finish a.ending⟩ :: plans, s,
        works⟩
      ⟨a.actions.foldl Action.after c, .report e handler :: reporting :: rest, calls, plans, s,
        works⟩ :=
    (leads_actions h rfl).tail (steps_ending rfl Move.noConfusion hended rfl)
  have hreport : Leads agent handler
      ⟨a.actions.foldl Action.after c, .report e handler :: reporting :: rest, calls, plans, s,
        works⟩
      ⟨a.after handler cb c, .handling e :: reporting :: rest, calls,
        ⟨[], none, .settle none⟩ :: plans, s, works⟩ := by
    rw [Attempt.after_of_some hfault]
    exact (leads_report hreact).trans (leads_actions (hactions.counted handler) rfl)
  exact (hcallback.trans hreport).tail (steps_ending rfl Move.noConfusion hreturned rfl)

theorem result_of_fault {o : Outcome} (h : fault cb o = some e) :
    o.result = .error e ∧ ¬ (cb = .doWork ∧ e = .cancelled) := by
  unfold fault at h
  split at h
  · cases h
  · next e' hresult =>
    split at h
    · cases h
    · next hnot =>
      obtain rfl := Option.some.inj h
      exact ⟨hresult, hnot⟩

theorem result_of_no_fault {o : Outcome} (hcb : cb ≠ .doWork) (h : fault cb o = none) :
    ∃ n, o.result = .ok n := by
  cases hresult : o.result with
  | ok n => exact ⟨n, rfl⟩
  | error e =>
    rw [fault_of_error hresult fun hboth => hcb hboth.1] at h
    cases h

/-! ## The start -/

/-- The cells when the loop begins, if it does. -/
def Attempt.afterStart (a : Attempt) (handler : Handler) (c : Cells) : Cells :=
  let c := a.after handler .onStart { c with tag := .bound, handle := some 0 }
  if (fault .onStart a.ending).isSome then { c with running := false } else c

/-- The loop looks whether it goes on, after a number of attempts at work. -/
def Course.head (c : Cells) (works : Nat) : Pose Course.State :=
  ⟨c, [.run .loadRunning], [], [], ⟨works, false⟩, works⟩

theorem leads_cancels (n : Nat) :
    Leads agent handler
      ⟨c, [], List.replicate n .cancel ++ calls, plans, s, works⟩
      ⟨{ c with cancelled := c.cancelled || decide (0 < n) }, [], calls, plans, s, works⟩ := by
  induction n generalizing c with
  | zero =>
    rw [show (c.cancelled || decide (0 < 0)) = c.cancelled from Bool.or_false _]
    exact .refl
  | succ n ih =>
    have hcancelled : (c.cancelled || decide (0 < n + 1)) = true := by simp
    rw [hcancelled]
    have hrest := ih (c := { c with cancelled := true })
    rw [Bool.true_or] at hrest
    exact .head (steps_call Call.noConfusion) (leads_cancel.trans hrest)

theorem leads_start (course : Course) (htag : c.tag = .unbound) (hhandle : c.handle = none)
    (hlatch : c.latch.holder = none) :
    Leads course.agent handler ⟨c, [.run .bind], [], [], ⟨0, false⟩, 0⟩
      (Course.head ((course.attempts 0).afterStart handler c) 0) := by
  have hperform : ∀ seen, ∃ written, course.agent.perform .onStart seen ⟨0, false⟩ =
      ((course.attempts 0).behaviour, written, ⟨0, false⟩) := fun _ => ⟨[], rfl⟩
  have hreact : ∀ e, ∃ written, course.agent.react (some "main") e ⟨0, false⟩ =
      (⟨(course.attempts 0).reaction, false⟩, written, ⟨0, false⟩) := fun e => ⟨[.error e], rfl⟩
  generalize course.attempts 0 = a at hperform hreact ⊢
  have hmine : Cells.RunByMain { c with tag := .bound, handle := some 0 } :=
    ⟨nofun, rfl, hlatch⟩
  have hbind : stepThread handler 0 c [.run .bind] .go =
      some ({ c with tag := .bound }, [.run .storeHandle], []) := if_pos htag
  have hstore : stepThread handler 0 { c with tag := .bound } [.run .storeHandle] .go =
      some ({ c with tag := .bound, handle := some 0 }, [.run .startDue], [.notice .starting]) := by
    simp only [stepThread, stepRun, hhandle, Option.none_or]
  have hbegin : Leads course.agent handler ⟨c, [.run .bind], [], [], ⟨0, false⟩, 0⟩
      ⟨{ c with tag := .bound, handle := some 0 }, [.callback .onStart, .run .inStart], [],
        [⟨a.actions, none, .finish a.ending⟩], ⟨0, false⟩, 0⟩ := by
    refine .head (steps_go rfl hbind rfl) (.head (steps_go rfl hstore rfl) (.single ?_))
    exact steps_began rfl rfl hperform
  refine hbegin.trans ?_
  cases hfault : fault .onStart a.ending with
  | none =>
    obtain ⟨n, hresult⟩ := result_of_no_fault Callback.noConfusion hfault
    simp only [Attempt.afterStart, hfault, Option.isSome_none, Bool.false_eq_true, if_false]
    exact leads_returned hmine hfault (by rw [hresult]; rfl)
  | some e =>
    obtain ⟨hresult, -⟩ := result_of_fault hfault
    simp only [Attempt.afterStart, hfault, Option.isSome_some, if_true]
    have hfailed : Leads course.agent handler
        ⟨{ c with tag := .bound, handle := some 0 }, [.callback .onStart, .run .inStart], [],
          [⟨a.actions, none, .finish a.ending⟩], ⟨0, false⟩, 0⟩
        ⟨a.after handler .onStart { c with tag := .bound, handle := some 0 }, [.run .startFailed],
          [], [], ⟨0, false⟩, 0⟩ :=
      leads_failed hmine hfault (by rw [hresult]; rfl) rfl (hreact e)
    exact hfailed.tail (steps_go rfl rfl rfl)

/-! ## Work -/

/-- The loop is stopped if the runner is cancelled. -/
def Cells.stopIfCancelled (c : Cells) : Cells :=
  if c.cancelled then { c with running := false } else c

theorem Cells.running_stopIfCancelled :
    c.stopIfCancelled.running = true ↔ c.running = true ∧ ¬ c.cancelled = true := by
  unfold stopIfCancelled
  split <;> simp [*]

theorem Cells.cancelled_stopIfCancelled : c.stopIfCancelled.cancelled = c.cancelled := by
  unfold stopIfCancelled
  split <;> rfl

theorem Cells.RunByMain.stopIfCancelled (h : c.RunByMain) : c.stopIfCancelled.RunByMain := by
  unfold Cells.stopIfCancelled
  split
  · exact ⟨h.taken, h.handle, h.unlocked⟩
  · exact h

/-- The cells after an attempt at work, when the loop looks whether it goes on. -/
def Attempt.afterWork (a : Attempt) (handler : Handler) (c : Cells) : Cells :=
  let c := a.after handler .doWork c
  match a.ending with
  | .ok (_ + 1) => c
  | .error .cancelled => { c with running := false, cancelled := true }
  | _ => c.stopIfCancelled

theorem leads_loadCancelled :
    Leads agent handler ⟨c, [.run .loadCancelled], calls, plans, s, works⟩
      ⟨c.stopIfCancelled, [.run .loadRunning], calls, plans, s, works⟩ := by
  by_cases hcancelled : c.cancelled = true
  · have hload : stepThread handler 0 c [.run .loadCancelled] .go =
        some (c, [.run .stop], []) := by
      simp only [stepThread, stepRun, if_pos hcancelled]
    rw [Cells.stopIfCancelled, if_pos hcancelled]
    exact .head (steps_go rfl hload rfl) (.single (steps_go rfl rfl rfl))
  · have hload : stepThread handler 0 c [.run .loadCancelled] .go =
        some (c, [.run .loadRunning], []) := by
      simp only [stepThread, stepRun, if_neg hcancelled]
    rw [Cells.stopIfCancelled, if_neg hcancelled]
    exact .single (steps_go rfl hload rfl)

/-- The work has come to nothing: there was none, or it failed. -/
def Attempt.IsVain (a : Attempt) : Prop :=
  a.ending = .ok 0 ∨ ∃ e, fault .doWork a.ending = some e

theorem Attempt.work_cases (a : Attempt) :
    a.IsVain ∨ (∃ count, a.ending = .ok (count + 1)) ∨ a.ending = .error .cancelled := by
  obtain ⟨actions, ending, reaction⟩ := a
  cases ending with
  | ok count =>
    cases count with
    | zero => exact .inl (.inl rfl)
    | succ count => exact .inr (.inl ⟨count, rfl⟩)
  | error e =>
    cases e with
    | cancelled => exact .inr (.inr rfl)
    | _ => exact .inl (.inr ⟨_, rfl⟩)
  | panicked p => exact .inl (.inr ⟨_, rfl⟩)

theorem Attempt.afterWork_of_vain (h : a.IsVain) :
    a.afterWork handler c = (a.after handler .doWork c).stopIfCancelled := by
  unfold afterWork
  split
  · next hending =>
    rcases h with h | ⟨e, h⟩ <;> rw [hending] at h <;> cases h
  · next hending =>
    rcases h with h | ⟨e, h⟩ <;> rw [hending] at h <;> cases h
  · rfl

theorem Attempt.afterWork_of_busy {count : Nat} (h : a.ending = .ok (count + 1)) :
    a.afterWork handler c = a.after handler .doWork c := by
  rw [Attempt.afterWork, h]

theorem Attempt.afterWork_of_asked (h : a.ending = .error .cancelled) :
    a.afterWork handler c =
      { a.after handler .doWork c with running := false, cancelled := true } := by
  rw [Attempt.afterWork, h]

theorem afterCallback_of_fault {o : Outcome} (h : fault .doWork o = some e) :
    afterCallback handler o.result (.run .inWork :: rest) =
      some (.report e handler :: .run .workReport :: rest) := by
  obtain ⟨hresult, hnot⟩ := result_of_fault h
  rw [hresult]
  cases e with
  | cancelled => exact absurd ⟨rfl, rfl⟩ hnot
  | _ => rfl

/-- The end of a callback that does work, and of its report if it fails. -/
theorem leads_afterWork (h : c.RunByMain)
    (hreact : ∀ e, ∃ written, agent.react (some "main") e s = (⟨a.reaction, false⟩, written, s)) :
    Leads agent handler
      ⟨c, [.callback .doWork, .run .inWork], calls, ⟨a.actions, none, .finish a.ending⟩ :: plans,
        s, works⟩
      ⟨a.afterWork handler c, [.run .loadRunning], calls, plans, s, works⟩ := by
  obtain ⟨actions, ending, reaction⟩ := a
  rcases Attempt.work_cases ⟨actions, ending, reaction⟩ with
    (rfl | ⟨e, hfault⟩) | ⟨count, rfl⟩ | rfl
  · exact (leads_returned h rfl rfl).trans leads_loadCancelled
  · rw [Attempt.afterWork_of_vain (.inr ⟨e, hfault⟩)]
    exact (leads_failed h hfault (afterCallback_of_fault hfault) rfl (hreact e)).trans
      leads_loadCancelled
  · exact leads_returned h rfl rfl
  · exact ((leads_returned h rfl rfl).tail (steps_go rfl rfl rfl)).tail (steps_go rfl rfl rfl)

/-- As long as the runner runs, the loop makes the next attempt at work. -/
theorem leads_work (course : Course) (h : c.RunByMain) (hrun : c.running = true) (i : Nat) :
    TransGen (Steps course.agent handler) (Course.head c i)
      (Course.head ((course.attempts (i + 1)).afterWork handler c) (i + 1)) := by
  have hperform : ∀ seen, ∃ written, course.agent.perform .doWork seen ⟨i, false⟩ =
      ((course.attempts (i + 1)).behaviour, written, ⟨i + 1, false⟩) := fun _ => ⟨[], rfl⟩
  have hreact : ∀ e, ∃ written, course.agent.react (some "main") e ⟨i + 1, false⟩ =
      (⟨(course.attempts (i + 1)).reaction, false⟩, written, ⟨i + 1, false⟩) :=
    fun e => ⟨[.error e], rfl⟩
  generalize course.attempts (i + 1) = a at hperform hreact ⊢
  have hload : stepThread handler 0 c [.run .loadRunning] .go = some (c, [.run .workDue], []) := by
    simp only [stepThread, stepRun, hrun, if_true]
  have hbegin : Steps course.agent handler ⟨c, [.run .workDue], [], [], ⟨i, false⟩, i⟩
      ⟨c, [.callback .doWork, .run .inWork], [], [⟨a.actions, none, .finish a.ending⟩],
        ⟨i + 1, false⟩, i + 1⟩ :=
    steps_began rfl rfl hperform
  have hend : Leads course.agent handler
      ⟨c, [.callback .doWork, .run .inWork], [], [⟨a.actions, none, .finish a.ending⟩],
        ⟨i + 1, false⟩, i + 1⟩
      (Course.head (a.afterWork handler c) (i + 1)) :=
    leads_afterWork h hreact
  exact .head' (steps_go rfl hload rfl) (.head hbegin hend)

/-! ## The close -/

/-- The thread that ran the runner releases it. -/
theorem leads_released (hunlocked : c.latch.holder = none) :
    Leads agent handler ⟨c, [.release .run .storeClosed none], calls, plans, s, works⟩
      ⟨{ c with closed := true, latch := ⟨true, none, []⟩ }, [], calls, plans, s, works⟩ := by
  have hlock : stepThread handler 0 { c with closed := true } [.release .run .lock none] .go =
      some ({ c with closed := true, latch.holder := some 0 }, [.release .run .storeDone none],
        []) := by
    simp only [stepThread, stepRelease, hunlocked, Option.isNone_none, if_true]
  refine .head (steps_go rfl rfl rfl) (.head (steps_go rfl hlock rfl) ?_)
  exact .head (steps_go rfl rfl rfl) (.head (steps_go rfl rfl rfl) (.single (steps_go rfl rfl rfl)))

/-- Once the runner does not run any more, the agent is closed and the call of `run` is over. -/
theorem leads_finished (course : Course) (h : c.RunByMain) (hrun : c.running = false) (i : Nat) :
    ∃ c', Leads course.agent handler (Course.head c i) ⟨c', [], [], [], ⟨i, true⟩, i⟩ := by
  have hperform : ∀ seen, ∃ written, course.agent.perform .onClose seen ⟨i, false⟩ =
      (course.close.behaviour, written, ⟨i, true⟩) := fun _ => ⟨[], rfl⟩
  have hreact : ∀ e, ∃ written, course.agent.react (some "main") e ⟨i, true⟩ =
      (⟨course.close.reaction, false⟩, written, ⟨i, true⟩) := fun e => ⟨[.error e], rfl⟩
  generalize course.close = a at hperform hreact
  have hload : stepThread handler 0 c [.run .loadRunning] .go =
      some (c, [.teardown .run .closeDue], []) := by
    simp only [stepThread, stepRun, hrun, Bool.false_eq_true, if_false]
  have hbegin : Leads course.agent handler (Course.head c i)
      ⟨c, [.callback .onClose, .teardown .run .inClose], [],
        [⟨a.actions, none, .finish a.ending⟩], ⟨i, true⟩, i⟩ :=
    .head (steps_go rfl hload rfl) (.single (steps_began rfl rfl hperform))
  have hclosed : Leads course.agent handler
      ⟨c, [.callback .onClose, .teardown .run .inClose], [],
        [⟨a.actions, none, .finish a.ending⟩], ⟨i, true⟩, i⟩
      ⟨a.after handler .onClose c, [.teardown .run .announce], [], [], ⟨i, true⟩, i⟩ := by
    cases hfault : fault .onClose a.ending with
    | none =>
      obtain ⟨n, hresult⟩ := result_of_no_fault Callback.noConfusion hfault
      exact leads_returned h hfault (by rw [hresult]; rfl)
    | some e =>
      obtain ⟨hresult, -⟩ := result_of_fault hfault
      exact leads_failed h hfault (by rw [hresult]; rfl) rfl (hreact e)
  have hannounce : Leads course.agent handler
      ⟨a.after handler .onClose c, [.teardown .run .announce], [], [], ⟨i, true⟩, i⟩ _ :=
    .head (steps_go rfl rfl rfl) (leads_released (h.attempt a).unlocked)
  exact ⟨_, hbegin.trans (hclosed.trans hannounce)⟩

/-! ## From attempt to attempt -/

theorem Attempt.calls_of_none (h : fault cb a.ending = none) : a.calls cb = a.actions := by
  rw [Attempt.calls, h]
  exact List.append_nil _

theorem Attempt.stops_of_vain {cancelled : Prop} (h : a.IsVain) :
    a.Stops cancelled ↔
      .close ∈ a.calls .doWork ∨ cancelled ∨ .cancel ∈ a.calls .doWork := by
  rcases h with h | ⟨e, h⟩
  · have hfault : fault .doWork (.ok 0) = none := rfl
    simp [Attempt.Stops, Attempt.calls, hfault, h]
  · have hidle : a.ending ≠ .ok 0 := fun heq => by rw [heq] at h; cases h
    have hasked : a.ending ≠ .error .cancelled := fun heq => by rw [heq] at h; cases h
    simp [Attempt.Stops, h, hidle, hasked]

theorem Attempt.stops_of_busy {cancelled : Prop} {count : Nat} (h : a.ending = .ok (count + 1)) :
    a.Stops cancelled ↔ .close ∈ a.calls .doWork := by
  have hfault : fault .doWork (.ok (count + 1)) = none := rfl
  simp [Attempt.Stops, hfault, h]

theorem Attempt.running_afterWork :
    (a.afterWork handler c).running = true ↔
      c.running = true ∧ ¬ a.Stops (c.cancelled = true) := by
  rcases a.work_cases with h | ⟨count, h⟩ | h
  · rw [afterWork_of_vain h, Cells.running_stopIfCancelled, running_after, cancelled_after,
      stops_of_vain h]
    simp only [not_or, and_assoc]
  · rw [afterWork_of_busy h, running_after, stops_of_busy h]
  · rw [afterWork_of_asked h]
    exact ⟨nofun, fun hgoes => absurd (.inr (.inl h)) hgoes.2⟩

/-- Unless it asks to stop, only the calls made in an attempt cancel the runner. -/
theorem Attempt.cancelled_afterWork (hrun : (a.afterWork handler c).running = true) :
    (a.afterWork handler c).cancelled = true ↔
      c.cancelled = true ∨ .cancel ∈ a.calls .doWork := by
  rcases a.work_cases with h | ⟨count, h⟩ | h
  · rw [afterWork_of_vain h, Cells.cancelled_stopIfCancelled, cancelled_after]
  · rw [afterWork_of_busy h, cancelled_after]
  · rw [afterWork_of_asked h] at hrun
    cases hrun

theorem Cells.RunByMain.afterWork (h : c.RunByMain) (a : Attempt) :
    (a.afterWork handler c).RunByMain := by
  have hafter : (a.after handler .doWork c).RunByMain := h.attempt a
  rcases a.work_cases with hvain | ⟨count, hbusy⟩ | hasked
  · rw [Attempt.afterWork_of_vain hvain]
    exact hafter.stopIfCancelled
  · rw [Attempt.afterWork_of_busy hbusy]
    exact hafter
  · rw [Attempt.afterWork_of_asked hasked]
    exact ⟨hafter.taken, hafter.handle, hafter.unlocked⟩

theorem Course.cancelledBefore_succ {atFirst : Prop} :
    course.CancelledBefore atFirst (i + 1) ↔
      course.CancelledBefore atFirst i ∨ .cancel ∈ course.calls i := by
  simp only [CancelledBefore, Nat.lt_succ_iff_lt_or_eq, or_and_right, exists_or, exists_eq_left,
    or_assoc]

/-- What holds when the loop looks whether it goes on, after attempt `i`. -/
structure Course.HeadAt (course : Course) (atFirst : Prop) (i : Nat) (c : Cells) : Prop where
  main : c.RunByMain
  running : c.running = true ↔ ¬ course.StopsAt atFirst i
  cancelled : c.running = true →
    (c.cancelled = true ↔ course.CancelledBefore atFirst (i + 1))

theorem Course.HeadAt.next {atFirst : Prop} (h : course.HeadAt atFirst i c)
    (hrun : c.running = true) :
    course.HeadAt atFirst (i + 1) ((course.attempts (i + 1)).afterWork handler c) := by
  have hcancelled := h.cancelled hrun
  refine ⟨h.main.afterWork _, ?_, fun hrun' => ?_⟩
  · rw [Attempt.running_afterWork, hcancelled]
    exact and_iff_right hrun
  · rw [Attempt.cancelled_afterWork hrun', hcancelled]
    exact (cancelledBefore_succ (i := i + 1)).symm

theorem Course.headAt_start {atFirst : Prop} (hlatch : c.latch.holder = none)
    (hrun : c.running = true) (hcancelled : c.cancelled = true ↔ atFirst) :
    course.HeadAt atFirst 0 ((course.attempts 0).afterStart handler c) := by
  have hmain : Cells.RunByMain { c with tag := .bound, handle := some 0 } :=
    ⟨nofun, rfl, hlatch⟩
  have hafter : ((course.attempts 0).after handler .onStart
      { c with tag := .bound, handle := some 0 }).RunByMain := hmain.attempt _
  have hnone : (∃ j < 0, .cancel ∈ course.calls j) ↔ False := by simp
  have hbefore : course.CancelledBefore atFirst 1 ↔ atFirst ∨ .cancel ∈ course.calls 0 := by
    rw [cancelledBefore_succ, CancelledBefore, hnone, or_false]
  cases hfault : fault .onStart (course.attempts 0).ending with
  | none =>
    simp only [Attempt.afterStart, hfault, Option.isSome_none, Bool.false_eq_true, if_false]
    refine ⟨hafter, ?_, fun _ => ?_⟩
    · rw [Attempt.running_after, StopsAt, hfault, Attempt.calls_of_none hfault]
      simp [hrun]
    · rw [Attempt.cancelled_after, hbefore, hcancelled]
      rfl
  | some e =>
    simp only [Attempt.afterStart, hfault, Option.isSome_some, if_true]
    refine ⟨⟨hafter.taken, hafter.handle, hafter.unlocked⟩, ?_, nofun⟩
    rw [StopsAt, hfault]
    simp

/-- As long as the loop has not been stopped before, it gets to look whether it goes on after
attempt `n`, and that takes more turns than attempts. -/
theorem Course.exists_head (course : Course) (layers cancels : Nat) {n : Nat}
    (hgo : ∀ i < n, ¬ course.StopsAt (0 < cancels) i) :
    ∃ c, course.HeadAt (0 < cancels) n c ∧ ∃ k entries, n ≤ k ∧
      (Course.start layers cancels).turns course.agent k =
        some ((Course.head c n).play (System.init 1 layers).handler entries) := by
  induction n with
  | zero =>
    have hhead : course.HeadAt (0 < cancels) 0 ((course.attempts 0).afterStart
        (System.init 1 layers).handler
        { (System.init 1 layers).cells with cancelled := decide (0 < cancels) }) :=
      headAt_start rfl rfl decide_eq_true_iff
    have hrun : Leads course.agent (System.init 1 layers).handler
        ⟨(System.init 1 layers).cells, [], List.replicate cancels .cancel ++ [.run], [],
          ⟨0, false⟩, 0⟩
        (Course.head _ 0) :=
      (leads_cancels cancels).trans
        (.head (steps_call Call.noConfusion) (leads_start course rfl rfl rfl))
    obtain ⟨k, entries, hk⟩ := hrun.exists_turns []
    exact ⟨_, hhead, k, entries, Nat.zero_le k, hk⟩
  | succ n ih =>
    obtain ⟨c, hhead, k, entries, hk, hturns⟩ := ih fun i hi => hgo i (Nat.lt_succ_of_lt hi)
    have hrun : c.running = true := hhead.running.2 (hgo n (Nat.lt_succ_self n))
    obtain ⟨l, entries', hl⟩ :=
      exists_turns_succ (leads_work course hhead.main hrun n) entries
    exact ⟨_, hhead.next hrun, k + (l + 1), entries', by omega, Play.turns_add hturns hl⟩

/-- The main thread alone cancels a runner any number of times and then runs it. If there is a
first attempt after which the loop is over, `doWork` is called exactly as often as its number
says, and the call of `run` returns; otherwise `doWork` is called for ever. In particular the
loop goes on for ever when the start succeeds, nobody closes the runner and there is always
work, whether or not it is cancelled. -/
theorem loop_stops_at_first (course : Course) (layers cancels : Nat) :
    let p := Course.start layers cancels
    (∀ n, course.StopsAt (0 < cancels) n → (∀ i < n, ¬ course.StopsAt (0 < cancels) i) →
      ∃ enough q, (∀ fuel, enough < fuel → p.settle course.agent fuel = some q) ∧
        q.works = n ∧ q.isFinished 0 = true) ∧
    ((∀ n, ¬ course.StopsAt (0 < cancels) n) →
      (∀ fuel, p.settle course.agent fuel = none) ∧
        ∀ n, ∃ k q, p.turns course.agent k = some q ∧ q.works = n) ∧
    (fault .onStart (course.attempts 0).ending = none → (∀ i, .close ∉ course.calls i) →
      (∀ i, ∃ count, (course.attempts (i + 1)).ending = .ok (count + 1)) →
        ∀ fuel, p.settle course.agent fuel = none) := by
  intro p
  have hforever (hnever : ∀ n, ¬ course.StopsAt (0 < cancels) n) (fuel : Nat) :
      p.settle course.agent fuel = none := by
    obtain ⟨c, -, k, entries, hk, hturns⟩ :=
      course.exists_head layers cancels fun i (_ : i < fuel) => hnever i
    exact Play.settle_eq_none hturns hk
  refine ⟨fun n hstops hfirst => ?_, fun hnever => ⟨hforever hnever, fun n => ?_⟩, ?_⟩
  · obtain ⟨c, hhead, k, entries, -, hturns⟩ := course.exists_head layers cancels hfirst
    have hrun : c.running = false := by
      rw [← Bool.not_eq_true, hhead.running]
      exact not_not_intro hstops
    obtain ⟨c', hleads⟩ : ∃ c', Leads course.agent (System.init 1 layers).handler
        (Course.head c n) ⟨c', [], [], [], ⟨n, true⟩, n⟩ :=
      leads_finished course hhead.main hrun n
    obtain ⟨l, entries', hl⟩ := Leads.exists_turns hleads entries
    have hsettled (fuel : Nat) (hfuel : k + l < fuel) : p.settle course.agent fuel = some _ :=
      Play.settle_of_turns (Play.turns_add hturns hl) rfl hfuel
    exact ⟨k + l, _, hsettled, rfl, rfl⟩
  · obtain ⟨c, -, k, entries, -, hturns⟩ :=
      course.exists_head layers cancels fun i (_ : i < n) => hnever i
    exact ⟨k, _, hturns, rfl⟩
  · intro hstart hclose hbusy
    refine hforever fun n hstops => ?_
    cases n with
    | zero =>
      have hcalls : course.calls 0 = (course.attempts 0).actions := Attempt.calls_of_none hstart
      rcases hstops with hfault | hmem
      · rw [hstart] at hfault
        cases hfault
      · exact hclose 0 (hcalls ▸ hmem)
    | succ i =>
      obtain ⟨count, hcount⟩ := hbusy i
      exact hclose (i + 1) ((Attempt.stops_of_busy hcount).1 hstops)

/-- The first attempt at work cancels the runner and the others fail; or all attempts cancel
the runner, and there is always work. -/
theorem loop_stops_by_failure_or_never :
    let failing : Course :=
      ⟨"failing", fun i => ⟨[.cancel], if i ≤ 1 then .ok 3 else .panicked .other, [.run]⟩,
        ⟨[], .ok 0, []⟩⟩
    let busy : Course := ⟨"busy", fun _ => ⟨[.cancel], .ok 5, []⟩, ⟨[], .ok 0, []⟩⟩
    (failing.StopsAt (0 < 0) 2 ∧ (∀ i < 2, ¬ failing.StopsAt (0 < 0) i) ∧
      ∃ enough q, (∀ fuel, enough < fuel →
        (Course.start 1 0).settle failing.agent fuel = some q) ∧ q.works = 2) ∧
    ((∀ n, ¬ busy.StopsAt (0 < 1) n) ∧
      ∀ n, ∃ k q, (Course.start 0 1).turns busy.agent k = some q ∧ q.works = n) ∧
    ∀ fuel, (Course.start 0 1).settle busy.agent fuel = none := by
  intro failing busy
  have hstops : failing.StopsAt (0 < 0) 2 :=
    .inr (.inr (.inr ⟨rfl, .inl (.inr ⟨1, by decide, by decide⟩)⟩))
  have hfirst : ∀ i < 2, ¬ failing.StopsAt (0 < 0) i := by
    intro i hi
    match i, hi with
    | 0, _ =>
      rw [Course.StopsAt]
      decide
    | 1, _ =>
      have hwork : (failing.attempts 1).ending = .ok (2 + 1) := rfl
      rw [Course.StopsAt, Attempt.stops_of_busy hwork]
      decide
  have hclose : ∀ i, .close ∉ busy.calls i := by
    intro i
    have hcalls : busy.calls i = [.cancel] := by cases i <;> rfl
    rw [hcalls]
    decide
  have hnever : ∀ n, ¬ busy.StopsAt (0 < 1) n := by
    intro n
    cases n with
    | zero =>
      rw [Course.StopsAt]
      decide
    | succ n =>
      have hwork : (busy.attempts (n + 1)).ending = .ok (4 + 1) := rfl
      rw [Course.StopsAt, Attempt.stops_of_busy hwork]
      exact hclose (n + 1)
  obtain ⟨enough, q, hsettle, hworks, -⟩ :=
    (loop_stops_at_first failing 1 0).1 2 hstops hfirst
  obtain ⟨-, hforever, halways⟩ := loop_stops_at_first busy 0 1
  exact ⟨⟨hstops, hfirst, enough, q, hsettle, hworks⟩, ⟨hnever, (hforever hnever).2⟩,
    halways rfl hclose fun _ => ⟨4, rfl⟩⟩

end RingTransport.Runner
