/-
  The stacks of the threads around a runner. At most one thread owns the runner: its first
  frames, at the bottom of its stack, are those of the call that took the runner, and
  `Stands` says where they stand when a given list of events has happened. Any other call
  is a visit. A visit is at most one frame high, on top of code that is in control, and it
  begins and ends nothing. Main facts: what a step on the owner's frames does
  (`Stands.step`) and what any other step does (`Over.step`).
-/
import RingTransport.Proofs.Runner.ClosingSteps
import RingTransport.Proofs.Runner.Life

namespace RingTransport.Runner

/-! ## Visits -/

/-- The call of this frame has not taken the runner. -/
def Frame.isVisit : Frame → Bool
  | .run .bind | .close _ | .cancel _ | .observe _ => true
  | _ => false

/-- The stack is the core, or a visit on top of it. -/
inductive Over (core : List Frame) : List Frame → Prop
  | alone : Over core core
  | visit {f : Frame} (hf : f.isVisit = true) (hcore : inControl core = true) :
      Over core (f :: core)

theorem Call.isVisit_frame (call : Call) : call.frame.isVisit = true := by
  cases call <;> rfl

/-- The binding of a runner that a call has taken. -/
def Owner.tag : Owner → Tag
  | .run => .bound
  | .close => .closed

/-- The frame a call goes on with when it has taken the runner. -/
def Owner.first : Owner → Frame
  | .run => .run .storeHandle
  | .close => .teardown .close .closeDue

/-- The cells after a step that takes the runner for nobody. No step raises the flag that
keeps the loop going. -/
structure Later (c c' : Cells) : Prop where
  running : c'.running = true → c.running = true
  tag : c'.tag = .unbound ↔ c.tag = .unbound

theorem Later.refl (c : Cells) : Later c c := ⟨id, .rfl⟩

/-- What a visit may do in a step. -/
inductive VisitStep (core : List Frame) (c c' : Cells) : List Frame → Prop
  | goes {f : Frame} (hf : f.isVisit = true) (hc : Later c c') : VisitStep core c c' (f :: core)
  | leaves (hc : Later c c') : VisitStep core c c' core
  | takes (owner : Owner) (htag : c.tag = .unbound) (htag' : c'.tag = owner.tag) :
      VisitStep core c c' (owner.first :: core)

variable {me : Nat} {c c' : Cells} {core stack : List Frame} {signals : List Signal}

theorem stepBind_visit (hs : stepRun me c core .bind = some (c', stack, signals)) :
    VisitStep core c c' stack ∧ signals.filter Signal.isEvent = [] := by
  simp only [stepRun] at hs
  split at hs
  · next htag =>
    cases hs
    exact ⟨.takes .run htag rfl, rfl⟩
  · cases hs
    exact ⟨.leaves (.refl c), rfl⟩

theorem CloseStep.visit {move : Move} {stage : CloseStage}
    (h : CloseStep me c core move stage c' stack signals) :
    VisitStep core c c' stack ∧ signals.filter Signal.isEvent = [] := by
  cases h with
  | storesStopped => exact ⟨.goes rfl ⟨fun hr => Bool.noConfusion hr, .rfl⟩, rfl⟩
  | findsUnbound htag => exact ⟨.takes .close htag rfl, rfl⟩
  | findsBound htag => exact ⟨.goes rfl ⟨id, by simp [htag]⟩, rfl⟩
  | findsClosed | isClosed | isSelf | unlocks => exact ⟨.leaves ⟨id, .rfl⟩, rfl⟩
  | _ => exact ⟨.goes rfl ⟨id, .rfl⟩, rfl⟩

theorem stepCancel_visit {stage : CancelStage}
    (hs : stepCancel c core stage = some (c', stack, signals)) :
    VisitStep core c c' stack ∧ signals.filter Signal.isEvent = [] := by
  cases stage with
  | storeCancelled =>
    cases hs
    exact ⟨.goes rfl ⟨id, .rfl⟩, rfl⟩
  | unpark =>
    cases hs
    refine ⟨.leaves (.refl c), ?_⟩
    split <;> rfl

/-- An observing call changes no cell. -/
theorem stepObserve_eq {stage : ObserveStage}
    (hs : stepObserve c core stage = some (c', stack, signals)) :
    c' = c ∧ (stack = core ∨ ∃ later, stack = .observe later :: core) := by
  cases stage with
  | loadRunning | loadTag | awaitHandle =>
    simp only [stepObserve] at hs
    split at hs
    all_goals
      cases hs
      first
        | exact ⟨rfl, .inl rfl⟩
        | exact ⟨rfl, .inr ⟨_, rfl⟩⟩
  | _ =>
    cases hs
    exact ⟨rfl, .inl rfl⟩

theorem stepObserve_visit {stage : ObserveStage}
    (hs : stepObserve c core stage = some (c', stack, signals)) :
    VisitStep core c c' stack ∧ signals.filter Signal.isEvent = [] := by
  cases stage with
  | loadRunning =>
    simp only [stepObserve] at hs
    split at hs
    · cases hs
      exact ⟨.goes rfl (.refl c), rfl⟩
    · cases hs
      exact ⟨.leaves (.refl c), rfl⟩
  | loadNotClosed | loadClosed | loadCancelled | loadHandle =>
    cases hs
    exact ⟨.leaves (.refl c), rfl⟩
  | loadTag forThread =>
    simp only [stepObserve] at hs
    split at hs
    · cases hs
      exact ⟨.goes rfl (.refl c), rfl⟩
    · cases hs
      exact ⟨.leaves (.refl c), rfl⟩
    · cases hs
      exact ⟨.leaves (.refl c), rfl⟩
    · cases hs
      exact ⟨.goes rfl (.refl c), rfl⟩
  | awaitHandle forThread =>
    simp only [stepObserve] at hs
    split at hs
    · cases hs
      exact ⟨.goes rfl (.refl c), rfl⟩
    · cases hs
      exact ⟨.leaves (.refl c), rfl⟩

theorem inControl_visit {f : Frame} (hf : f.isVisit = true) (core : List Frame) :
    inControl (f :: core) = false := by
  cases f with
  | callback | handling => cases hf
  | _ => rfl

/-- A visit can only go on, for it is no callback and not in control of its thread; but a close
may also wake up by itself. -/
theorem visit_cases {handler : Handler} {f : Frame} {move : Move} (hf : f.isVisit = true)
    (hs : stepThread handler me c (f :: core) move = some (c', stack, signals)) :
    (∃ stage, f = .close stage ∧ CloseStep me c core move stage c' stack signals) ∨
      (∀ stage, f ≠ .close stage) ∧ move = .go := by
  by_cases hclose : ∃ stage, f = .close stage
  · obtain ⟨stage, rfl⟩ := hclose
    exact .inl ⟨stage, rfl, stepThread_close_iff.1 hs⟩
  refine .inr ⟨fun stage heq => hclose ⟨stage, heq⟩, ?_⟩
  cases move with
  | go => rfl
  | call call =>
    rw [stepThread, inControl_visit hf] at hs
    cases hs
  | finish o =>
    cases f with
    | callback => cases hf
    | _ => cases hs
  | settle panic =>
    cases f with
    | handling => cases hf
    | _ => cases hs
  | stir =>
    cases f with
    | close stage => exact absurd ⟨stage, rfl⟩ hclose
    | _ => cases hs

/-- The next step of a visit. -/
theorem visit_step {handler : Handler} {f : Frame} {move : Move} (hf : f.isVisit = true)
    (hs : stepThread handler me c (f :: core) move = some (c', stack, signals)) :
    VisitStep core c c' stack ∧ signals.filter Signal.isEvent = [] := by
  rcases visit_cases hf hs with ⟨stage, rfl, hclose⟩ | ⟨hother, rfl⟩
  · exact hclose.visit
  cases f with
  | run stage =>
    cases stage with
    | bind =>
      have hbind : stepRun me c core .bind = some (c', stack, signals) := hs
      exact stepBind_visit hbind
    | _ => cases hf
  | close stage => exact absurd rfl (hother stage)
  | cancel stage => exact stepCancel_visit hs
  | observe stage => exact stepObserve_visit hs
  | _ => cases hf

/-- A step that is not one of the core's own: a visit begins, goes on or leaves, or it
takes the runner. -/
theorem Over.step {handler : Handler} {move : Move} {after : List Frame} (ho : Over core stack)
    (hs : stepThread handler me c stack move = some (c', after, signals))
    (hother : stack = core → ∃ call, move = .call call) :
    signals.filter Signal.isEvent = [] ∧
      ((Over core after ∧ Later c c') ∨
        ∃ owner : Owner, c.tag = .unbound ∧ c'.tag = owner.tag ∧ after = owner.first :: core) := by
  cases ho with
  | alone =>
    obtain ⟨call, rfl⟩ := hother rfl
    simp only [stepThread] at hs
    split at hs
    · next hcore =>
      cases hs
      exact ⟨rfl, .inl ⟨.visit call.isVisit_frame hcore, .refl c⟩⟩
    · cases hs
  | visit hf hcore =>
    obtain ⟨hvisit, hquiet⟩ := visit_step hf hs
    refine ⟨hquiet, ?_⟩
    cases hvisit with
    | goes hf' hc => exact .inl ⟨.visit hf' hcore, hc⟩
    | leaves hc => exact .inl ⟨.alone, hc⟩
    | takes owner htag htag' => exact .inr ⟨owner, htag, htag', rfl⟩

/-! ## The owner's frames -/

/-- The frame below a callback. -/
def Owner.caller (owner : Owner) : Callback → Frame
  | .onStart => .run .inStart
  | .doWork => .run .inWork
  | .onClose => .teardown owner .inClose

/-- The frame below a report. -/
def Owner.reporter (owner : Owner) : Callback → Frame
  | .onStart => .run .startReport
  | .doWork => .run .workReport
  | .onClose => .teardown owner .closeReport

/-- A stage of the loop, with no callback in progress. -/
def RunStage.loops : RunStage → Bool
  | .loadRunning | .workDue | .loadCancelled | .stop | .quit | .storeCancelled => true
  | _ => false

/-- Where the owner's frames may stand when the events have happened and the flag that
keeps the loop going is as given. -/
inductive Stands (running : Bool) : Owner → List Signal → List Frame → Prop
  | bound : Stands running .run [] [.run .storeHandle]
  | starting : Stands running .run [] [.run .startDue]
  | calling {owner c events} (h : Before owner c events) :
      Stands running owner (events ++ [.began c]) [.callback c, owner.caller c]
  | reporting {owner c events o e} (h : Before owner c events) (ho : fault c o = some e)
      (layers : Handler) :
      Stands running owner (events ++ [.began c, .ended c o])
        [.report e layers, owner.reporter c]
  | handling {owner c events o e} (h : Before owner c events) (ho : fault c o = some e) :
      Stands running owner (events ++ [.began c, .ended c o, .reported e])
        [.handling e, owner.reporter c]
  | startFailed (o : Outcome) : Stands running .run (attempt .onStart o) [.run .startFailed]
  | looping {events stage} (h : Before .run .doWork events) (hstage : stage.loops = true) :
      Stands running .run events [.run stage]
  /-- The loop is not to be entered again. -/
  | stopped {events} (h : Before .run .onClose events) (hr : running = false) :
      Stands running .run events [.run .loadRunning]
  | closing {owner events} (h : Before owner .onClose events) :
      Stands running owner events [.teardown owner .closeDue]
  | announcing {owner events} (h : Life owner events) :
      Stands running owner events [.teardown owner .announce]
  | releasing {owner events} (h : Life owner events) (stage : ReleaseStage) :
      Stands running owner events [.release owner stage none]
  | unwinding {owner events} (h : Cut owner events) (stage : ReleaseStage) (p : Payload) :
      Stands running owner events [.release owner stage (some p)]
  | gone {owner events} (h : Life owner events ∨ Cut owner events) :
      Stands running owner events []

variable {running running' : Bool} {owner : Owner} {events : List Signal}

/-- A call that has just taken the runner is at the start of its life. -/
theorem Stands.first (owner : Owner) : Stands running owner [] [owner.first] := by
  cases owner with
  | run => exact .bound
  | close => exact .closing .only

theorem Stands.unfolds (h : Stands running owner events core) : Unfolds owner events := by
  cases h with
  | bound | starting => exact Before.start.unfolds_nil
  | calling h => exact h.unfolds_began
  | reporting h ho => exact h.unfolds_ended _
  | handling h ho => exact h.unfolds_reported ho
  | startFailed o => exact (before_close_of_start o).unfolds_nil
  | looping h => exact h.unfolds_nil
  | stopped h => exact h.unfolds_nil
  | closing h => exact h.unfolds_nil
  | announcing h => exact h.unfolds
  | releasing h => exact h.unfolds
  | unwinding h => exact .inr h
  | gone h => exact h.elim Life.unfolds .inr

/-- The flag only matters while it is down. -/
theorem Stands.later (h : Stands running owner events core)
    (hr : running' = true → running = true) : Stands running' owner events core := by
  cases h with
  | bound => exact .bound
  | starting => exact .starting
  | calling h => exact .calling h
  | reporting h ho layers => exact .reporting h ho layers
  | handling h ho => exact .handling h ho
  | startFailed o => exact .startFailed o
  | looping h hstage => exact .looping h hstage
  | stopped h hdown =>
    refine .stopped h (Bool.eq_false_iff.2 fun hup => ?_)
    rw [hr hup] at hdown
    exact Bool.noConfusion hdown
  | closing h => exact .closing h
  | announcing h => exact .announcing h
  | releasing h stage => exact .releasing h stage
  | unwinding h stage p => exact .unwinding h stage p
  | gone h => exact .gone h

/-! ## Steps of the owner -/

theorem Before.owner_eq {c : Callback} (h : Before owner c events) (hc : c ≠ .onClose) :
    owner = .run := by
  cases h with
  | start | work | close => rfl
  | only => exact absurd rfl hc

/-- The end of a callback. -/
theorem Before.ended {c : Callback} (h : Before owner c events) {handler : Handler} {o : Outcome}
    (hs : afterCallback handler o.result [owner.caller c] = some stack) :
    Stands running owner (events ++ [.began c, .ended c o]) stack := by
  cases hr : o.result with
  | ok n =>
    have ho := fault_of_ok (c := c) hr
    rw [hr] at hs
    rw [← attempt_of_none ho]
    cases c with
    | onStart =>
      cases h with
      | start =>
        cases hs
        exact .looping (before_work_of_start ho) rfl
    | doWork =>
      obtain rfl := h.owner_eq Callback.noConfusion
      cases n with
      | zero =>
        cases hs
        exact .looping (h.work_again o) rfl
      | succ n =>
        cases hs
        exact .looping (h.work_again o) rfl
    | onClose =>
      cases hs
      exact .announcing (h.life o)
  | error e =>
    rw [hr] at hs
    by_cases hquit : c = .doWork ∧ e = .cancelled
    · obtain ⟨rfl, rfl⟩ := hquit
      obtain rfl := h.owner_eq Callback.noConfusion
      cases hs
      rw [← attempt_of_none (fault_cancelled hr)]
      exact .looping (h.work_again o) rfl
    · have hstack : stack = [.report e handler, owner.reporter c] := by
        cases c with
        | onStart => cases hs; rfl
        | doWork =>
          cases e with
          | cancelled => exact absurd ⟨rfl, rfl⟩ hquit
          | panicked | message | failed => cases hs; rfl
        | onClose => cases hs; rfl
      rw [hstack]
      exact .reporting h (fault_of_error hr hquit) handler

/-- The end of a report. -/
theorem Before.settled {c : Callback} (h : Before owner c events) {o : Outcome} {e : AgentError}
    (ho : fault c o = some e) {panic : Option Payload}
    (hs : afterReport panic [owner.reporter c] = some stack) :
    Stands running owner
      (events ++ [.began c, .ended c o, .reported e] ++ [.settled panic]) stack := by
  cases panic with
  | some p =>
    have hstack : stack = [.release owner .storeClosed (some p)] := by
      cases c with
      | onStart | doWork =>
        obtain rfl := h.owner_eq Callback.noConfusion
        cases hs
        rfl
      | onClose => cases hs; rfl
    rw [hstack]
    exact .unwinding (h.cut ho p) .storeClosed p
  | none =>
    have hattempt : events ++ [.began c, .ended c o, .reported e] ++ [.settled none] =
        events ++ attempt c o := by
      rw [attempt_of_some ho, List.append_assoc]
      rfl
    rw [hattempt]
    cases c with
    | onStart =>
      cases h with
      | start =>
        cases hs
        exact .startFailed o
    | doWork =>
      obtain rfl := h.owner_eq Callback.noConfusion
      cases hs
      exact .looping (h.work_again o) rfl
    | onClose =>
      cases hs
      exact .announcing (h.life o)

theorem Stands.loop_step {stage : RunStage} (h : Before .run .doWork events)
    (hstage : stage.loops = true) (hs : stepRun me c [] stage = some (c', stack, signals)) :
    Stands c'.running .run (events ++ signals.filter Signal.isEvent) stack ∧ Later c c' := by
  have hdown (hr : false = true) : c.running = true := Bool.noConfusion hr
  cases stage with
  | loadRunning =>
    simp only [stepRun] at hs
    cases hs
    rw [List.filter_nil, List.append_nil]
    refine ⟨?_, .refl c⟩
    split
    · exact .looping h rfl
    · exact .closing h.close_of_work
  | workDue =>
    cases hs
    exact ⟨.calling h, .refl c⟩
  | loadCancelled =>
    simp only [stepRun] at hs
    cases hs
    rw [List.filter_nil, List.append_nil]
    refine ⟨.looping h ?_, .refl c⟩
    split <;> rfl
  | stop | quit =>
    cases hs
    rw [List.filter_nil, List.append_nil]
    exact ⟨.looping h rfl, hdown, .rfl⟩
  | storeCancelled =>
    cases hs
    rw [List.filter_nil, List.append_nil]
    exact ⟨.looping h rfl, id, .rfl⟩
  | _ => exact Bool.noConfusion hstage

theorem ReleaseStep.quiet {panic : Option Payload} {stage : ReleaseStage}
    (h : ReleaseStep me c [] owner panic stage c' stack signals) :
    (stack = [] ∨ ∃ stage', stack = [.release owner stage' panic]) ∧
      signals.filter Signal.isEvent = [] ∧ Later c c' := by
  cases h with
  | unlocks => exact ⟨.inl rfl, by cases panic <;> rfl, id, .rfl⟩
  | _ => exact ⟨.inr ⟨_, rfl⟩, rfl, id, .rfl⟩

/-- A step of the runner's own code. -/
theorem Stands.go {handler : Handler} (h : Stands c.running owner events core)
    (hs : stepThread handler me c core .go = some (c', stack, signals)) :
    Stands c'.running owner (events ++ signals.filter Signal.isEvent) stack ∧ Later c c' := by
  cases h with
  | bound =>
    cases hs
    exact ⟨.starting, id, .rfl⟩
  | starting =>
    cases hs
    exact ⟨.calling .start, .refl c⟩
  | calling | handling | gone => cases hs
  | reporting h ho layers =>
    cases layers with
    | innermost =>
      cases hs
      rw [List.append_assoc]
      exact ⟨.handling h ho, .refl c⟩
    | counted i inner =>
      cases hs
      refine ⟨?_, id, .rfl⟩
      rw [List.filter_cons_of_neg Bool.false_ne_true, List.filter_nil, List.append_nil]
      exact .reporting h ho inner
  | startFailed o =>
    cases hs
    rw [List.filter_nil, List.append_nil]
    exact ⟨.stopped (before_close_of_start o) rfl, fun hr => Bool.noConfusion hr, .rfl⟩
  | looping h hstage => exact Stands.loop_step h hstage hs
  | stopped h hdown =>
    simp only [stepThread, stepRun, hdown] at hs
    cases hs
    rw [List.filter_nil, List.append_nil]
    exact ⟨.closing h, .refl c⟩
  | closing h =>
    cases hs
    exact ⟨.calling h, .refl c⟩
  | announcing h =>
    cases hs
    have hquiet :
        (if owner = .run then [Signal.notice .closed] else []).filter Signal.isEvent = [] := by
      split <;> rfl
    rw [hquiet, List.append_nil]
    exact ⟨.releasing h .storeClosed, .refl c⟩
  | releasing h stage =>
    obtain ⟨hstack, hquiet, hc⟩ := (stepThread_release_iff.1 hs).2.quiet
    rw [hquiet, List.append_nil]
    rcases hstack with rfl | ⟨stage', rfl⟩
    · exact ⟨.gone (.inl h), hc⟩
    · exact ⟨.releasing h stage', hc⟩
  | unwinding h stage p =>
    obtain ⟨hstack, hquiet, hc⟩ := (stepThread_release_iff.1 hs).2.quiet
    rw [hquiet, List.append_nil]
    rcases hstack with rfl | ⟨stage', rfl⟩
    · exact ⟨.gone (.inr h), hc⟩
    · exact ⟨.unwinding h stage' p, hc⟩

/-- The owner sleeps nowhere. -/
theorem Stands.stir_eq_none {handler : Handler} (h : Stands running owner events core) :
    stepThread handler me c core .stir = none := by
  cases h <;> rfl

/-- A step on the owner's frames, visits apart. -/
theorem Stands.step {handler : Handler} {move : Move} (h : Stands c.running owner events core)
    (hmove : ∀ call, move ≠ .call call)
    (hs : stepThread handler me c core move = some (c', stack, signals)) :
    Stands c'.running owner (events ++ signals.filter Signal.isEvent) stack ∧ Later c c' := by
  cases move with
  | go => exact h.go hs
  | call call => exact absurd rfl (hmove call)
  | finish o =>
    cases h with
    | calling h =>
      simp only [stepThread, Option.map_eq_some_iff] at hs
      obtain ⟨_, hafter, hs⟩ := hs
      cases hs
      rw [List.append_assoc]
      exact ⟨h.ended hafter, .refl c⟩
    | _ => cases hs
  | settle panic =>
    cases h with
    | handling h ho =>
      simp only [stepThread, Option.map_eq_some_iff] at hs
      obtain ⟨_, hafter, hs⟩ := hs
      cases hs
      exact ⟨h.settled ho hafter, .refl c⟩
    | _ => cases hs
  | stir => cases h.stir_eq_none.symm.trans hs

end RingTransport.Runner
