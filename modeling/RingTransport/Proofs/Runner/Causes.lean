/-
  Why a runner is cancelled, and why its loop is to stop. A frame that is going to lower the flag
  of the loop, or to raise that of the cancellation, stands for something that was shown before: a
  call, a start that failed, or work that asked to stop (`Frame.Founded`). Each step of a thread
  keeps the account (`Founded.step`), and a run does (`System.Founded.steps`). Main fact: whatever
  the threads do, the flags have such causes, and no failure of work is among them (`founded_run`).
-/
import RingTransport.Proofs.Runner.Accesses

namespace RingTransport.Runner

/-! ## Causes -/

/-- Somebody has cancelled the runner, or work has asked to stop. -/
def CancelledBy (shown : List Signal) : Prop :=
  .called .cancel ∈ shown ∨ .ended .doWork (.error .cancelled) ∈ shown

/-- The start has failed. -/
def StartFailed (shown : List Signal) : Prop :=
  ∃ o e, .ended .onStart o ∈ shown ∧ fault .onStart o = some e

/-- Somebody has closed the runner or let go of it, or the start has failed, or the runner is
cancelled. -/
def StoppedBy (shown : List Signal) : Prop :=
  .called .close ∈ shown ∨ .called .drop ∈ shown ∨ StartFailed shown ∨ CancelledBy shown

/-- What must have been shown when a frame is on a stack. -/
def Frame.Founded (shown : List Signal) : Frame → Prop
  | .close .storeStopped => .called .close ∈ shown ∨ .called .drop ∈ shown
  | .cancel .storeCancelled => .called .cancel ∈ shown
  | .run .startReport | .run .startFailed => StartFailed shown
  | .run .stop => CancelledBy shown
  | .run .quit | .run .storeCancelled => .ended .doWork (.error .cancelled) ∈ shown
  | _ => True

variable {shown shown' signals : List Signal} {f : Frame} {c c' : Cells}
  {stack stack' rest : List Frame} {me : Nat} {handler : Handler} {move : Move}

theorem CancelledBy.mono (h : CancelledBy shown) (hsub : shown ⊆ shown') : CancelledBy shown' :=
  h.imp (@hsub _) (@hsub _)

theorem StartFailed.mono (h : StartFailed shown) (hsub : shown ⊆ shown') : StartFailed shown' := by
  obtain ⟨o, e, hended, hfault⟩ := h
  exact ⟨o, e, hsub hended, hfault⟩

theorem StoppedBy.mono (h : StoppedBy shown) (hsub : shown ⊆ shown') : StoppedBy shown' :=
  h.imp (@hsub _) (Or.imp (@hsub _) (Or.imp (·.mono hsub) (·.mono hsub)))

theorem Frame.Founded.mono (h : f.Founded shown) (hsub : shown ⊆ shown') : f.Founded shown' := by
  cases f with
  | close stage =>
    cases stage with
    | storeStopped => exact Or.imp (@hsub _) (@hsub _) h
    | _ => trivial
  | cancel stage =>
    cases stage with
    | storeCancelled => exact hsub h
    | unpark => trivial
  | run stage =>
    cases stage with
    | startReport | startFailed => exact StartFailed.mono h hsub
    | stop => exact CancelledBy.mono h hsub
    | quit | storeCancelled => exact hsub h
    | _ => trivial
  | _ => trivial

/-! ## One thread -/

/-- The flags and the frames of a stack have causes among what was shown. -/
structure Founded (shown : List Signal) (c : Cells) (stack : List Frame) : Prop where
  frames : ∀ f ∈ stack, f.Founded shown
  cancelled : c.cancelled = true → CancelledBy shown
  running : c.running = false → StoppedBy shown

namespace Founded

theorem mono (h : Founded shown c stack) (hsub : shown ⊆ shown') : Founded shown' c stack where
  frames f hf := (h.frames f hf).mono hsub
  cancelled hup := (h.cancelled hup).mono hsub
  running hdown := (h.running hdown).mono hsub

theorem top (h : Founded shown c (f :: rest)) : f.Founded shown := h.frames f (List.mem_cons_self ..)

theorem below (h : Founded shown c (f :: rest)) : Founded shown c rest where
  frames f hf := h.frames f (List.mem_cons_of_mem _ hf)
  cancelled := h.cancelled
  running := h.running

theorem push (h : Founded shown c rest) (hf : f.Founded shown) : Founded shown c (f :: rest) where
  frames := List.forall_mem_cons.2 ⟨hf, h.frames⟩
  cancelled := h.cancelled
  running := h.running

/-- The other cells are of no account. -/
theorem of_flags (h : Founded shown c stack) (hcancelled : c'.cancelled = c.cancelled)
    (hrunning : c'.running = c.running) : Founded shown c' stack where
  frames := h.frames
  cancelled hup := h.cancelled (hcancelled ▸ hup)
  running hdown := h.running (hrunning ▸ hdown)

theorem goes_on (h : Founded shown c rest) (hcancelled : c'.cancelled = c.cancelled)
    (hrunning : c'.running = c.running) (hf : f.Founded shown) : Founded shown c' (f :: rest) :=
  (h.of_flags hcancelled hrunning).push hf

theorem stop (h : Founded shown c stack) (hcause : StoppedBy shown) :
    Founded shown { c with running := false } stack where
  frames := h.frames
  cancelled := h.cancelled
  running _ := hcause

theorem cancel (h : Founded shown c stack) (hcause : CancelledBy shown) :
    Founded shown { c with cancelled := true } stack where
  frames := h.frames
  cancelled _ := hcause
  running := h.running

/-! ## Steps -/

theorem stepRun {stage : RunStage} (h : Founded shown c (.run stage :: rest))
    (hs : stepRun me c rest stage = some (c', stack, signals)) : Founded shown c' stack := by
  have hrest := h.below
  cases stage with
  | bind =>
    simp only [Runner.stepRun] at hs
    split at hs
    · cases hs
      exact hrest.goes_on rfl rfl trivial
    · cases hs
      exact hrest
  | storeHandle => cases hs; exact hrest.goes_on rfl rfl trivial
  | startDue | workDue => cases hs; exact push (push hrest trivial) trivial
  | startFailed => cases hs; exact (hrest.stop (.inr (.inr (.inl h.top)))).push trivial
  | loadRunning =>
    simp only [Runner.stepRun] at hs
    cases hs
    refine hrest.push ?_
    split <;> trivial
  | loadCancelled =>
    simp only [Runner.stepRun] at hs
    cases hs
    refine hrest.push ?_
    split
    · next hup => exact h.cancelled hup
    · trivial
  | stop => cases hs; exact (hrest.stop (.inr (.inr (.inr h.top)))).push trivial
  | quit => cases hs; exact (hrest.stop (.inr (.inr (.inr (.inr h.top))))).push h.top
  | storeCancelled => cases hs; exact (hrest.cancel (.inr h.top)).push trivial
  | inStart | startReport | inWork | workReport => cases hs

theorem releaseStep {owner : Owner} {stage : ReleaseStage} {panic : Option Payload}
    (hrest : Founded shown c rest)
    (hs : ReleaseStep me c rest owner panic stage c' stack signals) : Founded shown c' stack := by
  cases hs with
  | unlocks => exact hrest.of_flags rfl rfl
  | _ => exact hrest.goes_on rfl rfl trivial

theorem closeStep {stage : CloseStage} (h : Founded shown c (.close stage :: rest))
    (hs : CloseStep me c rest move stage c' stack signals) : Founded shown c' stack := by
  have hrest := h.below
  cases hs with
  | storesStopped => exact (hrest.stop (h.top.imp_right .inl)).push trivial
  | findsClosed | isClosed | isSelf => exact hrest
  | unlocks => exact hrest.of_flags rfl rfl
  | _ => exact hrest.goes_on rfl rfl trivial

theorem stepObserve {stage : ObserveStage} (hrest : Founded shown c rest)
    (hs : stepObserve c rest stage = some (c', stack, signals)) : Founded shown c' stack := by
  obtain ⟨rfl, rfl | ⟨later, rfl⟩⟩ := stepObserve_eq hs
  · exact hrest
  · exact hrest.push trivial

/-- The end of a callback. Only `doWork` may ask to stop, and only a start that failed is reported
as one. -/
theorem afterCallback {owner : Owner} {cb : Callback} {o : Outcome}
    (hrest : Founded shown c rest) (hended : .ended cb o ∈ shown)
    (hs : afterCallback handler o.result (owner.caller cb :: rest) = some stack) :
    Founded shown c stack := by
  cases hr : o.result with
  | ok n =>
    rw [hr] at hs
    cases cb with
    | onStart | onClose => cases hs; exact hrest.push trivial
    | doWork => cases n <;> (cases hs; exact hrest.push trivial)
  | error e =>
    rw [hr] at hs
    cases cb with
    | onStart =>
      have hfault : fault .onStart o = some e :=
        fault_of_error hr fun hboth => Callback.noConfusion hboth.1
      have hfailed : StartFailed shown := ⟨o, e, hended, hfault⟩
      cases hs
      exact push (push hrest hfailed) trivial
    | onClose => cases hs; exact push (push hrest trivial) trivial
    | doWork =>
      cases e with
      | cancelled =>
        cases hs
        cases o with
        | ok | panicked => cases hr
        | error e => cases hr; exact hrest.push hended
      | panicked | message | failed => cases hs; exact push (push hrest trivial) trivial

/-- The end of a report. -/
theorem afterReport {panic : Option Payload} (h : Founded shown c rest)
    (hs : afterReport panic rest = some stack) : Founded shown c stack := by
  unfold Runner.afterReport at hs
  split at hs
  · have hfailed : StartFailed shown := h.top
    split at hs
    · cases hs; exact h.below.push hfailed
    · cases hs; exact h.below.push trivial
  · split at hs <;> (cases hs; exact h.below.push trivial)
  · split at hs <;> (cases hs; exact h.below.push trivial)
  · cases hs

end Founded

/-- A step of a thread on whose stack each callback stands on the stage that called it. -/
theorem Founded.step (h : Founded shown c stack)
    (hcalled : ∀ cb below, stack = .callback cb :: below →
      ∃ owner : Owner, below = [owner.caller cb])
    (hs : stepThread handler me c stack move = some (c', stack', signals)) :
    Founded (shown ++ signals) c' stack' := by
  have hnow := h.mono (List.subset_append_left shown signals)
  cases move with
  | call call =>
    simp only [stepThread] at hs
    split at hs
    · cases hs
      have hmem : Signal.called call ∈ shown ++ [.called call] :=
        List.mem_append_right _ (List.mem_singleton_self _)
      refine hnow.push ?_
      cases call with
      | close => exact .inl hmem
      | drop => exact .inr hmem
      | cancel => exact hmem
      | _ => trivial
    · cases hs
  | finish o =>
    cases stack with
    | nil => cases hs
    | cons f below =>
      cases f with
      | callback cb =>
        simp only [stepThread, Option.map_eq_some_iff] at hs
        obtain ⟨_, hafter, hs⟩ := hs
        cases hs
        obtain ⟨owner, rfl⟩ := hcalled cb below rfl
        exact hnow.below.below.afterCallback (List.mem_append_right _ (List.mem_singleton_self _))
          hafter
      | _ => cases hs
  | settle panic =>
    cases stack with
    | nil => cases hs
    | cons f below =>
      cases f with
      | handling e =>
        simp only [stepThread, Option.map_eq_some_iff] at hs
        obtain ⟨_, hafter, hs⟩ := hs
        cases hs
        exact hnow.below.afterReport hafter
      | _ => cases hs
  | stir =>
    cases stack with
    | nil => cases hs
    | cons f below =>
      cases f with
      | close stage => exact hnow.closeStep (stepThread_close_iff.1 hs)
      | _ => cases hs
  | go =>
    cases stack with
    | nil => cases hs
    | cons f rest =>
      cases f with
      | run stage => exact hnow.stepRun hs
      | teardown owner stage =>
        cases stage with
        | inClose | closeReport => cases hs
        | closeDue => cases hs; exact push (push hnow.below trivial) trivial
        | announce => cases hs; exact hnow.below.push trivial
      | release owner stage panic => exact hnow.below.releaseStep (stepThread_release_iff.1 hs).2
      | close stage => exact hnow.closeStep (stepThread_close_iff.1 hs)
      | cancel stage =>
        cases stage with
        | storeCancelled => cases hs; exact (hnow.below.cancel (.inl hnow.top)).push trivial
        | unpark => cases hs; exact hnow.below
      | observe stage => exact hnow.below.stepObserve hs
      | report e layers =>
        cases layers with
        | innermost => cases hs; exact hnow.below.push trivial
        | counted i inner => cases hs; exact hnow.below.goes_on rfl rfl trivial
      | callback | handling => cases hs

/-! ## All threads -/

variable {s s' : System} {t : Nat} {history : List (Nat × Signal)} {taker : Option (Owner × Nat)}
  {moves : List (Nat × Move)} {run : List (Nat × Signal)}

/-- What is below a callback in progress. -/
theorem Inv.caller_below (h : Inv s history taker) {cb : Callback} {below : List Frame}
    (hstack : s.frames[t]? = some (.callback cb :: below)) :
    ∃ owner : Owner, below = [owner.caller cb] := by
  obtain ⟨core, hover, hcore⟩ := h.exists_base hstack
  cases hover with
  | alone =>
    rcases hcore with hnil | ⟨owner, events, hstands⟩
    · cases hnil
    · cases hstands with
      | calling => exact ⟨owner, rfl⟩
  | visit hf => cases hf

/-- The flags of a runner, and the frames of all its threads, have causes among what was shown. -/
structure System.Founded (shown : List Signal) (s : System) : Prop where
  frames : ∀ stack ∈ s.frames, ∀ f ∈ stack, f.Founded shown
  cancelled : s.cells.cancelled = true → CancelledBy shown
  running : s.cells.running = false → StoppedBy shown

theorem System.founded_init (threads layers : Nat) : (System.init threads layers).Founded [] where
  frames stack hmem f hf := by
    rw [List.eq_of_mem_replicate hmem] at hf
    cases hf
  cancelled := nofun
  running := nofun

theorem System.Founded.step (h : s.Founded shown) (hinv : Inv s history taker)
    (hs : s.step t move = some (signals, s')) : s'.Founded (shown ++ signals) := by
  obtain ⟨stack, stack', hstack, hframes, hstep⟩ := System.step_cases hs
  have hmine : Runner.Founded shown s.cells stack :=
    ⟨h.frames stack (List.mem_of_getElem? hstack), h.cancelled, h.running⟩
  have hcalled : ∀ cb below, stack = .callback cb :: below →
      ∃ owner : Owner, below = [owner.caller cb] := by
    rintro cb below rfl
    exact hinv.caller_below hstack
  obtain ⟨hown, hcancelled, hrunning⟩ := hmine.step hcalled hstep
  refine ⟨fun other hmem f hf => ?_, hcancelled, hrunning⟩
  rw [hframes] at hmem
  rcases List.mem_or_eq_of_mem_set hmem with hold | rfl
  · exact (h.frames other hold f hf).mono (List.subset_append_left ..)
  · exact hown f hf

theorem System.Founded.steps (h : s.Founded shown) (hheld : Held s history taker)
    (hs : s.steps moves = some (run, s')) : s'.Founded (shown ++ run.map (·.2)) := by
  induction moves generalizing s shown history taker run with
  | nil =>
    cases hs
    rw [List.map_nil, List.append_nil]
    exact h
  | cons move moves ih =>
    obtain ⟨t, move⟩ := move
    obtain ⟨first, s₁, later, hfirst, hlater, rfl⟩ := System.steps_cons hs
    rw [List.map_append, map_snd_map, ← List.append_assoc]
    exact ih (h.step hheld.inv hfirst) (hheld.step hfirst) hlater

/-- Whatever any number of threads do with a runner, however its callbacks and its handler end:
if it is cancelled, somebody has cancelled it or work has asked to stop; and if its loop is to
stop, it is cancelled, or was closed or let go of, or its start has failed. -/
theorem founded_run (threads layers : Nat)
    (hs : (System.init threads layers).steps moves = some (run, s)) :
    s.Founded (run.map (·.2)) :=
  (System.founded_init threads layers).steps (held_init threads layers) hs

end RingTransport.Runner
