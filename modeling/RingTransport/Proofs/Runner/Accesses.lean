/-
  What one step of a thread does and shows. Apart from the counters of the handler, a step makes
  at most one access to the shared cells (`Access`), and what it shows follows from the frame it
  goes on with (`Shows`). Main facts: `stepThread_access` and `stepThread_shows`, and that what a
  run shows, it shows in one of its steps (`System.exists_step`).
-/
import RingTransport.Proofs.Runner.Marks

namespace RingTransport.Runner

/-! ## Accesses -/

/-- An access of a thread to the shared cells. -/
inductive Access (me : Nat) (c : Cells) : Cells → Prop
  | reads : Access me c c
  | binds (htag : c.tag = .unbound) : Access me c { c with tag := .bound }
  | names : Access me c { c with handle := c.handle.or (some me) }
  | stops : Access me c { c with running := false }
  | cancels : Access me c { c with cancelled := true }
  | swaps : Access me c { c with tag := .closed }
  | closes : Access me c { c with closed := true }
  | opens : Access me c { c with latch.done := true }
  | locks : Access me c { c with latch.holder := some me }
  | unlocks : Access me c { c with latch.holder := none }
  | sleeps :
      Access me c { c with latch.holder := none, latch.sleepers := me :: c.latch.sleepers }
  | wakes : Access me c { c with latch.sleepers := [] }
  | stirs : Access me c { c with latch.sleepers := c.latch.sleepers.erase me }

variable {me : Nat} {c c' : Cells} {core stack stack' : List Frame} {signals : List Signal}
  {signal : Signal} {handler : Handler} {move : Move}

theorem stepRun_access {stage : RunStage}
    (hs : stepRun me c core stage = some (c', stack', signals)) : Access me c c' := by
  cases stage with
  | bind =>
    simp only [stepRun] at hs
    split at hs
    · next htag =>
      cases hs
      exact .binds htag
    · cases hs
      exact .reads
  | storeHandle => cases hs; exact .names
  | startFailed | stop | quit => cases hs; exact .stops
  | storeCancelled => cases hs; exact .cancels
  | inStart | startReport | inWork | workReport => cases hs
  | _ => cases hs; exact .reads

theorem ReleaseStep.access {owner : Owner} {stage : ReleaseStage} {panic : Option Payload}
    (h : ReleaseStep me c core owner panic stage c' stack' signals) : Access me c c' := by
  cases h with
  | storesClosed => exact .closes
  | locks => exact .locks
  | storesDone => exact .opens
  | wakes => exact .wakes
  | unlocks => exact .unlocks

theorem CloseStep.access {stage : CloseStage}
    (h : CloseStep me c core move stage c' stack' signals) : Access me c c' := by
  cases h with
  | storesStopped => exact .stops
  | findsUnbound | findsBound => exact .swaps
  | locks | awakes => exact .locks
  | sleeps => exact .sleeps
  | stirs => exact .stirs
  | unlocks => exact .unlocks
  | _ => exact .reads

/-- A step makes an access to the shared cells, or a layer of the handler counts. -/
theorem stepThread_access (hs : stepThread handler me c stack move = some (c', stack', signals)) :
    Access me c c' ∨ ∃ e i inner rest, stack = .report e (.counted i inner) :: rest ∧
      c' = { c with counters := bump c.counters i } := by
  cases move with
  | call call =>
    simp only [stepThread] at hs
    split at hs
    · cases hs
      exact .inl .reads
    · cases hs
  | finish o | settle panic =>
    simp only [stepThread] at hs
    split at hs
    · obtain ⟨_, -, hs⟩ := Option.map_eq_some_iff.1 hs
      cases hs
      exact .inl .reads
    · cases hs
  | stir =>
    simp only [stepThread] at hs
    split at hs
    · cases hs
      exact .inl .stirs
    · cases hs
  | go =>
    cases stack with
    | nil => cases hs
    | cons f rest =>
      cases f with
      | run stage => exact .inl (stepRun_access hs)
      | teardown owner stage =>
        cases stage with
        | inClose | closeReport => cases hs
        | closeDue | announce => cases hs; exact .inl .reads
      | release owner stage panic => exact .inl (stepThread_release_iff.1 hs).2.access
      | close stage => exact .inl (stepThread_close_iff.1 hs).access
      | cancel stage =>
        cases stage with
        | storeCancelled => cases hs; exact .inl .cancels
        | unpark => cases hs; exact .inl .reads
      | observe stage =>
        obtain ⟨rfl, -⟩ := stepObserve_eq hs
        exact .inl .reads
      | report e layers =>
        cases layers with
        | innermost => cases hs; exact .inl .reads
        | counted i inner => cases hs; exact .inr ⟨e, i, inner, rest, rfl, rfl⟩
      | callback | handling => cases hs

/-- The lock goes to nobody but the thread of the access. -/
theorem Access.holder_cases (h : Access me c c') :
    c'.latch.holder = c.latch.holder ∨ c'.latch.holder = none ∨ c'.latch.holder = some me := by
  cases h with
  | locks => exact .inr (.inr rfl)
  | unlocks | sleeps => exact .inr (.inl rfl)
  | _ => exact .inl rfl

theorem Access.counters_eq (h : Access me c c') : c'.counters = c.counters := by
  cases h <;> rfl

/-! ## Signals -/

/-- What an observing call may answer at a stage. -/
inductive Answers (c : Cells) : ObserveStage → Observation → Prop
  | stopped (h : c.running = false) : Answers c .loadRunning (.running false)
  | running : Answers c .loadNotClosed (.running !c.closed)
  | closed : Answers c .loadClosed (.closed c.closed)
  | cancelled : Answers c .loadCancelled (.cancelled c.cancelled)
  | unbound (h : c.tag = .unbound) : Answers c (.loadTag false) .unbound
  | tombstone (h : c.tag = .closed) : Answers c (.loadTag false) .tombstone
  | bound {t : Nat} (h : c.handle = some t) : Answers c (.awaitHandle false) (.bound t)
  | named {t : Nat} (h : c.handle = some t) : Answers c (.awaitHandle true) (.thread (some t))
  | thread : Answers c .loadHandle (.thread c.handle)

/-- What a step shows, by the frame that takes it. -/
inductive Shows (c : Cells) : Move → List Frame → Signal → Prop
  | called {call stack} : Shows c (.call call) stack (.called call)
  | ended {o cb rest} : Shows c (.finish o) (.callback cb :: rest) (.ended cb o)
  | settled {panic e rest} : Shows c (.settle panic) (.handling e :: rest) (.settled panic)
  | ignored {rest} : Shows c .go (.run .bind :: rest) (.notice .alreadyBound)
  | leavesRun {rest} : Shows c .go (.run .bind :: rest) (.returned .run)
  | starting {rest} : Shows c .go (.run .storeHandle :: rest) (.notice .starting)
  | start {rest} : Shows c .go (.run .startDue :: rest) (.began .onStart)
  | work {rest} : Shows c .go (.run .workDue :: rest) (.began .doWork)
  | close {owner rest} : Shows c .go (.teardown owner .closeDue :: rest) (.began .onClose)
  | announced {owner rest} : Shows c .go (.teardown owner .announce :: rest) (.notice .closed)
  | leavesRelease {owner rest} :
      Shows c .go (.release owner .unlock none :: rest) (.returned owner.call)
  | unwound {owner p rest} :
      Shows c .go (.release owner .unlock (some p) :: rest) (.unwound owner.call p)
  | neverStarted {rest} : Shows c .go (.close .swap :: rest) (.notice .neverStarted)
  | leavesClose {stage rest} : Shows c .go (.close stage :: rest) (.returned .close)
  | wakesWorker {t rest} (h : c.handle = some t) :
      Shows c .go (.close .unpark :: rest) (.unparked t)
  | wakesCancelled {t rest} (h : c.handle = some t) :
      Shows c .go (.cancel .unpark :: rest) (.unparked t)
  | leavesCancel {rest} : Shows c .go (.cancel .unpark :: rest) (.returned .cancel)
  | answers {stage o rest} (h : Answers c stage o) :
      Shows c .go (.observe stage :: rest) (.observed o)
  | counted {e i inner rest} : Shows c .go (.report e (.counted i inner) :: rest) (.counted i)
  | reported {e rest} : Shows c .go (.report e .innermost :: rest) (.reported e)

theorem stepRun_shows {stage : RunStage}
    (hs : stepRun me c core stage = some (c', stack', signals)) (hmem : signal ∈ signals) :
    Shows c .go (.run stage :: core) signal := by
  cases stage with
  | bind =>
    simp only [stepRun] at hs
    split at hs
    · cases hs
      cases hmem
    · cases hs
      rcases List.mem_cons.1 hmem with rfl | hmem
      · exact .ignored
      · rw [List.mem_singleton.1 hmem]
        exact .leavesRun
  | storeHandle => cases hs; rw [List.mem_singleton.1 hmem]; exact .starting
  | startDue => cases hs; rw [List.mem_singleton.1 hmem]; exact .start
  | workDue => cases hs; rw [List.mem_singleton.1 hmem]; exact .work
  | inStart | startReport | inWork | workReport => cases hs
  | _ => cases hs; cases hmem

theorem ReleaseStep.shows {owner : Owner} {stage : ReleaseStage} {panic : Option Payload}
    (h : ReleaseStep me c core owner panic stage c' stack' signals) (hmem : signal ∈ signals) :
    Shows c .go (.release owner stage panic :: core) signal := by
  cases h with
  | unlocks =>
    rw [List.mem_singleton.1 hmem]
    cases panic with
    | none => exact .leavesRelease
    | some p => exact .unwound
  | _ => cases hmem

theorem CloseStep.shows {stage : CloseStage}
    (h : CloseStep me c core move stage c' stack' signals) (hmem : signal ∈ signals) :
    Shows c move (.close stage :: core) signal := by
  cases h with
  | findsUnbound => rw [List.mem_singleton.1 hmem]; exact .neverStarted
  | findsClosed | isClosed | isSelf | unlocks =>
    rw [List.mem_singleton.1 hmem]
    exact .leavesClose
  | unparks hhandle => rw [List.mem_singleton.1 hmem]; exact .wakesWorker hhandle
  | _ => cases hmem

theorem stepObserve_shows {stage : ObserveStage}
    (hs : stepObserve c core stage = some (c', stack', signals)) (hmem : signal ∈ signals) :
    Shows c .go (.observe stage :: core) signal := by
  cases stage with
  | loadRunning =>
    simp only [stepObserve] at hs
    split at hs
    · cases hs
      cases hmem
    · next hdown =>
      cases hs
      rw [List.mem_singleton.1 hmem]
      exact .answers (.stopped (Bool.eq_false_iff.2 hdown))
  | loadNotClosed => cases hs; rw [List.mem_singleton.1 hmem]; exact .answers .running
  | loadClosed => cases hs; rw [List.mem_singleton.1 hmem]; exact .answers .closed
  | loadCancelled => cases hs; rw [List.mem_singleton.1 hmem]; exact .answers .cancelled
  | loadTag forThread =>
    simp only [stepObserve] at hs
    split at hs
    · cases hs
      cases hmem
    · next htag =>
      cases hs
      rw [List.mem_singleton.1 hmem]
      exact .answers (.unbound htag)
    · next htag =>
      cases hs
      rw [List.mem_singleton.1 hmem]
      exact .answers (.tombstone htag)
    · cases hs
      cases hmem
  | awaitHandle forThread =>
    simp only [stepObserve] at hs
    split at hs
    · cases hs
      cases hmem
    · next hhandle =>
      cases hs
      rw [List.mem_singleton.1 hmem]
      cases forThread with
      | false => exact .answers (.bound hhandle)
      | true => exact .answers (.named hhandle)
  | loadHandle => cases hs; rw [List.mem_singleton.1 hmem]; exact .answers .thread

theorem stepThread_shows (hs : stepThread handler me c stack move = some (c', stack', signals))
    (hmem : signal ∈ signals) : Shows c move stack signal := by
  cases move with
  | call call =>
    simp only [stepThread] at hs
    split at hs
    · cases hs
      rw [List.mem_singleton.1 hmem]
      exact .called
    · cases hs
  | finish o =>
    simp only [stepThread] at hs
    split at hs
    · obtain ⟨_, -, hs⟩ := Option.map_eq_some_iff.1 hs
      cases hs
      rw [List.mem_singleton.1 hmem]
      exact .ended
    · cases hs
  | settle panic =>
    simp only [stepThread] at hs
    split at hs
    · obtain ⟨_, -, hs⟩ := Option.map_eq_some_iff.1 hs
      cases hs
      rw [List.mem_singleton.1 hmem]
      exact .settled
    · cases hs
  | stir =>
    simp only [stepThread] at hs
    split at hs
    · cases hs
      cases hmem
    · cases hs
  | go =>
    cases stack with
    | nil => cases hs
    | cons f rest =>
      cases f with
      | run stage => exact stepRun_shows hs hmem
      | teardown owner stage =>
        cases stage with
        | inClose | closeReport => cases hs
        | closeDue => cases hs; rw [List.mem_singleton.1 hmem]; exact .close
        | announce =>
          cases hs
          split at hmem
          · rw [List.mem_singleton.1 hmem]
            exact .announced
          · cases hmem
      | release owner stage panic => exact (stepThread_release_iff.1 hs).2.shows hmem
      | close stage => exact (stepThread_close_iff.1 hs).shows hmem
      | cancel stage =>
        cases stage with
        | storeCancelled => cases hs; cases hmem
        | unpark =>
          cases hs
          split at hmem
          · rw [List.mem_singleton.1 hmem]
            exact .leavesCancel
          · next h =>
            rcases List.mem_cons.1 hmem with rfl | hmem
            · exact .wakesCancelled h
            · rw [List.mem_singleton.1 hmem]
              exact .leavesCancel
      | observe stage => exact stepObserve_shows hs hmem
      | report e layers =>
        cases layers with
        | innermost => cases hs; rw [List.mem_singleton.1 hmem]; exact .reported
        | counted i inner => cases hs; rw [List.mem_singleton.1 hmem]; exact .counted
      | callback | handling => cases hs

/-! ## Steps of the owner and of others -/

variable {s s' : System} {t thread : Nat} {owner : Owner} {history : List (Nat × Signal)}

/-- A step that is not the core's own makes an access to the cells. -/
theorem Over.access (hover : Over core stack) (hother : stack = core → ∃ call, move = .call call)
    (hs : stepThread handler me c stack move = some (c', stack', signals)) : Access me c c' := by
  rcases stepThread_access hs with haccess | ⟨e, i, inner, rest, rfl, -⟩
  · exact haccess
  · cases hover with
    | alone =>
      obtain ⟨call, rfl⟩ := hother rfl
      cases hs
    | visit hf => cases hf

/-- The panic that the owner's frames carry. -/
def carried : List Frame → Option Payload
  | .release _ _ panic :: _ => panic
  | _ => none

/-- The layers that the error on its way to the handler has still to pass. -/
def remaining : List Frame → Handler
  | .report _ layers :: _ => layers
  | _ => .innermost

/-- A step in which the owner's frames keep the panic that they carry, and a layer of the handler
is passed when it has counted. -/
structure Carries (c c' : Cells) (core core' : List Frame) : Prop where
  stays : core' ≠ []
  carried : carried core' = carried core
  bumps : (remaining core').bumps c'.counters = (remaining core).bumps c.counters

/-- A step of the runner's own code on the owner's frames ends the call of the owner, or they
carry on. -/
theorem Stands.go_cases {running : Bool} {events : List Signal}
    (h : Stands running owner events core)
    (hs : stepThread handler me c core .go = some (c', stack, signals)) :
    Carries c c' core stack ∨ ∃ panic, core = [.release owner .unlock panic] ∧ stack = [] ∧
      signals = [owner.exit panic] ∧ c'.counters = c.counters := by
  cases h with
  | calling | handling | gone => cases hs
  | reporting _ _ layers =>
    cases layers with
    | innermost | counted => cases hs; exact .inl ⟨List.cons_ne_nil _ _, rfl, rfl⟩
  | @looping _ stage _ hstage =>
    cases stage with
    | loadRunning | loadCancelled =>
      simp only [stepThread, stepRun] at hs
      cases hs
      refine .inl ⟨List.cons_ne_nil _ _, ?_, ?_⟩
      · split <;> rfl
      · split <;> rfl
    | workDue | stop | quit | storeCancelled =>
      cases hs
      exact .inl ⟨List.cons_ne_nil _ _, rfl, rfl⟩
    | _ => cases hstage
  | stopped =>
    simp only [stepThread, stepRun] at hs
    cases hs
    refine .inl ⟨List.cons_ne_nil _ _, ?_, ?_⟩
    · split <;> rfl
    · split <;> rfl
  | releasing | unwinding =>
    cases (stepThread_release_iff.1 hs).2 with
    | unlocks => exact .inr ⟨_, rfl, rfl, rfl, rfl⟩
    | _ => exact .inl ⟨List.cons_ne_nil _ _, rfl, rfl⟩
  | bound | starting | startFailed | closing | announcing =>
    cases hs
    exact .inl ⟨List.cons_ne_nil _ _, rfl, rfl⟩

/-- The frames of a thread that are not a visit. -/
def CoreAt (s : System) (thread : Nat) (core : List Frame) : Prop :=
  ∃ stack, s.frames[thread]? = some stack ∧ coreOf stack = core

theorem CoreAt.unique {core' : List Frame} (h : CoreAt s t core) (h' : CoreAt s t core') :
    core = core' := by
  obtain ⟨stack, hstack, rfl⟩ := h
  obtain ⟨stack', hstack', rfl⟩ := h'
  rw [Option.some.inj (hstack.symm.trans hstack')]

/-- A step of a runner that was taken is the owner's own, or it leaves the owner's frames alone
and no event comes of it. -/
theorem Held.step_cases (h : Held s history (some (owner, thread)))
    (hs : s.step t move = some (signals, s')) :
    ∃ core core', CoreAt s thread core ∧ CoreAt s' thread core' ∧
      Stands s.cells.running owner (history.map (·.2)) core ∧
      (t = thread ∧ (∀ call, move ≠ .call call) ∧
          stepThread s.handler thread s.cells core move = some (s'.cells, core', signals) ∨
        core' = core ∧ signals.filter Signal.isEvent = [] ∧ Access t s.cells s'.cells) := by
  obtain ⟨core, own, hstands, hbased, hown, hover, -⟩ := h.exists_core
  obtain ⟨stack, stack', hstack, hself, hothers, hstep⟩ := System.step_frames hs
  have hcore : coreOf own = core := hover.coreOf_eq hstands.coreOf_eq
  have hbase : Over (if t = thread then core else []) stack := hbased t stack hstack
  by_cases hmine : t = thread ∧ stack = core ∧ ∀ call, move ≠ .call call
  · obtain ⟨rfl, rfl, hmove⟩ := hmine
    obtain ⟨hstands', -⟩ := hstands.step hmove hstep
    exact ⟨stack, stack', ⟨own, hown, hcore⟩, ⟨stack', hself, hstands'.coreOf_eq⟩, hstands,
      .inl ⟨rfl, hmove, hstep⟩⟩
  · have hother : stack = (if t = thread then core else []) → ∃ call, move = .call call := by
      intro heq
      split at heq
      · next ht =>
        refine Classical.byContradiction fun hcall => hmine ⟨ht, heq, fun call hmove => ?_⟩
        exact hcall ⟨call, hmove⟩
      · exact call_of_stepThread_nil (heq ▸ hstep)
    obtain ⟨hquiet, ⟨hover', -⟩ | ⟨_, hunbound, -⟩⟩ := hbase.step hstep hother
    · refine ⟨core, core, ⟨own, hown, hcore⟩, ?_, hstands,
        .inr ⟨rfl, hquiet, hbase.access hother hstep⟩⟩
      by_cases ht : t = thread
      · subst ht
        rw [if_pos rfl] at hover'
        exact ⟨stack', hself, hover'.coreOf_eq hstands.coreOf_eq⟩
      · exact ⟨own, (hothers thread (Ne.symm ht)).trans hown, hcore⟩
    · exact absurd hunbound (TakenBy.tag h.inv)

/-- The step of a runner that nobody has taken makes an access to the cells, and if it takes the
runner, the owner's frames are its first. -/
theorem Held.untaken_step (h : Held s history none) (hs : s.step t move = some (signals, s')) :
    signals.filter Signal.isEvent = [] ∧ Access t s.cells s'.cells ∧
      (taken t s.cells s'.cells = none ∨ ∃ owner : Owner,
        taken t s.cells s'.cells = some (owner, t) ∧ CoreAt s' t [owner.first]) := by
  have huntaken : Untaken s history := h.inv
  obtain ⟨stack, stack', hstack, hself, -, hstep⟩ := System.step_frames hs
  have hbase := huntaken.based t stack hstack
  have hother : stack = [] → ∃ call, move = .call call := fun heq =>
    call_of_stepThread_nil (heq ▸ hstep)
  obtain ⟨hquiet, hafter⟩ := hbase.step hstep hother
  refine ⟨hquiet, hbase.access hother hstep, ?_⟩
  rcases hafter with ⟨-, hlater⟩ | ⟨owner, htag, htag', rfl⟩
  · exact .inl (taken_of_unbound (hlater.tag.2 huntaken.tag))
  · have hfirst : Stands true owner [] [owner.first] := .first owner
    exact .inr ⟨owner, taken_of_tag htag htag', _, hself, hfirst.coreOf_eq⟩

/-- How a fact about the owner's frames comes through a step: it holds when the runner has just
been taken, and it is kept by each step of the owner and by each access of another thread or of a
visit. -/
theorem Held.carry (fact : Cells → List Signal → List Frame → Prop)
    {taker : Option (Owner × Nat)} (h : Held s history taker)
    (hs : s.step t move = some (signals, s'))
    (hbefore : ∀ owner thread, taker = some (owner, thread) →
      ∃ core, CoreAt s thread core ∧ fact s.cells (history.map (·.2)) core)
    (hfirst : taker = none → Access t s.cells s'.cells →
      ∀ owner : Owner, fact s'.cells [] [owner.first])
    (hown : ∀ owner core core', Stands s.cells.running owner (history.map (·.2)) core →
      fact s.cells (history.map (·.2)) core → (∀ call, move ≠ .call call) →
      stepThread s.handler t s.cells core move = some (s'.cells, core', signals) →
      fact s'.cells (history.map (·.2) ++ signals.filter Signal.isEvent) core')
    (hother : ∀ core, Access t s.cells s'.cells → fact s.cells (history.map (·.2)) core →
      fact s'.cells (history.map (·.2)) core)
    (htaker : taker.or (taken t s.cells s'.cells) = some (owner, thread)) :
    ∃ core, CoreAt s' thread core ∧
      fact s'.cells ((history ++ eventsOf (signals.map (t, ·))).map (·.2)) core := by
  rw [map_snd_append_eventsOf]
  cases taker with
  | none =>
    have huntaken : Untaken s history := h.inv
    obtain ⟨hquiet, haccess, hnone | ⟨owner', htaken, hcore⟩⟩ := h.untaken_step hs
    · cases hnone.symm.trans htaker
    · rw [Option.none_or, htaken, Option.some.injEq, Prod.mk.injEq] at htaker
      obtain ⟨rfl, rfl⟩ := htaker
      rw [hquiet, huntaken.events]
      exact ⟨_, hcore, hfirst rfl haccess owner'⟩
  | some taker =>
    obtain rfl := Option.some.inj htaker
    obtain ⟨core, hat, hfact⟩ := hbefore owner thread rfl
    obtain ⟨core₁, core', hat₁, hat', hstands, hstep⟩ := h.step_cases hs
    obtain rfl := hat.unique hat₁
    refine ⟨core', hat', ?_⟩
    rcases hstep with ⟨rfl, hmove, hstep⟩ | ⟨rfl, hquiet, haccess⟩
    · exact hown owner core core' hstands hfact hmove hstep
    · rw [hquiet, List.append_nil]
      exact hother core' haccess hfact

/-! ## Steps of a run -/

variable {s₁ : System} {moves before after : List (Nat × Move)}
  {done later shown : List (Nat × Signal)} {u : Nat}

theorem System.steps_of_step {first : List Signal} (hfirst : s.step t move = some (first, s₁))
    (hlater : s₁.steps moves = some (later, s')) :
    s.steps ((t, move) :: moves) = some (first.map (t, ·) ++ later, s') := by
  simp only [System.steps, hfirst, hlater, bind, Option.bind, pure]

theorem System.steps_append (hbefore : s.steps before = some (done, s₁))
    (hafter : s₁.steps after = some (later, s')) :
    s.steps (before ++ after) = some (done ++ later, s') := by
  induction before generalizing s done with
  | nil =>
    cases hbefore
    exact hafter
  | cons move before ih =>
    obtain ⟨t, move⟩ := move
    obtain ⟨first, s₂, rest, hfirst, hrest, rfl⟩ := System.steps_cons hbefore
    rw [List.cons_append, System.steps_of_step hfirst (ih hrest), List.append_assoc]

theorem System.owner_append (hbefore : s.steps before = some (done, s₁)) :
    s.owner (before ++ after) = (s.owner before).or (s₁.owner after) := by
  induction before generalizing s done with
  | nil =>
    cases hbefore
    rfl
  | cons move before ih =>
    obtain ⟨t, move⟩ := move
    obtain ⟨first, s₂, rest, hfirst, hrest, -⟩ := System.steps_cons hbefore
    simp only [List.cons_append, System.owner, hfirst, ih hrest, Option.or_assoc]

/-- What a run shows, it shows in one of its steps. -/
theorem System.exists_step (hs : s.steps moves = some (shown, s')) (hmem : (u, signal) ∈ shown) :
    ∃ before move after done s₁ first s₂, moves = before ++ (u, move) :: after ∧
      s.steps before = some (done, s₁) ∧ s₁.step u move = some (first, s₂) ∧ signal ∈ first ∧
      done <+: shown := by
  induction moves generalizing s shown with
  | nil =>
    cases hs
    cases hmem
  | cons move moves ih =>
    obtain ⟨t, move⟩ := move
    obtain ⟨first, s₁, later, hfirst, hlater, rfl⟩ := System.steps_cons hs
    rcases List.mem_append.1 hmem with hnow | hlate
    · obtain ⟨_, hsignal, heq⟩ := List.mem_map.1 hnow
      obtain ⟨rfl, rfl⟩ := Prod.mk.inj heq
      exact ⟨[], move, moves, [], s, first, s₁, rfl, rfl, hfirst, hsignal, List.nil_prefix⟩
    · obtain ⟨before, move', after, done, s₂, first', s₃, rfl, hbefore, hstep, hsignal, hpre⟩ :=
        ih hlater hlate
      exact ⟨(t, move) :: before, move', after, first.map (t, ·) ++ done, s₂, first', s₃, rfl,
        System.steps_of_step hfirst hbefore, hstep, hsignal,
        (List.prefix_append_right_inj _).2 hpre⟩

end RingTransport.Runner
