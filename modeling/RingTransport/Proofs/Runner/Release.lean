/-
  How the calls that end a runner come back. The lock is held only by a thread that stands between
  locking and unlocking (`Holding`), which lets go soon. So the owner of a runner that is released
  comes to the end of its call in few steps of its own (`Held.release_comesBack`); and when that
  call is over nobody sleeps any more, and every close that is still in progress comes back
  (`Past.close_comesBack`).
-/
import RingTransport.Proofs.Runner.Accesses
import RingTransport.Proofs.Runner.Closing

namespace RingTransport.Runner

variable {s s' : System} {t me thread : Nat} {move : Move} {signals : List Signal}
  {history : List (Nat × Signal)} {taker : Option (Owner × Nat)} {owner : Owner}
  {c c' : Cells} {core stack stack' : List Frame} {handler : Handler}

/-! ## The holder of the lock -/

/-- The thread that holds the lock stands between locking and unlocking. -/
def Holding (s : System) : Prop :=
  ∀ t, s.cells.latch.holder = some t →
    ∃ stack, s.frames[t]? = some stack ∧ isLocked stack = true

theorem CloseStep.holder {stage : CloseStage}
    (h : CloseStep me c core move stage c' stack' signals)
    (hholds : c.latch.holder = some me → isLocked (.close stage :: core) = true)
    (hmine : c'.latch.holder = some me) : isLocked stack' = true := by
  cases h with
  | locks | awakes | isDone | notDone => rfl
  | sleeps | unlocks => cases hmine
  | _ => cases hholds hmine

theorem ReleaseStep.holder {stage : ReleaseStage} {panic : Option Payload}
    (h : ReleaseStep me c core owner panic stage c' stack' signals)
    (hholds : c.latch.holder = some me → isLocked (.release owner stage panic :: core) = true)
    (hmine : c'.latch.holder = some me) : isLocked stack' = true := by
  cases h with
  | storesClosed => cases hholds hmine
  | locks | storesDone | wakes => rfl
  | unlocks => cases hmine

/-- A thread that holds the lock after a step stands between locking and unlocking. -/
theorem stepThread_holder (hholds : c.latch.holder = some me → isLocked stack = true)
    (hs : stepThread handler me c stack move = some (c', stack', signals))
    (hmine : c'.latch.holder = some me) : isLocked stack' = true := by
  rcases away_cases stack with ⟨stage, core, rfl⟩ | ⟨owner, stage, panic, core, rfl⟩ | haway
  · exact (stepThread_close_iff.1 hs).holder hholds hmine
  · exact (stepThread_release_iff.1 hs).2.holder hholds hmine
  · have hlocked := hholds ((stepThread_away haway hs).1 ▸ hmine)
    cases (not_locked_of_away haway).symm.trans hlocked

theorem System.holder_step (hs : s.step t move = some (signals, s')) :
    s'.cells.latch.holder = s.cells.latch.holder ∨ s'.cells.latch.holder = none ∨
      s'.cells.latch.holder = some t := by
  obtain ⟨_, _, _, _, _, hstep⟩ := System.step_frames hs
  rcases stepThread_access hstep with haccess | ⟨e, i, inner, rest, -, hcells⟩
  · exact haccess.holder_cases
  · rw [hcells]
    exact .inl rfl

theorem Holding.step (h : Holding s) (hs : s.step t move = some (signals, s')) : Holding s' := by
  intro u hholder
  obtain ⟨stack, stack', hstack, hself, hothers, hstep⟩ := System.step_frames hs
  by_cases hu : u = t
  · subst hu
    refine ⟨stack', hself, stepThread_holder (fun hmine => ?_) hstep hholder⟩
    obtain ⟨other, hother, hlocked⟩ := h u hmine
    rw [Option.some.inj (hstack.symm.trans hother)]
    exact hlocked
  · rw [hothers u hu]
    rcases System.holder_step hs with heq | hfree | hmine
    · exact h u (heq ▸ hholder)
    · cases hfree.symm.trans hholder
    · exact absurd (Option.some.inj (hholder.symm.trans hmine)) hu

theorem Holding.steps (h : Holding s) {moves : List (Nat × Move)} {shown : List (Nat × Signal)}
    (hs : s.steps moves = some (shown, s')) : Holding s' := by
  induction moves generalizing s shown with
  | nil =>
    cases hs
    exact h
  | cons move moves ih =>
    obtain ⟨first, s₁, later, hfirst, hlater, -⟩ := System.steps_cons hs
    exact ih (h.step hfirst) hlater

theorem holding_init (threads layers : Nat) : Holding (.init threads layers) := nofun

/-! ## Coming back -/

/-- No thread but this one holds the lock. -/
def System.FreeFor (s : System) (t : Nat) : Prop := ∀ u, s.cells.latch.holder = some u → u = t

theorem System.FreeFor.step (h : s.FreeFor t) (hs : s.step t move = some (signals, s')) :
    s'.FreeFor t := fun u hholder => by
  rcases System.holder_step hs with heq | hnobody | hmine
  · exact h u (heq ▸ hholder)
  · cases hnobody.symm.trans hholder
  · exact Option.some.inj (hholder.symm.trans hmine)

/-- A thread that stands elsewhere does not hold the lock. -/
theorem Holding.free (h : Holding s) (hfree : s.FreeFor t) (hstack : s.frames[t]? = some stack)
    (haway : isLocked stack = false) : s.cells.latch.holder = none := by
  refine Option.eq_none_iff_forall_ne_some.2 fun u hholder => ?_
  obtain rfl := hfree u hholder
  obtain ⟨other, hother, hlocked⟩ := h u hholder
  rw [← Option.some.inj (hstack.symm.trans hother), haway] at hlocked
  cases hlocked

/-- With so many steps of its own the thread lets go of the lock. -/
def System.LetsGo (s : System) (t n : Nat) : Prop :=
  ∃ shown s', s.steps (List.replicate n (t, .go)) = some (shown, s') ∧
    s'.cells.latch.holder = none ∧ ∀ u, u ≠ t → s'.frames[u]? = s.frames[u]?

theorem System.letsGo_one (hstack : s.frames[t]? = some stack)
    (hgo : stepThread s.handler t s.cells stack .go = some (c', stack', signals))
    (hnone : c'.latch.holder = none) : s.LetsGo t 1 := by
  obtain ⟨s', hstep, hcells, -⟩ := System.step_go hstack hgo
  obtain ⟨_, _, _, _, hothers, _⟩ := System.step_frames hstep
  exact ⟨_, s', System.steps_of_step hstep rfl, hcells ▸ hnone, hothers⟩

theorem System.LetsGo.succ {n : Nat} (h : s'.LetsGo t n) (hs : s.step t .go = some (signals, s')) :
    s.LetsGo t (n + 1) := by
  obtain ⟨shown, s₂, hsteps, hnone, hothers₂⟩ := h
  obtain ⟨_, _, _, _, hothers, _⟩ := System.step_frames hs
  exact ⟨_, s₂, System.steps_of_step hs hsteps, hnone,
    fun u hu => (hothers₂ u hu).trans (hothers u hu)⟩

/-- A close that holds the lock lets it go in one or two steps: it leaves, or it falls asleep. -/
theorem Holding.lets_go (h : Holding s) (hholder : s.cells.latch.holder = some t)
    (hover : ∀ stack, s.frames[t]? = some stack → Over [] stack) : ∃ n ≤ 2, s.LetsGo t n := by
  obtain ⟨stack, hstack, hlocked⟩ := h t hholder
  cases hover stack hstack with
  | alone => cases hlocked
  | @visit f hf _ =>
    cases f with
    | close stage =>
      cases stage with
      | unlock | sleep => exact ⟨1, by decide, System.letsGo_one hstack rfl rfl⟩
      | loadDone =>
        obtain ⟨s₁, hstep, -, hself⟩ := System.step_go hstack rfl
        have hlast : s₁.LetsGo t 1 := by
          split at hself <;> exact System.letsGo_one hself rfl rfl
        exact ⟨2, Nat.le_refl 2, hlast.succ hstep⟩
      | _ => cases hlocked
    | release => cases hf
    | _ => cases hlocked

/-- A thread that can always take its next step, and comes nearer to the end of its call with
each, gets there. -/
theorem System.back_of_nearer {P : Nat → System → Prop} {exit : Signal}
    (hgo : ∀ left s, P left s → 0 < left ∧ ∃ signals s', s.step t .go = some (signals, s') ∧
      (exit ∈ signals ∧ s'.frames[t]? = some [] ∨ ∃ later < left, P later s'))
    {left : Nat} (h : P left s) :
    ∃ n ≤ left, ∃ shown s', s.steps (List.replicate n (t, .go)) = some (shown, s') ∧
      (t, exit) ∈ shown ∧ s'.frames[t]? = some [] := by
  induction left using Nat.strongRecOn generalizing s with
  | _ left ih =>
    obtain ⟨hleft, signals, s₁, hstep, ⟨hexit, hback⟩ | ⟨later, hlater, h₁⟩⟩ := hgo left s h
    · refine ⟨1, hleft, _, s₁, System.steps_of_step hstep rfl, ?_, hback⟩
      exact List.mem_append_left _ (List.mem_map.2 ⟨exit, hexit, rfl⟩)
    · obtain ⟨n, hn, shown, s', hsteps, hexit, hback⟩ := ih later hlater h₁
      exact ⟨n + 1, by omega, _, s', System.steps_of_step hstep hsteps,
        List.mem_append_right _ hexit, hback⟩

/-- The call of a thread comes back, and shows this: when the thread that holds the lock, if there
is one, has made at most two steps and let it go, at most five steps of its own are left. -/
def System.ComesBack (s : System) (t : Nat) (exit : Signal) : Prop :=
  ∃ holder m n shown s', (m = 0 ∨ s.cells.latch.holder = some holder ∧ m ≤ 2) ∧ n ≤ 5 ∧
    s.steps (List.replicate m (holder, .go) ++ List.replicate n (t, .go)) = some (shown, s') ∧
    (t, exit) ∈ shown ∧ s'.frames[t]? = some []

/-- A call comes back that does so when its thread has the lock to itself. -/
theorem Holding.comesBack (h : Holding s) {exit : Signal}
    (hover : ∀ w, w ≠ t → ∀ stack, s.frames[w]? = some stack → Over [] stack)
    (hback : ∀ moves shown s₁, s.steps moves = some (shown, s₁) →
      s₁.frames[t]? = s.frames[t]? → s₁.FreeFor t →
      ∃ n ≤ 5, ∃ later s', s₁.steps (List.replicate n (t, .go)) = some (later, s') ∧
        (t, exit) ∈ later ∧ s'.frames[t]? = some []) :
    s.ComesBack t exit := by
  by_cases hfree : s.FreeFor t
  · obtain ⟨n, hn, shown, s', hsteps, hexit, hend⟩ := hback [] [] s rfl rfl hfree
    exact ⟨t, 0, n, shown, s', .inl rfl, hn, hsteps, hexit, hend⟩
  · obtain ⟨w, hw⟩ := Classical.not_forall.1 hfree
    obtain ⟨hholder, hother⟩ := Classical.not_imp.1 hw
    obtain ⟨m, hm, shown, s₁, hsteps, hnone, hothers⟩ := h.lets_go hholder (hover w hother)
    have hfree₁ : s₁.FreeFor t := fun u hholder₁ => by cases hnone.symm.trans hholder₁
    obtain ⟨n, hn, later, s', hsteps', hexit, hend⟩ :=
      hback _ _ _ hsteps (hothers t (Ne.symm hother)) hfree₁
    exact ⟨w, m, n, _, s', .inr ⟨hholder, hm⟩, hn, System.steps_append hsteps hsteps',
      List.mem_append_right _ hexit, hend⟩

/-! ## The owner of a runner that is released -/

/-- How many steps a release has still to make, when the lock is free. -/
def ReleaseStage.stepsBack : ReleaseStage → Nat
  | .storeClosed => 5
  | .lock => 4
  | .storeDone => 3
  | .wake => 2
  | .unlock => 1

theorem ReleaseStage.stepsBack_le (stage : ReleaseStage) : stage.stepsBack ≤ 5 := by
  cases stage <;> decide

/-- Each step of a release brings it nearer to its end. -/
theorem ReleaseStep.nearer {stage : ReleaseStage} {panic : Option Payload}
    (h : ReleaseStep me c [] owner panic stage c' stack signals) :
    signals = [owner.exit panic] ∧ stack = [] ∨ ∃ later : ReleaseStage,
      stack = [.release owner later panic] ∧ later.stepsBack < stage.stepsBack := by
  cases h with
  | unlocks => exact .inl ⟨rfl, rfl⟩
  | _ => exact .inr ⟨_, rfl, by decide⟩

/-- A release can go on when its thread has the lock to itself. -/
theorem ReleaseStage.goes (stage : ReleaseStage) (me : Nat) (panic : Option Payload)
    (hfree : isLocked [.release owner stage panic] = false → c.latch.holder = none) :
    ∃ c' stack signals, ReleaseStep me c [] owner panic stage c' stack signals := by
  rcases stage.goes_or_waits me c [] owner panic with hgoes | ⟨rfl, hheld⟩
  · exact hgoes
  · exact absurd (hfree rfl) hheld

/-- A release whose thread has the lock to itself comes to its end by its own steps. -/
theorem Holding.release_back {stage : ReleaseStage} {panic : Option Payload} (h : Holding s)
    (hstack : s.frames[t]? = some [.release owner stage panic]) (hfree : s.FreeFor t) :
    ∃ n ≤ stage.stepsBack, ∃ shown s',
      s.steps (List.replicate n (t, .go)) = some (shown, s') ∧
        (t, owner.exit panic) ∈ shown ∧ s'.frames[t]? = some [] := by
  refine System.back_of_nearer (P := fun left s => ∃ stage : ReleaseStage, Holding s ∧
    s.frames[t]? = some [.release owner stage panic] ∧ s.FreeFor t ∧ stage.stepsBack = left)
    ?_ ⟨stage, h, hstack, hfree, rfl⟩
  rintro left s ⟨stage, hholding, hstack, hfree, rfl⟩
  obtain ⟨c', stack, signals, hgo⟩ := stage.goes t panic (hholding.free hfree hstack)
  obtain ⟨s', hstep, -, hself⟩ := System.step_go hstack (stepThread_release_iff.2 ⟨rfl, hgo⟩)
  refine ⟨by cases stage <;> decide, signals, s', hstep, ?_⟩
  rcases hgo.nearer with ⟨rfl, rfl⟩ | ⟨later, rfl, hlt⟩
  · exact .inl ⟨List.mem_singleton_self _, hself⟩
  · exact .inr ⟨_, hlt, later, hholding.step hstep, hself, hfree.step hstep, rfl⟩

/-- The owner's call comes back when the runner is released. -/
theorem Held.release_comesBack {stage : ReleaseStage} {panic : Option Payload}
    (h : Held s history (some (owner, thread))) (hholding : Holding s)
    (hstack : s.frames[thread]? = some [.release owner stage panic]) :
    s.ComesBack thread (owner.exit panic) := by
  obtain ⟨core, -, -, hbased, -, -, -⟩ := h.exists_core
  refine hholding.comesBack (fun w hw stack hw' => ?_) fun moves shown s₁ hs heq hfree => ?_
  · have hbase : Over (if w = thread then core else []) stack := hbased w stack hw'
    rwa [if_neg hw] at hbase
  · obtain ⟨n, hn, hback⟩ := (hholding.steps hs).release_back (heq.trans hstack) hfree
    exact ⟨n, Nat.le_trans hn stage.stepsBack_le, hback⟩

/-! ## When the owner's call is over -/

/-- The call that took the runner is over. -/
structure Past (s : System) (history : List (Nat × Signal)) (taker : Option (Owner × Nat)) :
    Prop where
  held : Held s history taker
  holding : Holding s
  ended : ∃ owner thread, taker = some (owner, thread) ∧ CoreAt s thread []

theorem Past.step (h : Past s history taker) (hs : s.step t move = some (signals, s')) :
    Past s' (history ++ eventsOf (signals.map (t, ·))) (taker.or (taken t s.cells s'.cells)) where
  held := h.held.step hs
  holding := h.holding.step hs
  ended := by
    obtain ⟨hheld, -, owner, thread, rfl, hat⟩ := h
    refine ⟨owner, thread, rfl, ?_⟩
    obtain ⟨core, core', hat₁, hat', -, hstep⟩ := hheld.step_cases hs
    obtain rfl := hat₁.unique hat
    rcases hstep with ⟨rfl, hmove, hstep⟩ | ⟨rfl, -, -⟩
    · obtain ⟨call, hcall⟩ := call_of_stepThread_nil hstep
      exact absurd hcall (hmove call)
    · exact hat'

/-- What the owner has left of the cells. -/
theorem Past.cells (h : Past s history taker) :
    s.cells.closed = true ∧ s.cells.latch.done = true ∧ s.cells.tag ≠ .unbound := by
  obtain ⟨hheld, -, owner, thread, rfl, hat⟩ := h
  obtain ⟨core, stack, hstands, -, hstack, hover, hplaced⟩ := hheld.exists_core
  obtain rfl := CoreAt.unique ⟨stack, hstack, hover.coreOf_eq hstands.coreOf_eq⟩ hat
  exact ⟨hplaced.closed, hplaced.done, TakenBy.tag hheld.inv⟩

/-- Only visits are left. -/
theorem Past.over_nil (h : Past s history taker) (hstack : s.frames[t]? = some stack) :
    Over [] stack := by
  obtain ⟨hheld, -, owner, thread, rfl, hat⟩ := h
  obtain ⟨core, own, hstands, hbased, hown, hover, -⟩ := hheld.exists_core
  obtain rfl := CoreAt.unique ⟨own, hown, hover.coreOf_eq hstands.coreOf_eq⟩ hat
  have hbase : Over (if t = thread then [] else []) stack := hbased t stack hstack
  rwa [ite_self] at hbase

/-- Nobody sleeps: there is nobody to wake them. -/
theorem Past.sleepers (h : Past s history taker) : s.cells.latch.sleepers = [] := by
  refine Classical.byContradiction fun hsleepers => ?_
  obtain ⟨-, hdone, -⟩ := h.cells
  obtain ⟨u, stack, hstack, hwaking⟩ := h.held.latched.waking hdone hsleepers
  unfold isWaking at hwaking
  split at hwaking
  · rcases h.over_nil hstack with _ | hf
    cases hf
  · cases hwaking

/-! ## Those who close it -/

/-- How many steps a close has still to make, when the runner is closed, its latch open and the
lock free. -/
def CloseStage.stepsBack : CloseStage → Nat
  | .storeStopped => 3
  | .swap => 2
  | .loadClosed => 1
  | .loadHandle => 5
  | .unpark => 4
  | .lock | .asleep => 3
  | .loadDone => 2
  | .sleep | .unlock => 1

theorem CloseStage.stepsBack_le (stage : CloseStage) : stage.stepsBack ≤ 5 := by
  cases stage <;> decide

/-- Each step of a close brings it nearer to its end. -/
theorem CloseStep.nearer {stage : CloseStage}
    (h : CloseStep me c [] .go stage c' stack signals) (hclosed : c.closed = true)
    (hdone : c.latch.done = true) (htag : c.tag ≠ .unbound)
    (hknows : Knows me c.latch [.close stage]) :
    signals = [.returned .close] ∧ stack = [] ∨ ∃ later : CloseStage, stack = [.close later] ∧
      later.stepsBack < stage.stepsBack := by
  cases h with
  | findsUnbound hunbound => exact absurd hunbound htag
  | notClosed hopen => cases hopen.symm.trans hclosed
  | notDone hdown => cases hdown.symm.trans hdone
  | sleeps => cases hknows.2.symm.trans hdone
  | findsClosed | isClosed | isSelf | unlocks => exact .inl ⟨rfl, rfl⟩
  | _ => exact .inr ⟨_, rfl, by decide⟩

/-- A close can go on when nobody sleeps and its thread has the lock to itself. -/
theorem CloseStage.goes (stage : CloseStage) (me : Nat) (hsleepers : c.latch.sleepers = [])
    (hfree : isLocked [.close stage] = false → c.latch.holder = none) :
    ∃ c' stack signals, CloseStep me c [] .go stage c' stack signals := by
  rcases stage.goes_or_waits me c [] with hgoes | ⟨hstage, hheld | ⟨-, hasleep⟩⟩
  · exact hgoes
  · exact absurd (hfree (by rcases hstage with rfl | rfl <;> rfl)) hheld
  · rw [hsleepers] at hasleep
    cases hasleep

/-- Each step of a close brings it nearer to its end, whoever holds the lock. -/
theorem Past.nearer {stage : CloseStage} {rest : List Frame} (h : Past s history taker)
    (hstack : s.frames[t]? = some (.close stage :: rest))
    (hs : s.step t .go = some (signals, s')) :
    signals = [.returned .close] ∧ s'.frames[t]? = some [] ∨ ∃ later : CloseStage,
      s'.frames[t]? = some [.close later] ∧ later.stepsBack < stage.stepsBack := by
  obtain rfl := (h.over_nil hstack).eq_nil_of_cons
  obtain ⟨hclosed, hdone, htag⟩ := h.cells
  obtain ⟨stack, stack', hstack₀, hself, -, hstep⟩ := System.step_frames hs
  obtain rfl := Option.some.inj (hstack₀.symm.trans hstack)
  rw [hself]
  exact ((stepThread_close_iff.1 hstep).nearer hclosed hdone htag
    (h.held.latched.knows t _ hstack)).imp (fun ⟨hexit, hnil⟩ => ⟨hexit, congrArg some hnil⟩)
    fun ⟨later, hlater, hlt⟩ => ⟨later, congrArg some hlater, hlt⟩

/-- A close whose thread has the lock to itself comes back by its own steps. -/
theorem Past.close_back {stage : CloseStage} (h : Past s history taker)
    (hstack : s.frames[t]? = some [.close stage]) (hfree : s.FreeFor t) :
    ∃ n ≤ stage.stepsBack, ∃ shown s',
      s.steps (List.replicate n (t, .go)) = some (shown, s') ∧
        (t, .returned .close) ∈ shown ∧ s'.frames[t]? = some [] := by
  refine System.back_of_nearer (P := fun left s => ∃ history taker, ∃ stage : CloseStage,
    Past s history taker ∧ s.frames[t]? = some [.close stage] ∧ s.FreeFor t ∧
      stage.stepsBack = left) ?_ ⟨history, taker, stage, h, hstack, hfree, rfl⟩
  rintro left s ⟨history, taker, stage, hpast, hstack, hfree, rfl⟩
  obtain ⟨c', stack, signals, hgo⟩ := stage.goes t hpast.sleepers (hpast.holding.free hfree hstack)
  obtain ⟨s', hstep, -, -⟩ := System.step_go hstack (stepThread_close_iff.2 hgo)
  refine ⟨by cases stage <;> decide, signals, s', hstep, ?_⟩
  rcases hpast.nearer hstack hstep with ⟨rfl, hself⟩ | ⟨later, hself, hlt⟩
  · exact .inl ⟨List.mem_singleton_self _, hself⟩
  · exact .inr ⟨_, hlt, _, _, later, hpast.step hstep, hself, hfree.step hstep, rfl⟩

/-- When the call of the owner is over, every close comes back. -/
theorem Past.close_comesBack {stage : CloseStage} {rest : List Frame} (h : Past s history taker)
    (hstack : s.frames[t]? = some (.close stage :: rest)) :
    s.ComesBack t (.returned .close) := by
  obtain rfl := (h.over_nil hstack).eq_nil_of_cons
  refine h.holding.comesBack (fun w _ stack hw => h.over_nil hw) fun moves shown s₁ hs heq hfree =>
    ?_
  have h₁ : Past s₁ _ _ := System.steps_carry Past.step h hs
  obtain ⟨n, hn, hback⟩ := h₁.close_back (heq.trans hstack) hfree
  exact ⟨n, Nat.le_trans hn stage.stepsBack_le, hback⟩

end RingTransport.Runner
