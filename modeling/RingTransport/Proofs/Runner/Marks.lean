/-
  What the owner of a runner leaves in the shared cells. Its first frames tell whether it has
  stored its handle, marked the runner closed and raised the flag of the latch (`marksOf`),
  and the cells say the same (`Marked`). A visit changes none of this. Main facts: a step of
  the owner moves its marks and the cells alike (`Placed.step`), so all of this holds in every
  run (`Held.steps`).
-/
import RingTransport.Proofs.Runner.Latch

namespace RingTransport.Runner

/-! ## Marks -/

/-- What the owner of a runner has done to the cells. -/
structure Marks where
  named : Bool
  closed : Bool
  done : Bool

/-- The marks by where the owner's frames stand. -/
def marksOf : List Frame → Marks
  | [] => ⟨true, true, true⟩
  | .run .storeHandle :: _ => ⟨false, false, false⟩
  | .release _ .storeClosed _ :: _ => ⟨true, false, false⟩
  | .release _ .lock _ :: _ | .release _ .storeDone _ :: _ => ⟨true, true, false⟩
  | .release _ .wake _ :: _ | .release _ .unlock _ :: _ => ⟨true, true, true⟩
  | _ => ⟨true, false, false⟩

/-- The cells of a runner that a call of a thread has taken. Only `run` stores a handle, and
only `close` leaves no way back from the tag it stores. -/
structure Placed (owner : Owner) (thread : Nat) (m : Marks) (c : Cells) : Prop where
  handle : c.handle = if owner = .run ∧ m.named = true then some thread else none
  closed : c.closed = m.closed
  done : c.latch.done = m.done
  tag : owner = .close → c.tag = .closed

/-- The marks are as before. -/
structure Steady (c c' : Cells) : Prop where
  handle : c'.handle = c.handle
  closed : c'.closed = c.closed
  done : c'.latch.done = c.latch.done
  tag : c.tag = .closed → c'.tag = .closed

variable {me thread : Nat} {owner : Owner} {m : Marks} {c c' : Cells} {core stack : List Frame}
  {signals : List Signal} {running : Bool} {events : List Signal} {handler : Handler}
  {move : Move}

theorem Steady.refl (c : Cells) : Steady c c := ⟨rfl, rfl, rfl, id⟩

theorem Placed.steady (h : Placed owner thread m c) (hc : Steady c c') :
    Placed owner thread m c' where
  handle := hc.handle.trans h.handle
  closed := hc.closed.trans h.closed
  done := hc.done.trans h.done
  tag := fun howner => hc.tag (h.tag howner)

/-! ## Visits -/

theorem CloseStep.steady {stage : CloseStage}
    (h : CloseStep me c core move stage c' stack signals) : Steady c c' := by
  cases h with
  | findsUnbound | findsBound => exact ⟨rfl, rfl, rfl, fun _ => rfl⟩
  | _ => exact ⟨rfl, rfl, rfl, id⟩

theorem visit_steady {f : Frame} (hf : f.isVisit = true)
    (hs : stepThread handler me c (f :: core) move = some (c', stack, signals)) :
    Steady c c' := by
  rcases visit_cases hf hs with ⟨stage, rfl, hclose⟩ | ⟨hother, rfl⟩
  · exact hclose.steady
  cases f with
  | run stage =>
    cases stage with
    | bind =>
      simp only [stepThread, stepRun] at hs
      split at hs
      · next htag =>
        cases hs
        exact ⟨rfl, rfl, rfl, fun hclosed => by rw [htag] at hclosed; cases hclosed⟩
      · cases hs
        exact .refl c
    | _ => cases hf
  | close stage => exact absurd rfl (hother stage)
  | cancel stage =>
    cases stage with
    | storeCancelled | unpark =>
      cases hs
      exact ⟨rfl, rfl, rfl, id⟩
  | observe stage =>
    obtain ⟨rfl, -⟩ := stepObserve_eq hs
    exact .refl _
  | _ => cases hf

/-- The frames of a stack that are not a visit. -/
def coreOf (stack : List Frame) : List Frame := stack.filter fun f => !f.isVisit

theorem Stands.coreOf_eq (h : Stands running owner events core) : coreOf core = core := by
  cases h with
  | @calling _ c | @reporting _ c | @handling _ c => cases c <;> rfl
  | @looping _ stage _ hstage => cases stage <;> first | rfl | cases hstage
  | _ => rfl

theorem Over.coreOf_eq (ho : Over core stack) (hcore : coreOf core = core) :
    coreOf stack = core := by
  cases ho with
  | alone => exact hcore
  | visit hf hcontrol => rw [coreOf, List.filter_cons_of_neg (by simp [hf])]; exact hcore

/-- A step is the core's own. Otherwise it shows no event and changes no mark, and it leaves
the core as it is or takes the runner. -/
theorem Over.step_cases (ho : Over core stack) {after : List Frame}
    (hs : stepThread handler me c stack move = some (c', after, signals)) :
    (stack = core ∧ ∀ call, move ≠ .call call) ∨
      signals.filter Signal.isEvent = [] ∧ Steady c c' ∧ ((Over core after ∧ Later c c') ∨
        ∃ owner : Owner, c.tag = .unbound ∧ c'.tag = owner.tag ∧ after = owner.first :: core) := by
  by_cases hown : stack = core ∧ ∀ call, move ≠ .call call
  · exact .inl hown
  · have hother : stack = core → ∃ call, move = .call call := fun hstack =>
      Classical.byContradiction fun hcall => hown ⟨hstack, fun call heq => hcall ⟨call, heq⟩⟩
    refine .inr ⟨(ho.step hs hother).1, ?_, (ho.step hs hother).2⟩
    cases ho with
    | alone =>
      obtain ⟨call, rfl⟩ := hother rfl
      simp only [stepThread] at hs
      split at hs
      · cases hs
        exact .refl c
      · cases hs
    | visit hf hcontrol => exact visit_steady hf hs

/-! ## Steps of the owner -/

theorem marksOf_afterCallback {result : Except AgentError Nat}
    (h : afterCallback handler result core = some stack) :
    marksOf stack = ⟨true, false, false⟩ := by
  unfold afterCallback at h
  repeat' split at h
  all_goals
    cases h
    try rfl

theorem marksOf_afterReport {panic : Option Payload}
    (h : afterReport panic core = some stack) : marksOf stack = ⟨true, false, false⟩ := by
  unfold afterReport at h
  repeat' split at h
  all_goals
    cases h
    try rfl

theorem ReleaseStep.placed {stage : ReleaseStage} {panic : Option Payload}
    (hs : ReleaseStep me c [] owner panic stage c' stack signals)
    (h : Placed owner thread (marksOf [.release owner stage panic]) c) :
    Placed owner thread (marksOf stack) c' := by
  cases hs with
  | storesClosed => exact ⟨h.handle, rfl, h.done, h.tag⟩
  | storesDone => exact ⟨h.handle, h.closed, rfl, h.tag⟩
  | _ => exact ⟨h.handle, h.closed, h.done, h.tag⟩

theorem Placed.loop_step {stage : RunStage} (hstage : stage.loops = true)
    (h : Placed .run thread (marksOf [.run stage]) c)
    (hs : stepRun me c [] stage = some (c', stack, signals)) :
    Placed .run thread (marksOf stack) c' := by
  cases stage with
  | loadRunning =>
    simp only [stepRun] at hs
    cases hs
    split
    · exact h.steady (.refl c)
    · exact h.steady (.refl c)
  | loadCancelled =>
    simp only [stepRun] at hs
    cases hs
    split
    · exact h.steady (.refl c)
    · exact h.steady (.refl c)
  | workDue | stop | quit | storeCancelled =>
    cases hs
    exact h.steady ⟨rfl, rfl, rfl, id⟩
  | _ => cases hstage

/-- A step on the owner's frames. -/
theorem Placed.go (hstands : Stands running owner events core)
    (h : Placed owner me (marksOf core) c)
    (hs : stepThread handler me c core .go = some (c', stack, signals)) :
    Placed owner me (marksOf stack) c' := by
  cases hstands with
  | bound =>
    have hnone : c.handle = none := h.handle
    cases hs
    refine ⟨?_, h.closed, h.done, h.tag⟩
    show c.handle.or (some me) = some me
    rw [hnone]
    rfl
  | calling | handling | gone => cases hs
  | @reporting _ cb _ _ _ _ _ layers =>
    cases layers with
    | innermost =>
      cases hs
      cases cb <;> exact h.steady ⟨rfl, rfl, rfl, id⟩
    | counted i inner =>
      cases hs
      cases cb <;> exact h.steady ⟨rfl, rfl, rfl, id⟩
  | looping _ hstage => exact Placed.loop_step hstage h hs
  | stopped =>
    have hrun : stepRun me c [] .loadRunning = some (c', stack, signals) := hs
    exact Placed.loop_step rfl h hrun
  | releasing _ stage => exact (stepThread_release_iff.1 hs).2.placed h
  | unwinding _ stage p => exact (stepThread_release_iff.1 hs).2.placed h
  | starting | startFailed | closing | announcing =>
    cases hs
    exact h.steady ⟨rfl, rfl, rfl, id⟩

theorem Placed.step (hstands : Stands running owner events core)
    (h : Placed owner me (marksOf core) c) (hmove : ∀ call, move ≠ .call call)
    (hs : stepThread handler me c core move = some (c', stack, signals)) :
    Placed owner me (marksOf stack) c' := by
  cases move with
  | go => exact h.go hstands hs
  | call call => exact absurd rfl (hmove call)
  | finish o =>
    cases hstands with
    | @calling _ cb =>
      simp only [stepThread, Option.map_eq_some_iff] at hs
      obtain ⟨_, hafter, hs⟩ := hs
      cases hs
      rw [marksOf_afterCallback hafter]
      cases cb <;> exact h
    | _ => cases hs
  | settle panic =>
    cases hstands with
    | @handling _ cb =>
      simp only [stepThread, Option.map_eq_some_iff] at hs
      obtain ⟨_, hafter, hs⟩ := hs
      cases hs
      rw [marksOf_afterReport hafter]
      cases cb <;> exact h
    | _ => cases hs
  | stir => cases hstands.stir_eq_none.symm.trans hs

theorem Placed.first (hc : Steady c c') (hhandle : c.handle = none) (hclosed : c.closed = false)
    (hdone : c.latch.done = false) (htag : c'.tag = owner.tag) :
    Placed owner me (marksOf [owner.first]) c' := by
  have hhandle' := hc.handle.trans hhandle
  have hclosed' := hc.closed.trans hclosed
  have hdone' := hc.done.trans hdone
  cases owner with
  | run => exact ⟨hhandle', hclosed', hdone', nofun⟩
  | close => exact ⟨hhandle', hclosed', hdone', fun _ => htag⟩

/-! ## All threads -/

/-- The cells of a runner that was taken as told. -/
def Marked (s : System) : Option (Owner × Nat) → Prop
  | none => s.cells.handle = none ∧ s.cells.closed = false ∧ s.cells.latch.done = false
  | some (owner, thread) =>
    ∃ stack, s.frames[thread]? = some stack ∧
      Placed owner thread (marksOf (coreOf stack)) s.cells

variable {s s' : System} {t : Nat} {taker : Option (Owner × Nat)} {history : List (Nat × Signal)}

theorem Marked.step (hinv : Inv s history taker) (h : Marked s taker)
    (hs : s.step t move = some (signals, s')) :
    Marked s' (taker.or (taken t s.cells s'.cells)) := by
  obtain ⟨stack, stack', hstack, hself, hothers, hstep⟩ := System.step_frames hs
  cases taker with
  | none =>
    obtain ⟨hhandle, hclosed, hdone⟩ := h
    have huntaken : Untaken s history := hinv
    rw [Option.none_or]
    rcases (huntaken.based t stack hstack).step_cases hstep with
      ⟨rfl, hmove⟩ | ⟨-, hc, ⟨-, hlater⟩ | ⟨owner, htag, htag', rfl⟩⟩
    · obtain ⟨call, rfl⟩ := call_of_stepThread_nil hstep
      exact absurd rfl (hmove call)
    · rw [taken_of_unbound (hlater.tag.2 huntaken.tag)]
      exact ⟨hc.handle.trans hhandle, hc.closed.trans hclosed, hc.done.trans hdone⟩
    · rw [taken_of_tag htag htag']
      refine ⟨_, hself, ?_⟩
      have hfirst : Stands true owner [] [owner.first] := .first owner
      rw [hfirst.coreOf_eq]
      exact .first hc hhandle hclosed hdone htag'
  | some taker =>
    obtain ⟨owner, thread⟩ := taker
    obtain ⟨own, hown, hplaced⟩ := h
    obtain ⟨core, hstands, hbased⟩ := TakenBy.stands hinv
    have htag : s.cells.tag ≠ .unbound := TakenBy.tag hinv
    have hover : Over (if t = thread then core else []) stack := hbased t stack hstack
    show ∃ stack, s'.frames[thread]? = some stack ∧ _
    by_cases hthread : t = thread
    · subst hthread
      obtain rfl : stack = own := Option.some.inj (hstack.symm.trans hown)
      rw [if_pos rfl] at hover
      rw [hover.coreOf_eq hstands.coreOf_eq] at hplaced
      refine ⟨stack', hself, ?_⟩
      rcases hover.step_cases hstep with
        ⟨rfl, hmove⟩ | ⟨-, hc, ⟨hover', -⟩ | ⟨_, hunbound, -⟩⟩
      · obtain ⟨hstands', -⟩ := hstands.step hmove hstep
        rw [hstands'.coreOf_eq]
        exact hplaced.step hstands hmove hstep
      · rw [hover'.coreOf_eq hstands.coreOf_eq]
        exact hplaced.steady hc
      · exact absurd hunbound htag
    · rw [if_neg hthread] at hover
      refine ⟨own, (hothers thread (Ne.symm hthread)).trans hown, ?_⟩
      rcases hover.step_cases hstep with ⟨rfl, hmove⟩ | ⟨-, hc, -⟩
      · obtain ⟨call, rfl⟩ := call_of_stepThread_nil hstep
        exact absurd rfl (hmove call)
      · exact hplaced.steady hc

theorem Stands.isLocked_tail (h : Stands running owner events core) :
    isLocked core.tail = false := by
  cases h with
  | @calling owner c | @reporting owner c | @handling owner c => cases c <;> rfl
  | _ => rfl

/-- Every stack is over the owner's frames, or over nothing. -/
theorem Inv.exists_base (h : Inv s history taker) {stack : List Frame}
    (hstack : s.frames[t]? = some stack) :
    ∃ core, Over core stack ∧
      (core = [] ∨ ∃ owner events, Stands s.cells.running owner events core) := by
  cases taker with
  | none => exact ⟨[], Untaken.based h t stack hstack, .inl rfl⟩
  | some taker =>
    obtain ⟨core, hstands, hbased⟩ := TakenBy.stands h
    have hover : Over (if t = taker.2 then core else []) stack := hbased t stack hstack
    by_cases ht : t = taker.2
    · rw [if_pos ht] at hover
      exact ⟨core, hover, .inr ⟨_, _, hstands⟩⟩
    · rw [if_neg ht] at hover
      exact ⟨[], hover, .inl rfl⟩

/-- No stack stands between locking and unlocking below its first frame. -/
theorem Inv.isLocked_tail (h : Inv s history taker) {stack : List Frame}
    (hstack : s.frames[t]? = some stack) : isLocked stack.tail = false := by
  obtain ⟨core, hover, hcore⟩ := h.exists_base hstack
  cases hover with
  | alone =>
    rcases hcore with rfl | ⟨owner, events, hstands⟩
    · rfl
    · exact hstands.isLocked_tail
  | visit hf hcontrol => exact isLocked_of_inControl hcontrol

/-- What holds of a runner after the events, when it was taken as told. -/
structure Held (s : System) (history : List (Nat × Signal)) (taker : Option (Owner × Nat)) :
    Prop where
  inv : Inv s history taker
  marked : Marked s taker
  latched : Latched s

theorem held_init (threads layers : Nat) : Held (.init threads layers) [] none where
  inv := untaken_init threads layers
  marked := ⟨rfl, rfl, rfl⟩
  latched := latched_init threads layers

theorem Held.step (h : Held s history taker) (hs : s.step t move = some (signals, s')) :
    Held s' (history ++ eventsOf (signals.map (t, ·))) (taker.or (taken t s.cells s'.cells)) where
  inv := inv_step h.inv hs
  marked := h.marked.step h.inv hs
  latched := h.latched.step (fun _ hstack => h.inv.isLocked_tail hstack) hs

/-- The owner's frames, and how they stand to the cells. -/
theorem Held.exists_core (h : Held s history (some (owner, thread))) :
    ∃ core stack, Stands s.cells.running owner (history.map (·.2)) core ∧
      Based (fun u => if u = thread then core else []) s.frames ∧
      s.frames[thread]? = some stack ∧ Over core stack ∧
      Placed owner thread (marksOf core) s.cells := by
  obtain ⟨stack, hstack, hplaced⟩ := h.marked
  obtain ⟨core, hstands, hbased⟩ := TakenBy.stands h.inv
  have hover : Over (if thread = thread then core else []) stack := hbased thread stack hstack
  rw [if_pos rfl] at hover
  rw [hover.coreOf_eq hstands.coreOf_eq] at hplaced
  exact ⟨core, stack, hstands, hbased, hstack, hover, hplaced⟩

/-- When the owner's thread is idle, the owner is gone. -/
theorem Held.of_idle (h : Held s history (some (owner, thread)))
    (hidle : s.frames[thread]? = some []) :
    Stands s.cells.running owner (history.map (·.2)) [] ∧
      Placed owner thread (marksOf []) s.cells := by
  obtain ⟨core, stack, hstands, -, hstack, hover, hplaced⟩ := h.exists_core
  obtain rfl : stack = [] := Option.some.inj (hstack.symm.trans hidle)
  cases hover
  exact ⟨hstands, hplaced⟩

/-! ## Runs -/

theorem System.steps_cons {moves : List (Nat × Move)} {signals : List (Nat × Signal)}
    (hs : s.steps ((t, move) :: moves) = some (signals, s')) :
    ∃ first s₁ later, s.step t move = some (first, s₁) ∧ s₁.steps moves = some (later, s') ∧
      signals = first.map (t, ·) ++ later := by
  simp only [System.steps, bind, Option.bind_eq_some_iff, pure] at hs
  obtain ⟨⟨first, s₁⟩, hfirst, ⟨later, s₂⟩, hlater, hs⟩ := hs
  cases hs
  exact ⟨first, s₁, later, hfirst, hlater, rfl⟩

/-- What every step carries on, a run carries on: a fact about a runner, what has happened
and who has taken it. -/
theorem System.steps_carry {P : System → List (Nat × Signal) → Option (Owner × Nat) → Prop}
    (hstep : ∀ {s s' : System} {t move signals history taker},
      P s history taker → s.step t move = some (signals, s') →
        P s' (history ++ eventsOf (signals.map (t, ·))) (taker.or (taken t s.cells s'.cells)))
    {s s' : System} (h : P s history taker) {moves : List (Nat × Move)}
    {signals : List (Nat × Signal)} (hs : s.steps moves = some (signals, s')) :
    P s' (history ++ eventsOf signals) (taker.or (s.owner moves)) := by
  induction moves generalizing s history taker signals with
  | nil =>
    cases hs
    simpa [System.owner, eventsOf] using h
  | cons move moves ih =>
    obtain ⟨t, move⟩ := move
    obtain ⟨first, s₁, later, hfirst, hlater, rfl⟩ := System.steps_cons hs
    have hrest := ih (hstep h hfirst) hlater
    rw [List.append_assoc, ← eventsOf_append, Option.or_assoc] at hrest
    simpa only [System.owner, hfirst] using hrest

theorem Held.steps (h : Held s history taker) {moves : List (Nat × Move)}
    {signals : List (Nat × Signal)} (hs : s.steps moves = some (signals, s')) :
    Held s' (history ++ eventsOf signals) (taker.or (s.owner moves)) :=
  System.steps_carry Held.step h hs

end RingTransport.Runner
