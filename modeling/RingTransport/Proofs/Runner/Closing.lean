/-
  Closing a runner. A close that finds the runner bound to another thread comes back only when
  all is over, whether the other thread has said so who it is or not, and however it ends. A
  close that finds nobody bound ends with the runner closed. A close made inside a callback or
  the handler never waits. And when the latch is open, whoever still sleeps is woken in the next
  step of the thread that opened it. Main fact: `closing_waits`.
-/
import RingTransport.Proofs.Runner.Marks

namespace RingTransport.Runner

variable {s s' : System} {t me thread : Nat} {move : Move} {signals : List Signal}
  {history : List (Nat × Signal)} {taker : Option (Owner × Nat)} {owner : Owner}
  {c c' : Cells} {core stack : List Frame} {running : Bool} {events : List Signal}
  {handler : Handler}

/-! ## When all is over -/

/-- A callback or a report is in progress. -/
def Frame.isActive : Frame → Bool
  | .callback _ | .report _ _ | .handling _ => true
  | _ => false

/-- The runner is marked closed, no callback and no report is in progress, and whatever
happens next, none ever is again. -/
structure Finished (s : System) : Prop where
  closed : s.cells.closed = true
  silent : ∀ moves signals s', s.steps moves = some (signals, s') →
    eventsOf signals = [] ∧ ∀ stack ∈ s'.frames, ∀ f ∈ stack, f.isActive = false

/-- Only the release is left of an owner that has marked the runner closed. -/
theorem Stands.released (h : Stands running owner events core)
    (hclosed : (marksOf core).closed = true) :
    core = [] ∨ ∃ stage panic, core = [.release owner stage panic] := by
  cases h with
  | gone => exact .inl rfl
  | releasing _ stage => exact .inr ⟨stage, none, rfl⟩
  | unwinding _ stage p => exact .inr ⟨stage, some p, rfl⟩
  | @calling _ c | @reporting _ c | @handling _ c => cases c <;> cases hclosed
  | @looping _ stage => cases stage <;> cases hclosed
  | _ => cases hclosed

theorem ReleaseStep.closed {stage : ReleaseStage} {panic : Option Payload}
    (h : ReleaseStep me c core owner panic stage c' stack signals) (hclosed : c.closed = true) :
    c'.closed = true := by
  cases h with
  | storesClosed => rfl
  | _ => exact hclosed

theorem Held.taken_of_closed (h : Held s history taker) (hclosed : s.cells.closed = true) :
    ∃ owner thread, taker = some (owner, thread) := by
  cases taker with
  | none => exact Bool.noConfusion (h.marked.2.1.symm.trans hclosed)
  | some taker => exact ⟨taker.1, taker.2, rfl⟩

/-- A runner that is closed stays closed, and nothing happens any more. -/
theorem Held.closed_step (h : Held s history taker) (hclosed : s.cells.closed = true)
    (hs : s.step t move = some (signals, s')) :
    s'.cells.closed = true ∧ signals.filter Signal.isEvent = [] := by
  obtain ⟨owner, thread, rfl⟩ := h.taken_of_closed hclosed
  obtain ⟨core, -, hstands, hbased, -, -, hplaced⟩ := h.exists_core
  obtain ⟨stack, stack', hstack, -, -, hstep⟩ := System.step_frames hs
  rcases (hbased t stack hstack).step_cases hstep with ⟨hbase, hmove⟩ | ⟨hquiet, hc, -⟩
  · have hidle : stack ≠ [] := by
      rintro rfl
      obtain ⟨call, hcall⟩ := call_of_stepThread_nil hstep
      exact hmove call hcall
    have hthread : t = thread := Classical.byContradiction fun hne => hidle (by
      rw [hbase]
      exact if_neg hne)
    obtain rfl : stack = core := by
      rw [hbase]
      exact if_pos hthread
    rcases hstands.released (hplaced.closed.symm.trans hclosed) with rfl | ⟨stage, panic, rfl⟩
    · exact absurd rfl hidle
    · obtain ⟨rfl, hrelease⟩ := stepThread_release_iff.1 hstep
      exact ⟨hrelease.closed hclosed, hrelease.quiet.2.1⟩
  · exact ⟨hc.closed.trans hclosed, hquiet⟩

theorem Held.not_active (h : Held s history taker) (hclosed : s.cells.closed = true) :
    ∀ stack ∈ s.frames, ∀ f ∈ stack, f.isActive = false := by
  intro stack hmem f hf
  obtain ⟨owner, thread, rfl⟩ := h.taken_of_closed hclosed
  obtain ⟨core, -, hstands, hbased, -, -, hplaced⟩ := h.exists_core
  obtain ⟨u, hu⟩ := List.getElem?_of_mem hmem
  have hreleased := hstands.released (hplaced.closed.symm.trans hclosed)
  have hbase : ∀ f ∈ (if u = thread then core else []), f.isActive = false := by
    split
    · rcases hreleased with rfl | ⟨stage, panic, rfl⟩
      · exact nofun
      · intro f hf
        rw [List.mem_singleton.1 hf]
        rfl
    · exact nofun
  have hover : Over (if u = thread then core else []) stack := hbased u stack hu
  cases hover with
  | alone => exact hbase f hf
  | @visit g hvisit =>
    rcases List.mem_cons.1 hf with rfl | hf
    · cases f <;> first | rfl | cases hvisit
    · exact hbase f hf

/-- The runner is closed, and nothing has happened since the `past`. -/
def ClosedSince (past : List (Nat × Signal)) (s : System) (history : List (Nat × Signal))
    (taker : Option (Owner × Nat)) : Prop :=
  Held s history taker ∧ s.cells.closed = true ∧ history = past

theorem ClosedSince.step {past : List (Nat × Signal)} (h : ClosedSince past s history taker)
    (hs : s.step t move = some (signals, s')) :
    ClosedSince past s' (history ++ eventsOf (signals.map (t, ·)))
      (taker.or (taken t s.cells s'.cells)) := by
  obtain ⟨hheld, hclosed, rfl⟩ := h
  obtain ⟨hclosed', hquiet⟩ := hheld.closed_step hclosed hs
  refine ⟨hheld.step hs, hclosed', ?_⟩
  rw [eventsOf_map, hquiet, List.map_nil, List.append_nil]

theorem Held.finished (h : Held s history taker) (hclosed : s.cells.closed = true) :
    Finished s where
  closed := hclosed
  silent := by
    intro moves signals s' hs
    have hstart : ClosedSince history s history taker := ⟨h, hclosed, rfl⟩
    obtain ⟨h', hclosed', hsame⟩ := System.steps_carry ClosedSince.step hstart hs
    exact ⟨List.append_right_eq_self.1 hsame, h'.not_active hclosed'⟩

/-! ## Closers that wait -/

theorem Over.eq_nil_of_cons {f : Frame} {rest : List Frame} (h : Over [] (f :: rest)) :
    rest = [] := by
  cases h
  rfl

/-- The close has taken the binding out. -/
def CloseStage.isPastSwap : CloseStage → Bool
  | .storeStopped | .swap => false
  | _ => true

/-- The close of a thread has taken the binding out and has not come back. -/
def Waiting (t : Nat) (s : System) : Prop :=
  ∃ stage : CloseStage, stage.isPastSwap = true ∧ s.frames[t]? = some [.close stage]

/-- A close on another thread than the owner's goes on, or the runner is closed. -/
theorem CloseStep.waiting {stage : CloseStage}
    (h : CloseStep me c [] move stage c' stack signals) (hstage : stage.isPastSwap = true)
    (hhandle : c.handle ≠ some me) (hknows : Knows me c.latch [.close stage])
    (hdone : c.latch.done = true → c.closed = true) :
    (∃ later : CloseStage, later.isPastSwap = true ∧ stack = [.close later]) ∨
      c'.closed = true := by
  cases h with
  | storesStopped | findsUnbound | findsBound | findsClosed => cases hstage
  | isClosed hclosed => exact .inr hclosed
  | isSelf hmine => exact absurd hmine hhandle
  | unlocks => exact .inr (hdone hknows.2)
  | _ => exact .inl ⟨_, rfl, rfl⟩

theorem closed_of_done (h : (marksOf core).done = true) : (marksOf core).closed = true := by
  unfold marksOf at h ⊢
  split at h
  all_goals first | rfl | cases h

theorem Held.waiting_step {worker u : Nat} (h : Held s history (some (.run, worker)))
    (ht : t ≠ worker) (hwaiting : Waiting t s) (hs : s.step u move = some (signals, s')) :
    Waiting t s' ∨ s'.cells.closed = true := by
  obtain ⟨stage, hstage, hframe⟩ := hwaiting
  obtain ⟨stack, stack', hstack, hself, hothers, hstep⟩ := System.step_frames hs
  by_cases hu : u = t
  · subst hu
    obtain rfl : stack = [.close stage] := Option.some.inj (hstack.symm.trans hframe)
    obtain ⟨core, -, -, -, -, -, hplaced⟩ := h.exists_core
    -- a handle that is not stored yet is not this thread's either, so the close waits on
    have hhandle : s.cells.handle ≠ some u := fun hmine => by
      rw [hplaced.handle] at hmine
      split at hmine
      · exact ht (Option.some.inj hmine).symm
      · cases hmine
    have hdone : s.cells.latch.done = true → s.cells.closed = true := fun hdone => by
      rw [hplaced.closed]
      exact closed_of_done (hplaced.done.symm.trans hdone)
    rcases (stepThread_close_iff.1 hstep).waiting hstage hhandle (h.latched.knows u _ hstack)
      hdone with ⟨later, hlater, rfl⟩ | hclosed
    · exact .inl ⟨later, hlater, hself⟩
    · exact .inr hclosed
  · exact .inl ⟨stage, hstage, (hothers t (Ne.symm hu)).trans hframe⟩

/-- A runner that a worker runs, and that another thread closes. -/
def ClosedBy (t worker : Nat) (s : System) (history : List (Nat × Signal))
    (taker : Option (Owner × Nat)) : Prop :=
  Held s history taker ∧ taker = some (.run, worker) ∧ (Waiting t s ∨ s.cells.closed = true)

theorem ClosedBy.step {worker u : Nat} (ht : t ≠ worker) (h : ClosedBy t worker s history taker)
    (hs : s.step u move = some (signals, s')) :
    ClosedBy t worker s' (history ++ eventsOf (signals.map (u, ·)))
      (taker.or (taken u s.cells s'.cells)) := by
  obtain ⟨hheld, rfl, hwaiting | hclosed⟩ := h
  · exact ⟨hheld.step hs, rfl, hheld.waiting_step ht hwaiting hs⟩
  · exact ⟨hheld.step hs, rfl, .inr (hheld.closed_step hclosed hs).1⟩

theorem Held.waiting_steps {worker : Nat} (h : Held s history (some (.run, worker)))
    (ht : t ≠ worker) (hwaiting : Waiting t s) {moves : List (Nat × Move)}
    {signals : List (Nat × Signal)} (hs : s.steps moves = some (signals, s')) :
    Waiting t s' ∨ Finished s' := by
  have hstart : ClosedBy t worker s history (some (.run, worker)) := ⟨h, rfl, .inl hwaiting⟩
  obtain ⟨h', -, hend⟩ := System.steps_carry (ClosedBy.step ht) hstart hs
  exact hend.imp_right h'.finished

/-- The close of a runner that is bound to another thread comes back when all is over. -/
theorem Held.close_bound {rest : List Frame} (h : Held s history taker)
    (hstack : s.frames[t]? = some (.close .swap :: rest)) (htag : s.cells.tag = .bound) :
    ∃ worker, taker = some (.run, worker) ∧ (t ≠ worker →
      ∀ moves signals s', s.steps ((t, .go) :: moves) = some (signals, s') →
        s'.frames[t]? = some rest → Finished s') := by
  cases taker with
  | none => exact absurd ((Untaken.tag h.inv).symm.trans htag) Tag.noConfusion
  | some taker =>
    obtain ⟨owner, worker⟩ := taker
    obtain ⟨core, -, -, hbased, -, -, hplaced⟩ := h.exists_core
    cases owner with
    | close => exact absurd ((hplaced.tag rfl).symm.trans htag) Tag.noConfusion
    | run =>
      refine ⟨worker, rfl, fun ht moves signals s' hs hback => ?_⟩
      have hover : Over (if t = worker then core else []) (.close .swap :: rest) :=
        hbased t _ hstack
      rw [if_neg ht] at hover
      obtain rfl := hover.eq_nil_of_cons
      obtain ⟨first, s₁, later, hfirst, hlater, -⟩ := System.steps_cons hs
      obtain ⟨stack, stack', hstack', hself, -, hstep⟩ := System.step_frames hfirst
      obtain rfl : stack = [.close .swap] := Option.some.inj (hstack'.symm.trans hstack)
      have hwaiting : Waiting t s₁ := by
        obtain ⟨-, rfl⟩ := (stepThread_close_iff.1 hstep).of_bound htag
        exact ⟨.loadClosed, rfl, hself⟩
      rcases (h.step hfirst).waiting_steps ht hwaiting hlater with ⟨stage, -, hframe⟩ | hend
      · cases hframe.symm.trans hback
      · exact hend

/-! ## Closes of a runner that nobody has taken -/

/-- The close of a runner that nobody has taken ends with the runner closed. -/
theorem Held.close_unbound {rest : List Frame} (h : Held s history taker)
    (hstack : s.frames[t]? = some (.close .swap :: rest)) (htag : s.cells.tag = .unbound)
    {moves : List (Nat × Move)} {signals : List (Nat × Signal)}
    (hs : s.steps ((t, .go) :: moves) = some (signals, s')) (hback : s'.frames[t]? = some rest) :
    s'.cells.closed = true := by
  cases taker with
  | some taker => exact absurd htag (TakenBy.tag h.inv)
  | none =>
    obtain rfl := (Untaken.based h.inv t _ hstack).eq_nil_of_cons
    obtain ⟨first, s₁, later, hfirst, hlater, -⟩ := System.steps_cons hs
    obtain ⟨stack, stack', hstack', -, -, hstep⟩ := System.step_frames hfirst
    obtain rfl : stack = [.close .swap] := Option.some.inj (hstack'.symm.trans hstack)
    have htaken : taken t s.cells s₁.cells = some (.close, t) := by
      obtain ⟨hcells, -⟩ := (stepThread_close_iff.1 hstep).of_unbound htag
      rw [hcells]
      exact taken_of_tag htag rfl
    have h₁ := h.step hfirst
    rw [Option.none_or, htaken] at h₁
    have h' : Held s' _ (some (.close, t)) := h₁.steps hlater
    exact (h'.of_idle hback).2.closed

/-! ## Closes inside a callback or the handler -/

/-- The steps left of a close that does not wait; none when it may have to. -/
def CloseStage.stepsLeft : CloseStage → Nat
  | .storeStopped => 4
  | .swap => 3
  | .loadClosed => 2
  | .loadHandle => 1
  | _ => 0

/-- What is in control above the owner's frames is a callback or the handler. -/
theorem marksOf_of_inControl {f : Frame} (h : inControl (f :: core) = true) :
    marksOf (f :: core) = ⟨true, false, false⟩ := by
  cases f with
  | callback | handling => rfl
  | _ => cases h

/-- A close on the owner's thread, while a callback or the handler is in control, does not wait
and comes back soon. -/
theorem CloseStep.inner {stage : CloseStage} (h : CloseStep me c core move stage c' stack signals)
    (hplaced : Placed owner me ⟨true, false, false⟩ c) (htag : c.tag ≠ .unbound)
    (hleft : 0 < stage.stepsLeft) (hrun : stage.stepsLeft ≤ 2 → owner = .run) :
    stack = core ∨ ∃ later : CloseStage, stack = .close later :: core ∧
      0 < later.stepsLeft ∧ later.stepsLeft < stage.stepsLeft ∧
      (later.stepsLeft ≤ 2 → owner = .run) := by
  cases h with
  | storesStopped =>
    exact .inr ⟨.swap, rfl, by decide, by decide, fun hle => absurd hle (by decide)⟩
  | findsUnbound hunbound => exact absurd hunbound htag
  | findsBound hbound =>
    have howner : owner = .run := by
      cases owner with
      | run => rfl
      | close => exact absurd ((hplaced.tag rfl).symm.trans hbound) Tag.noConfusion
    exact .inr ⟨.loadClosed, rfl, by decide, by decide, fun _ => howner⟩
  | findsClosed | isClosed | isSelf => exact .inl rfl
  | notClosed =>
    exact .inr ⟨.loadHandle, rfl, by decide, by decide, fun _ => hrun (by decide)⟩
  | notSelf hother =>
    have hmine : c.handle = some me := by
      rw [hplaced.handle, if_pos ⟨hrun (by decide), rfl⟩]
    exact absurd hmine hother
  | _ => exact absurd hleft (by decide)

theorem Stands.isVisit_eq_false {f : Frame} (h : Stands running owner events (f :: core)) :
    f.isVisit = false := by
  have hcore := h.coreOf_eq
  cases hf : f.isVisit with
  | false => rfl
  | true =>
    rw [coreOf, List.filter_cons_of_neg (by simp [hf])] at hcore
    have hlength := List.length_filter_le (fun f => !f.isVisit) core
    rw [hcore, List.length_cons] at hlength
    omega

/-- Above other frames a close stands on the owner's. -/
theorem Held.inner {stage : CloseStage} {f : Frame} {rest : List Frame}
    (h : Held s history taker) (hstack : s.frames[t]? = some (.close stage :: f :: rest)) :
    ∃ owner, taker = some (owner, t) ∧ s.cells.tag ≠ .unbound ∧
      Placed owner t ⟨true, false, false⟩ s.cells := by
  cases taker with
  | none =>
    have hnil := (Untaken.based h.inv t _ hstack).eq_nil_of_cons
    cases hnil
  | some taker =>
    obtain ⟨owner, thread⟩ := taker
    obtain ⟨core, -, hstands, hbased, -, -, hplaced⟩ := h.exists_core
    have hover : Over (if t = thread then core else []) (.close stage :: f :: rest) :=
      hbased t _ hstack
    have hthread : t = thread := Classical.byContradiction fun hne => by
      rw [if_neg hne] at hover
      cases hover.eq_nil_of_cons
    subst hthread
    rw [if_pos rfl] at hover
    refine ⟨owner, rfl, TakenBy.tag h.inv, ?_⟩
    cases hover with
    | alone => cases hstands.isVisit_eq_false
    | visit _ hcontrol =>
      rw [marksOf_of_inControl hcontrol] at hplaced
      exact hplaced

/-- A visit that is under way after a step has just begun, or a visit stood there before. -/
theorem Over.visit_before {f : Frame} {below : List Frame} (hover : Over core stack)
    (hcore : core = [] ∨ ∃ owner events, Stands c.running owner events core)
    (hf : f.isVisit = true)
    (hs : stepThread handler me c stack move = some (c', f :: below, signals)) :
    (∃ call : Call, f = call.frame) ∨ ∃ g : Frame, g.isVisit = true ∧ stack = g :: below := by
  by_cases hcall : ∃ call, move = .call call
  · obtain ⟨call, rfl⟩ := hcall
    simp only [stepThread] at hs
    split at hs
    · simp only [Option.some.injEq, Prod.mk.injEq, List.cons.injEq] at hs
      exact .inl ⟨call, hs.2.1.1.symm⟩
    · cases hs
  · right
    cases hover with
    | alone =>
      rcases hcore with rfl | ⟨owner, events, hstands⟩
      · exact absurd (call_of_stepThread_nil hs) hcall
      · obtain ⟨hstands', -⟩ := hstands.step (fun call heq => hcall ⟨call, heq⟩) hs
        cases hstands'.isVisit_eq_false.symm.trans hf
    | @visit g hg hcontrol =>
      obtain ⟨hvisit, -⟩ := visit_step hg hs
      generalize hafter : f :: below = after at hvisit
      cases hvisit with
      | goes =>
        obtain ⟨-, rfl⟩ := List.cons.inj hafter
        exact ⟨g, hg, rfl⟩
      | leaves =>
        rw [← hafter, inControl_visit hf] at hcontrol
        cases hcontrol
      | takes owner =>
        obtain ⟨rfl, -⟩ := List.cons.inj hafter
        cases owner <;> cases hf

/-- A close above other frames has just begun, or it was there before the step. -/
theorem Over.close_step {stage' : CloseStage} {f : Frame} {rest : List Frame}
    (hover : Over core stack)
    (hcore : core = [] ∨ ∃ owner events, Stands c.running owner events core)
    (hs : stepThread handler me c stack move = some (c', .close stage' :: f :: rest, signals)) :
    stage' = .storeStopped ∨ ∃ stage, stack = .close stage :: f :: rest ∧
      CloseStep me c (f :: rest) move stage c' (.close stage' :: f :: rest) signals := by
  rcases hover.visit_before hcore rfl hs with ⟨call, hframe⟩ | ⟨g, hg, rfl⟩
  · left
    cases call with
    | close | drop => exact Frame.close.inj hframe
    | _ => cases hframe
  right
  rcases visit_cases hg hs with ⟨stage, rfl, hclose⟩ | ⟨hother, rfl⟩
  · exact ⟨stage, rfl, hclose⟩
  -- no other visit becomes a close
  cases g with
  | close stage => exact absurd rfl (hother stage)
  | run stage =>
    cases stage with
    | bind =>
      simp only [stepThread, stepRun] at hs
      split at hs <;> cases hs
    | _ => cases hg
  | cancel stage => cases stage <;> cases hs
  | observe stage =>
    obtain ⟨-, hstack | ⟨later, hstack⟩⟩ := stepObserve_eq hs
    · exact absurd hstack (List.cons_ne_self _ _)
    · cases (List.cons.inj hstack).1
  | _ => cases hg

/-- What is known of closes above other frames. Only on a thread that runs the runner do they
come to look who runs it. -/
def Brief (s : System) (taker : Option (Owner × Nat)) : Prop :=
  ∀ (t : Nat) (stage : CloseStage) (f : Frame) (rest : List Frame),
    s.frames[t]? = some (.close stage :: f :: rest) →
      0 < stage.stepsLeft ∧ (stage.stepsLeft ≤ 2 → ∃ worker, taker = some (.run, worker))

theorem brief_init (threads layers : Nat) : Brief (.init threads layers) none := by
  intro t stage f rest ht
  cases List.eq_of_mem_replicate (List.mem_of_getElem? ht)

/-- What a step of a close above other frames leads to. -/
theorem Held.brief_step {stage : CloseStage} {f : Frame} {rest : List Frame}
    (h : Held s history taker) (hbrief : Brief s taker)
    (hstack : s.frames[t]? = some (.close stage :: f :: rest))
    (hs : CloseStep t s.cells (f :: rest) move stage c' stack signals) :
    stack = f :: rest ∨ ∃ later : CloseStage, stack = .close later :: f :: rest ∧
      0 < later.stepsLeft ∧ later.stepsLeft < stage.stepsLeft ∧
      (later.stepsLeft ≤ 2 → ∃ worker, taker = some (.run, worker)) := by
  obtain ⟨owner, rfl, htag, hplaced⟩ := h.inner hstack
  obtain ⟨hleft, hlast⟩ := hbrief t stage f rest hstack
  have hrun : stage.stepsLeft ≤ 2 → owner = .run := fun hle => by
    obtain ⟨worker, hworker⟩ := hlast hle
    exact (Prod.mk.inj (Option.some.inj hworker)).1
  refine (hs.inner hplaced htag hleft hrun).imp_right ?_
  rintro ⟨later, rfl, hpos, hlt, hlater⟩
  exact ⟨later, rfl, hpos, hlt, fun hle => ⟨t, by rw [hlater hle]⟩⟩

/-- A close that is to come back soon neither sleeps nor needs the lock. -/
theorem CloseStage.goes_of_stepsLeft {stage : CloseStage} (hleft : 0 < stage.stepsLeft) (me : Nat)
    (c : Cells) (core : List Frame) :
    ∃ c' stack signals, CloseStep me c core .go stage c' stack signals := by
  rcases stage.goes_or_waits me c core with hgoes | ⟨rfl | rfl, -⟩
  · exact hgoes
  · exact absurd hleft (by decide)
  · exact absurd hleft (by decide)

theorem Brief.step (hbrief : Brief s taker) (h : Held s history taker)
    (hs : s.step t move = some (signals, s')) :
    Brief s' (taker.or (taken t s.cells s'.cells)) := by
  intro u stage f rest hafter
  obtain ⟨stack, stack', hstack, hself, hothers, hstep⟩ := System.step_frames hs
  have hkeep : (∃ worker, taker = some (.run, worker)) →
      ∃ worker, taker.or (taken t s.cells s'.cells) = some (.run, worker) := by
    rintro ⟨worker, rfl⟩
    exact ⟨worker, rfl⟩
  by_cases hu : u = t
  · subst hu
    obtain rfl : stack' = .close stage :: f :: rest := Option.some.inj (hself.symm.trans hafter)
    obtain ⟨core, hover, hcore⟩ := h.inv.exists_base hstack
    rcases hover.close_step hcore hstep with rfl | ⟨before, rfl, hclose⟩
    · exact ⟨by decide, fun hle => absurd hle (by decide)⟩
    · rcases h.brief_step hbrief hstack hclose with hgone | ⟨later, hlater, hpos, -, hlast⟩
      · exact absurd hgone (List.cons_ne_self _ _)
      · obtain rfl := Frame.close.inj (List.cons.inj hlater).1
        exact ⟨hpos, fun hle => hkeep (hlast hle)⟩
  · rw [hothers u hu] at hafter
    obtain ⟨hpos, hlast⟩ := hbrief u stage f rest hafter
    exact ⟨hpos, fun hle => hkeep (hlast hle)⟩

theorem brief_steps (threads layers : Nat) {moves : List (Nat × Move)}
    {signals : List (Nat × Signal)}
    (hs : (System.init threads layers).steps moves = some (signals, s)) :
    Brief s ((System.init threads layers).owner moves) := by
  have hinit : Held (.init threads layers) [] none ∧ Brief (.init threads layers) none :=
    ⟨held_init threads layers, brief_init threads layers⟩
  have hrun := System.steps_carry
    (P := fun s history taker => Held s history taker ∧ Brief s taker)
    (fun h hstep => ⟨h.1.step hstep, h.2.step h.1 hstep⟩) hinit hs
  rw [Option.none_or] at hrun
  exact hrun.2

/-- A step of the runner's own code can always be taken when the thread can take it. -/
theorem System.step_go (hstack : s.frames[t]? = some stack) {stack' : List Frame}
    (hs : stepThread s.handler t s.cells stack .go = some (c', stack', signals)) :
    ∃ s', s.step t .go = some (signals, s') ∧ s'.cells = c' ∧ s'.frames[t]? = some stack' := by
  obtain ⟨ht, -⟩ := List.getElem?_eq_some_iff.1 hstack
  refine ⟨⟨c', s.handler, s.frames.set t stack', s.dropped⟩, ?_, rfl, ?_⟩
  · simp [System.step, System.admits, hstack, hs]
  · exact List.getElem?_set_self ht

/-! ## Sleepers -/

/-- When the flag is up and somebody still sleeps, the holder of the lock stands right before the
wake-up: its next step can be taken, and nobody sleeps after it. -/
theorem Latched.wakes (h : Latched s) (hdone : s.cells.latch.done = true)
    (hsleepers : s.cells.latch.sleepers ≠ []) :
    ∃ waker owner panic below signals s',
      s.frames[waker]? = some (.release owner .wake panic :: below) ∧
        s.cells.latch.holder = some waker ∧ s.step waker .go = some (signals, s') ∧
        s'.cells.latch.sleepers = [] := by
  obtain ⟨waker, stack, hstack, hwaking⟩ := h.waking hdone hsleepers
  have hholder := (h.knows waker stack hstack).holder_eq (isLocked_of_isWaking hwaking)
  unfold isWaking at hwaking
  split at hwaking
  · obtain ⟨s', hstep, hcells, -⟩ := System.step_go hstack rfl
    exact ⟨waker, _, _, _, _, s', hstack, hholder, hstep, by rw [hcells]⟩
  · cases hwaking

/-! ## Closing -/

/-- In every state that any number of threads can bring a runner to:
a close that finds the runner bound, and to another thread, is back only when all is over;
a close that finds nobody bound is back only when the runner is closed;
a close made while a callback or the handler of the runner is in control of the thread can
always take its next step, and is back after at most four;
and when the flag is up, a close that is asleep has been woken or has woken up by itself, unless
the thread that raised the flag still holds the lock and wakes all sleepers in its next step. -/
theorem closing_waits (threads layers : Nat) {moves : List (Nat × Move)}
    {signals : List (Nat × Signal)}
    (hs : (System.init threads layers).steps moves = some (signals, s)) :
    (∀ (t : Nat) (rest : List Frame), s.frames[t]? = some (.close .swap :: rest) →
      s.cells.tag = .bound →
        ∃ worker, (System.init threads layers).owner moves = some (.run, worker) ∧
          (t ≠ worker → ∀ moves signals s', s.steps ((t, .go) :: moves) = some (signals, s') →
            s'.frames[t]? = some rest → Finished s')) ∧
    (∀ (t : Nat) (rest : List Frame), s.frames[t]? = some (.close .swap :: rest) →
      s.cells.tag = .unbound →
        ∀ moves signals s', s.steps ((t, .go) :: moves) = some (signals, s') →
          s'.frames[t]? = some rest → s'.cells.closed = true) ∧
    (∀ (t : Nat) (stage : CloseStage) (f : Frame) (rest : List Frame),
      s.frames[t]? = some (.close stage :: f :: rest) →
        0 < stage.stepsLeft ∧ ∃ signals s', s.step t .go = some (signals, s') ∧
          (s'.frames[t]? = some (f :: rest) ∨ ∃ later : CloseStage,
            s'.frames[t]? = some (.close later :: f :: rest) ∧
              later.stepsLeft < stage.stepsLeft)) ∧
    (∀ (t : Nat) (rest : List Frame), s.frames[t]? = some (.close .asleep :: rest) →
      s.cells.latch.done = true → t ∉ s.cells.latch.sleepers ∨
        ∃ waker owner panic below signals s',
          s.frames[waker]? = some (.release owner .wake panic :: below) ∧
            s.cells.latch.holder = some waker ∧ s.step waker .go = some (signals, s') ∧
            s'.cells.latch.sleepers = []) := by
  have hheld := (held_init threads layers).steps hs
  rw [List.nil_append, Option.none_or] at hheld
  have hbrief := brief_steps threads layers hs
  refine ⟨fun t rest hstack htag => hheld.close_bound hstack htag, ?_, ?_, ?_⟩
  · intro t rest hstack htag moves signals s' hs' hback
    exact hheld.close_unbound hstack htag hs' hback
  · intro t stage f rest hstack
    obtain ⟨hleft, -⟩ := hbrief t stage f rest hstack
    obtain ⟨c', after, shown, hclose⟩ := CloseStage.goes_of_stepsLeft hleft t s.cells (f :: rest)
    obtain ⟨s', hstep, -, hself⟩ := System.step_go hstack (stepThread_close_iff.2 hclose)
    refine ⟨hleft, shown, s', hstep, ?_⟩
    rcases hheld.brief_step hbrief hstack hclose with rfl | ⟨later, rfl, -, hlt, -⟩
    · exact .inl hself
    · exact .inr ⟨later, hself, hlt⟩
  · intro t rest _ hdone
    by_cases hsleeping : t ∈ s.cells.latch.sleepers
    · exact .inr (hheld.latched.wakes hdone (List.ne_nil_of_mem hsleeping))
    · exact .inl hsleeping

/-- The runner is bound but its thread has not said so yet when another thread closes it and
falls asleep. The sleeper wakes up by itself, finds the flag down and sleeps on. The start fails,
and the handler panics. -/
theorem closing_waits_for_late_handle :
    let moves : List (Nat × Move) := [(0, .call .run), (0, .go), (1, .call .close), (1, .go)]
    let later : List (Nat × Move) :=
      [(1, .go), (1, .go), (1, .go), (1, .go), (1, .go), (1, .go), (1, .stir), (1, .go),
        (1, .go), (1, .go), (0, .go), (0, .go), (0, .finish (.panicked .other)), (0, .go),
        (0, .settle (some .other)), (0, .go), (0, .go), (0, .go), (0, .go), (0, .go), (1, .go),
        (1, .go), (1, .go)]
    ∃ signals s signals' s', (System.init 2 0).steps moves = some (signals, s) ∧
      s.cells.handle = none ∧ s.steps ((1, .go) :: later) = some (signals', s') ∧
      s'.frames[1]? = some [] ∧ Finished s' := by
  intro moves later
  have howner : (System.init 2 0).owner moves = some (.run, 0) := by decide +kernel
  have hrun : (((System.init 2 0).steps moves).bind fun r =>
      (r.2.steps ((1, .go) :: later)).map fun r' =>
        (r.2.frames[1]?, r.2.cells.tag, r.2.cells.handle, r'.2.frames[1]?)) =
      some (some [.close .swap], .bound, none, some []) := by decide +kernel
  obtain ⟨⟨signals, s⟩, hs, hrun⟩ := Option.bind_eq_some_iff.1 hrun
  obtain ⟨⟨signals', s'⟩, hs', hrun⟩ := Option.map_eq_some_iff.1 hrun
  simp only [Prod.mk.injEq] at hrun
  obtain ⟨hstack, htag, hhandle, hback⟩ := hrun
  obtain ⟨worker, hworker, hfinished⟩ := (closing_waits 2 0 hs).1 1 [] hstack htag
  rw [howner] at hworker
  have hother : 1 ≠ worker := by
    cases hworker
    decide
  exact ⟨signals, s, signals', s', hs, hhandle, hs', hback,
    hfinished hother later signals' s' hs' hback⟩

/-- A close sleeps when the flag is raised. Until the next step of the thread that raised it, the
flag is up, and the sleeper has not been woken. -/
theorem asleep_between_done_and_wake :
    let moves : List (Nat × Move) :=
      [(0, .call .run), (0, .go), (0, .go), (0, .go), (1, .call .close), (1, .go), (1, .go),
        (1, .go), (1, .go), (1, .go), (1, .go), (1, .go), (1, .go), (0, .finish (.ok 0)), (0, .go),
        (0, .go), (0, .finish (.ok 0)), (0, .go), (0, .go), (0, .go), (0, .go)]
    ∃ signals s, (System.init 2 0).steps moves = some (signals, s) ∧
      s.frames[1]? = some [.close .asleep] ∧ s.cells.latch.done = true ∧
      1 ∈ s.cells.latch.sleepers := by
  intro moves
  have hrun : (((System.init 2 0).steps moves).map fun r =>
      (r.2.frames[1]?, r.2.cells.latch.done, r.2.cells.latch.sleepers)) =
      some (some [.close .asleep], true, [1]) := by decide +kernel
  obtain ⟨⟨signals, s⟩, hs, hrun⟩ := Option.map_eq_some_iff.1 hrun
  simp only [Prod.mk.injEq] at hrun
  obtain ⟨hstack, hdone, hsleepers⟩ := hrun
  exact ⟨signals, s, hs, hstack, hdone, by rw [hsleepers]; exact List.mem_singleton_self _⟩

end RingTransport.Runner
