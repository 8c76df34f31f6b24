/-
  Errors that were wrapped. To wrap an error once or many times hides its kind and nothing else
  (`wrap_iterate`), so a wrapped request to stop is a failure of work like any other. What must
  happen next when work has failed is `Due` from that moment on, each step of the owner brings it
  nearer (`Due.step`), and the owner gets to it by itself (`Due.comes`). Main fact: in every run of
  a runner, work that fails with a wrapped error is reported, and neither cancels the runner nor
  stops its loop, while the bare request stops it without a report (`wrapped_is_fault`).
-/
import RingTransport.Proofs.Runner.Causes
import RingTransport.Proofs.Runner.Ledger
import RingTransport.Proofs.Runner.Onward
import Mathlib.Logic.Function.Iterate

namespace RingTransport

/-! ## Wrapping -/

namespace AgentError

theorem wrap_wrap (e : AgentError) : e.wrap.wrap = e.wrap := rfl

/-- Only the first wrapping makes a difference. -/
theorem wrap_iterate (e : AgentError) (k : Nat) : wrap^[k + 1] e = e.wrap := by
  induction k with
  | zero => rfl
  | succ k ih => rw [Function.iterate_succ_apply', ih, wrap_wrap]

theorem wrap_ne_cancelled (e : AgentError) : e.wrap ≠ cancelled := nofun

end AgentError

namespace Runner

/-! ## What is due when work has failed -/

/-- What happens next when work has failed: the error is reported, but when it was the request to
stop, the agent is closed. -/
def dueAfter (e : AgentError) : Signal :=
  if e = .cancelled then .began .onClose else .reported e

theorem dueAfter_of_ne {e : AgentError} (h : e ≠ .cancelled) : dueAfter e = .reported e := if_neg h

/-- Where the owner's frames stand when something is due. -/
inductive Due : (running : Bool) → Signal → List Frame → Prop
  | report {running} (e : AgentError) (layers : Handler) :
      Due running (.reported e) [.report e layers, .run .workReport]
  | quit {running} : Due running (.began .onClose) [.run .quit]
  | storeCancelled : Due false (.began .onClose) [.run .storeCancelled]
  | loadRunning : Due false (.began .onClose) [.run .loadRunning]
  | closing {running} : Due running (.began .onClose) [.teardown .run .closeDue]

variable {running running' : Bool} {due : Signal} {owner : Owner} {core stack : List Frame}
  {c c' : Cells} {me t : Nat} {handler : Handler} {move : Move} {signals : List Signal}
  {events before after : List Signal} {e : AgentError} {s s' s₁ : System}
  {history : List (Nat × Signal)} {taker : Option (Owner × Nat)}

/-- The flag of the loop is not raised again. -/
theorem Due.later (h : Due running due core) (hr : running' = true → running = true) :
    Due running' due core := by
  have hdown (hfalse : running = false) : running' = false := by
    rw [hfalse] at hr
    exact Bool.eq_false_iff.2 fun hup => Bool.noConfusion (hr hup)
  cases h with
  | report e layers => exact .report e layers
  | quit => exact .quit
  | storeCancelled => rw [hdown rfl]; exact .storeCancelled
  | loadRunning => rw [hdown rfl]; exact .loadRunning
  | closing => exact .closing

/-- What is due when work has just failed. -/
theorem due_of_failed
    (hs : afterCallback handler (.error e) [owner.caller .doWork] = some stack) :
    Due running (dueAfter e) stack := by
  cases e with
  | cancelled => cases hs; exact .quit
  | panicked | message | failed => cases hs; exact .report _ handler

/-- A step of the owner, visits apart, makes no event and what is due stays due, or it is what
happens. -/
theorem Due.step (h : Due c.running due core) (hmove : ∀ call, move ≠ .call call)
    (hs : stepThread handler me c core move = some (c', stack, signals)) :
    signals.filter Signal.isEvent = [] ∧ Due c'.running due stack ∨
      signals.filter Signal.isEvent = [due] := by
  generalize hrunning : c.running = running at h
  obtain rfl : move = .go := by
    cases move with
    | go => rfl
    | call call => exact absurd rfl (hmove call)
    | finish | settle | stir => cases h <;> cases hs
  cases h with
  | report e layers =>
    cases layers with
    | innermost => cases hs; exact .inr rfl
    | counted i inner => cases hs; exact .inl ⟨rfl, .report e inner⟩
  | quit => cases hs; exact .inl ⟨rfl, .storeCancelled⟩
  | storeCancelled =>
    cases hs
    refine .inl ⟨rfl, ?_⟩
    show Due c.running _ _
    rw [hrunning]
    exact .loadRunning
  | loadRunning =>
    simp only [stepThread, stepRun, hrunning] at hs
    cases hs
    exact .inl ⟨rfl, .closing⟩
  | closing => cases hs; exact .inr rfl

/-! ## What follows a failure of work -/

/-- After each failure of work comes what is due, or it is still due. -/
def Answered (running : Bool) (events : List Signal) (core : List Frame) : Prop :=
  ∀ before e after, events = before ++ .ended .doWork (.error e) :: after →
    after = [] ∧ Due running (dueAfter e) core ∨ ∃ rest, after = dueAfter e :: rest

theorem answered_nil : Answered running [] core := fun before e after hsplit => by
  simp at hsplit

/-- An event of a longer list is one of the earlier events, or one of the later. -/
theorem split_cases {x : Signal} {later : List Signal}
    (hsplit : events ++ later = before ++ x :: after) :
    (∃ rest, events = before ++ x :: rest ∧ after = rest ++ later) ∨
      ∃ gap, later = gap ++ x :: after := by
  rcases List.append_eq_append_iff.1 hsplit with ⟨gap, -, hlater⟩ | ⟨rest, hevents, hafter⟩
  · exact .inr ⟨gap, hlater⟩
  · cases rest with
    | nil => exact .inr ⟨[], hafter.symm⟩
    | cons y rest =>
      obtain ⟨rfl, rfl⟩ := List.cons.inj hafter
      exact .inl ⟨rest, hevents, rfl⟩

/-- A step in which work fails. -/
theorem failed_step (hstands : Stands c.running owner events core)
    (hs : stepThread handler me c core move = some (c', stack, signals))
    (hmem : .ended .doWork (.error e) ∈ signals) :
    signals = [.ended .doWork (.error e)] ∧ Due c'.running (dueAfter e) stack := by
  cases stepThread_shows hs hmem with
  | ended =>
    cases hstands with
    | calling =>
      simp only [stepThread, Option.map_eq_some_iff] at hs
      obtain ⟨_, hafter, hs⟩ := hs
      cases hs
      exact ⟨rfl, due_of_failed hafter⟩

/-- A step of the owner, visits apart. -/
theorem Answered.own (hstands : Stands c.running owner events core)
    (h : Answered c.running events core) (hmove : ∀ call, move ≠ .call call)
    (hs : stepThread handler me c core move = some (c', stack, signals)) :
    Answered c'.running (events ++ signals.filter Signal.isEvent) stack := by
  intro before e after hsplit
  rcases split_cases hsplit with ⟨rest, hevents, rfl⟩ | ⟨gap, hnow⟩
  · rcases h before e rest hevents with ⟨rfl, hdue⟩ | ⟨rest, rfl⟩
    · rcases hdue.step hmove hs with ⟨hquiet, hstill⟩ | hcomes
      · rw [hquiet]
        exact .inl ⟨rfl, hstill⟩
      · rw [hcomes]
        exact .inr ⟨[], rfl⟩
    · exact .inr ⟨_, rfl⟩
  · have hmem : .ended .doWork (.error e) ∈ signals.filter Signal.isEvent := by
      rw [hnow]
      exact List.mem_append_right _ (List.mem_cons_self ..)
    obtain ⟨rfl, hdue⟩ := failed_step hstands hs (List.mem_filter.1 hmem).1
    have hlength := congrArg List.length hnow
    rw [List.length_append, List.length_cons] at hlength
    have hone : ([.ended .doWork (.error e)] : List Signal).filter Signal.isEvent =
        [.ended .doWork (.error e)] := rfl
    rw [hone, List.length_singleton] at hlength
    obtain rfl : after = [] := List.eq_nil_of_length_eq_zero (by omega)
    exact .inl ⟨rfl, hdue⟩

theorem Answered.later (h : Answered running events core)
    (hr : running' = true → running = true) : Answered running' events core :=
  fun before e after hsplit => (h before e after hsplit).imp_left fun hpending =>
    ⟨hpending.1, hpending.2.later hr⟩

/-! ## All threads -/

/-- Every failure of work has been answered, or is about to be, by the owner of the runner. -/
def AnsweredBy (s : System) (history : List (Nat × Signal)) : Option (Owner × Nat) → Prop
  | none => True
  | some (_, thread) =>
    ∃ core, CoreAt s thread core ∧ Answered s.cells.running (history.map (·.2)) core

/-- What holds of a runner and of the failures of its work. -/
structure Answering (s : System) (history : List (Nat × Signal))
    (taker : Option (Owner × Nat)) : Prop where
  held : Held s history taker
  answered : AnsweredBy s history taker

theorem answering_init (threads layers : Nat) : Answering (.init threads layers) [] none :=
  ⟨held_init threads layers, trivial⟩

theorem Answering.step (h : Answering s history taker) (hs : s.step t move = some (signals, s')) :
    Answering s' (history ++ eventsOf (signals.map (t, ·)))
      (taker.or (taken t s.cells s'.cells)) := by
  refine ⟨h.held.step hs, ?_⟩
  cases htaker : taker.or (taken t s.cells s'.cells) with
  | none => trivial
  | some taker' =>
    obtain ⟨owner, thread⟩ := taker'
    refine h.held.carry (fun cells events core => Answered cells.running events core) hs
      ?_ ?_ ?_ ?_ htaker
    · rintro owner thread rfl
      exact h.answered
    · exact fun _ _ _ => answered_nil
    · intro owner core core' hstands hanswered hmove hstep
      exact hanswered.own hstands hmove hstep
    · exact fun core _ hanswered => hanswered.later (System.step_onward hs).running

/-! ## One thread alone -/

/-- Moves of one thread, one after the other. -/
def stepsThread (handler : Handler) (me : Nat) : List Move → Cells → List Frame → Option Stepped
  | [], c, stack => some (c, stack, [])
  | move :: moves, c, stack => do
    let (c, stack, signals) ← stepThread handler me c stack move
    let (c, stack, later) ← stepsThread handler me moves c stack
    return (c, stack, signals ++ later)

/-- Alone, a thread makes these moves; these events come of it. -/
def System.Alone (s : System) (t : Nat) (moves : List Move) (events : List Signal)
    (s' : System) : Prop :=
  ∃ shown, s.steps (moves.map (t, ·)) = some (shown, s') ∧ eventsOf shown = events.map (t, ·)

variable {moves moves' : List Move} {stack' stack'' rest : List Frame} {c'' : Cells}
  {later : List Signal}

theorem stepsThread_cons (hfirst : stepThread handler me c stack move = some (c', stack', signals))
    (hlater : stepsThread handler me moves c' stack' = some (c'', stack'', later)) :
    stepsThread handler me (move :: moves) c stack = some (c'', stack'', signals ++ later) := by
  simp only [stepsThread, hfirst, hlater, bind, Option.bind, pure]

theorem stepsThread_append
    (hbefore : stepsThread handler me moves c stack = some (c', stack', signals))
    (hafter : stepsThread handler me moves' c' stack' = some (c'', stack'', later)) :
    stepsThread handler me (moves ++ moves') c stack = some (c'', stack'', signals ++ later) := by
  induction moves generalizing c stack signals with
  | nil =>
    cases hbefore
    exact hafter
  | cons move moves ih =>
    simp only [stepsThread, bind, Option.bind_eq_some_iff, pure] at hbefore
    obtain ⟨⟨c₁, stack₁, first⟩, hfirst, ⟨_, _, rest⟩, hrest, hbefore⟩ := hbefore
    cases hbefore
    rw [List.cons_append, stepsThread_cons hfirst (ih hrest), List.append_assoc]

theorem not_call_replicate (n : Nat) :
    ∀ move ∈ List.replicate n Move.go, ∀ call, move ≠ .call call := by
  intro move hmem call
  rw [List.eq_of_mem_replicate hmem]
  exact Move.noConfusion

/-- A thread can make the moves that it makes alone. -/
theorem System.exists_alone (hmoves : ∀ move ∈ moves, ∀ call, move ≠ .call call)
    (hstack : s.frames[t]? = some stack)
    (hs : stepsThread s.handler t moves s.cells stack = some (c', stack', signals)) :
    ∃ s', s.Alone t moves (signals.filter Signal.isEvent) s' ∧ s'.cells = c' ∧
      s'.frames[t]? = some stack' ∧ s'.handler = s.handler := by
  induction moves generalizing s stack signals with
  | nil =>
    cases hs
    exact ⟨s, ⟨[], rfl, rfl⟩, rfl, hstack, rfl⟩
  | cons move moves ih =>
    simp only [stepsThread, bind, Option.bind_eq_some_iff, pure] at hs
    obtain ⟨⟨c₁, stack₁, first⟩, hfirst, ⟨_, _, later⟩, hlater, hs⟩ := hs
    cases hs
    obtain ⟨hmove, hmoves⟩ := List.forall_mem_cons.1 hmoves
    obtain ⟨ht, -⟩ := List.getElem?_eq_some_iff.1 hstack
    let s₁ : System :=
      ⟨c₁, s.handler, s.frames.set t stack₁, s.dropped || move == .call .drop⟩
    have hstep : s.step t move = some (first, s₁) := by
      have hadmits : s.admits move = true := by
        cases move with
        | call call => exact absurd rfl (hmove call)
        | _ => rfl
      simp [System.step, hadmits, hstack, hfirst, s₁]
    obtain ⟨s', ⟨shown, hsteps, hevents⟩, hcells, hself, hhandler⟩ :=
      ih (s := s₁) hmoves (List.getElem?_set_self ht) hlater
    refine ⟨s', ⟨_, System.steps_of_step hstep hsteps, ?_⟩, hcells, hself, hhandler⟩
    rw [eventsOf_append, eventsOf_map, hevents, List.filter_append, List.map_append]

/-- An error gets through the layers of the handler. -/
theorem exists_stepsThread_report (handler : Handler) (me : Nat) (c : Cells) (e : AgentError)
    (layers : Handler) (rest : List Frame) :
    ∃ n signals, stepsThread handler me (List.replicate n .go) c (.report e layers :: rest) =
      some ({ c with counters := layers.bumps c.counters }, .handling e :: rest, signals) ∧
      signals.filter Signal.isEvent = [.reported e] := by
  induction layers generalizing c with
  | innermost => exact ⟨1, _, rfl, rfl⟩
  | counted i inner ih =>
    obtain ⟨n, signals, hrest, hevents⟩ := ih { c with counters := bump c.counters i }
    exact ⟨n + 1, _, stepsThread_cons rfl hrest, hevents⟩

/-- What is due comes when the owner goes on. -/
theorem Due.goes_on (h : Due c.running due core) (handler : Handler) (me : Nat) :
    ∃ n c' stack signals, stepsThread handler me (List.replicate n .go) c core =
      some (c', stack, signals) ∧ signals.filter Signal.isEvent = [due] := by
  have hload {c : Cells} (hdown : c.running = false) :
      stepThread handler me c [.run .loadRunning] .go =
        some (c, [.teardown .run .closeDue], []) := by
    simp only [stepThread, stepRun, hdown]
    rfl
  generalize hrunning : c.running = running at h
  cases h with
  | report e layers =>
    obtain ⟨n, signals, hreport, hevents⟩ :=
      exists_stepsThread_report handler me c e layers [.run .workReport]
    exact ⟨n, _, _, signals, hreport, hevents⟩
  | quit => exact ⟨4, _, _, _, rfl, rfl⟩
  | storeCancelled =>
    have hstored : ({ c with cancelled := true } : Cells).running = false := hrunning
    exact ⟨3, _, _, _,
      stepsThread_cons rfl (stepsThread_cons (hload hstored) (stepsThread_cons rfl rfl)), rfl⟩
  | loadRunning =>
    exact ⟨2, _, _, _, stepsThread_cons (hload hrunning) (stepsThread_cons rfl rfl), rfl⟩
  | closing => exact ⟨1, _, _, _, rfl, rfl⟩

/-- The code of the runner itself is in control where something is due. -/
theorem Due.over (h : Due running due core) (hover : Over core stack) : stack = core := by
  cases hover with
  | alone => rfl
  | visit _ hcontrol => cases h <;> cases hcontrol

theorem Answering.comes (h : Answering s history taker)
    (hsplit : history.map (·.2) = before ++ .ended .doWork (.error e) :: after) :
    (∃ rest, after = dueAfter e :: rest) ∨
      after = [] ∧ ∃ t n s', s.Alone t (List.replicate n .go) [dueAfter e] s' := by
  obtain ⟨hheld, hanswered⟩ := h
  cases taker with
  | none =>
    have huntaken : Untaken s history := hheld.inv
    rw [huntaken.events] at hsplit
    simp at hsplit
  | some taker =>
    obtain ⟨owner, thread⟩ := taker
    obtain ⟨core, hat, hanswered⟩ := hanswered
    rcases hanswered before e after hsplit with ⟨hlast, hdue⟩ | hnext
    · obtain ⟨core₁, stack, hstands, -, hstack, hover, -⟩ := hheld.exists_core
      obtain rfl := hat.unique ⟨stack, hstack, hover.coreOf_eq hstands.coreOf_eq⟩
      obtain rfl := hdue.over hover
      obtain ⟨n, c', stack', signals, hs, hevents⟩ := hdue.goes_on s.handler thread
      obtain ⟨s', halone, -⟩ := System.exists_alone (not_call_replicate n) hstack hs
      rw [hevents] at halone
      exact .inr ⟨hlast, thread, n, s', halone⟩
    · exact .inl hnext

/-! ## Work that fails alone -/

/-- A failure of work, from its end to the end of its report. -/
theorem exists_stepsThread_fault (handler : Handler) (me : Nat) (c : Cells)
    (he : e ≠ .cancelled) :
    ∃ n signals, stepsThread handler me (.finish (.error e) :: List.replicate n .go ++ [.settle none])
      c [.callback .doWork, .run .inWork] =
        some ({ c with counters := handler.bumps c.counters }, [.run .loadCancelled], signals) ∧
      signals.filter Signal.isEvent = [.ended .doWork (.error e), .reported e, .settled none] := by
  have hended : stepThread handler me c [.callback .doWork, .run .inWork] (.finish (.error e)) =
      some (c, [.report e handler, .run .workReport], [.ended .doWork (.error e)]) := by
    cases e with
    | cancelled => exact absurd rfl he
    | panicked | message | failed => rfl
  obtain ⟨n, signals, hreport, hevents⟩ :=
    exists_stepsThread_report handler me c e handler [.run .workReport]
  refine ⟨n, _, stepsThread_append (stepsThread_cons hended hreport) rfl, ?_⟩
  rw [List.filter_append, List.filter_append, hevents]
  rfl

/-- The loop goes on after a failure when it may. -/
theorem stepsThread_loop (handler : Handler) (me : Nat) (hup : c.running = true)
    (hgoes : c.cancelled = false) :
    stepsThread handler me [.go, .go, .go] c [.run .loadCancelled] =
      some (c, [.callback .doWork, .run .inWork], [.began .doWork]) := by
  have hcancelled : stepThread handler me c [.run .loadCancelled] .go =
      some (c, [.run .loadRunning], []) := by
    simp only [stepThread, stepRun, hgoes]
    rfl
  have hrunning : stepThread handler me c [.run .loadRunning] .go =
      some (c, [.run .workDue], []) := by
    simp only [stepThread, stepRun, hup]
    rfl
  have hbegan : stepsThread handler me [.go] c [.run .workDue] =
      some (c, [.callback .doWork, .run .inWork], [.began .doWork]) := rfl
  exact stepsThread_cons hcancelled (stepsThread_cons hrunning hbegan)

/-- Work that fails is over with the return of the handler: nothing has changed but its counters,
and the loop goes on when it may. -/
theorem System.alone_fault (hstack : s.frames[t]? = some [.callback .doWork, .run .inWork])
    (he : e ≠ .cancelled) :
    ∃ n s', s.Alone t (.finish (.error e) :: List.replicate n .go ++ [.settle none])
        [.ended .doWork (.error e), .reported e, .settled none] s' ∧
      s'.cells = { s.cells with counters := s.handler.bumps s.cells.counters } ∧
      (s.cells.running = true → s.cells.cancelled = false →
        ∃ s'', s'.Alone t [.go, .go, .go] [.began .doWork] s'') := by
  obtain ⟨n, signals, hs, hevents⟩ := exists_stepsThread_fault s.handler t s.cells he
  have hmoves : ∀ move ∈ .finish (.error e) :: List.replicate n Move.go ++ [.settle none],
      ∀ call, move ≠ .call call := by
    simp only [List.cons_append, List.forall_mem_cons, List.forall_mem_append]
    exact ⟨nofun, not_call_replicate n, nofun, nofun⟩
  obtain ⟨s', halone, hcells, hself, -⟩ := System.exists_alone hmoves hstack hs
  rw [hevents] at halone
  refine ⟨n, s', halone, hcells, fun hup hgoes => ?_⟩
  have hup' : s'.cells.running = true := by
    rw [hcells]
    exact hup
  have hgoes' : s'.cells.cancelled = false := by
    rw [hcells]
    exact hgoes
  have hthree := not_call_replicate 3
  obtain ⟨s'', hagain, -⟩ :=
    System.exists_alone hthree hself (stepsThread_loop s'.handler t hup' hgoes')
  exact ⟨s'', hagain⟩

/-- Work that asks to stop is followed by the close. -/
theorem System.alone_asked (hstack : s.frames[t]? = some [.callback .doWork, .run .inWork]) :
    ∃ s', s.Alone t [.finish (.error .cancelled), .go, .go, .go, .go]
        [.ended .doWork (.error .cancelled), .began .onClose] s' ∧
      s'.cells = { s.cells with running := false, cancelled := true } := by
  have hs : stepsThread s.handler t [.finish (.error .cancelled), .go, .go, .go, .go] s.cells
      [.callback .doWork, .run .inWork] =
        some ({ s.cells with running := false, cancelled := true },
          [.callback .onClose, .teardown .run .inClose],
          [.ended .doWork (.error .cancelled), .began .onClose]) := rfl
  have hmoves : ∀ move ∈ .finish (.error .cancelled) :: List.replicate 4 Move.go,
      ∀ call, move ≠ .call call :=
    List.forall_mem_cons.2 ⟨nofun, not_call_replicate 4⟩
  obtain ⟨s', halone, hcells, -⟩ := System.exists_alone hmoves hstack hs
  exact ⟨s', halone, hcells⟩

/-! ## Nothing is worked on after the close has begun -/

/-- Before the close of a life all is open, and in the close no work begins. -/
theorem Life.work_before_close (h : Life owner events) :
    events.Pairwise fun x y => x = .began .onClose → y ≠ .began .doWork := by
  obtain ⟨calls, o, rfl, hcalls⟩ := h.exists_attempts
  have hopen : ∀ x ∈ attempts calls, x ≠ .began .onClose := by
    rintro x hmem rfl
    exact List.count_eq_zero.1 (count_onClose_attempts hcalls) hmem
  have hsplit : attempts (calls ++ [(.onClose, o)]) = attempts calls ++ attempt .onClose o := by
    simp [attempts]
  rw [hsplit]
  refine List.pairwise_append.2 ⟨?_, ?_, fun x hx y _ hclose => absurd hclose (hopen x hx)⟩
  · exact List.pairwise_of_forall_mem_list fun x hx y _ hclose => absurd hclose (hopen x hx)
  · unfold attempt
    split <;> simp

theorem Unfolds.work_before_close (h : Unfolds owner events)
    (hsplit : events = before ++ .began .onClose :: after) : .began .doWork ∉ after := by
  have hpairwise : events.Pairwise fun x y => x = .began .onClose → y ≠ .began .doWork := by
    rcases h with ⟨life, hlife, hpre⟩ | ⟨p, hlife, hpre⟩
    · exact hlife.work_before_close.sublist hpre.sublist
    · have hwhole := hlife.work_before_close.sublist hpre.sublist
      refine List.pairwise_append.2
        ⟨(List.pairwise_append.1 hwhole).1, List.pairwise_singleton .., ?_⟩
      intro x _ y hy _
      rw [List.mem_singleton.1 hy]
      exact Signal.noConfusion
  rw [hsplit] at hpairwise
  have hafter := (List.pairwise_cons.1 (List.pairwise_append.1 hpairwise).2.1).1
  exact fun hwork => hafter _ hwork rfl rfl

theorem Held.work_over (h : Held s history taker)
    (hsplit : history.map (·.2) = before ++ .began .onClose :: after) :
    .began .doWork ∉ after := by
  cases taker with
  | none =>
    have huntaken : Untaken s history := h.inv
    rw [huntaken.events] at hsplit
    simp at hsplit
  | some taker =>
    obtain ⟨core, -, hstands, -⟩ := h.exists_core
    exact hstands.unfolds.work_before_close hsplit

/-! ## All runs -/

/-- An error that was wrapped, once or many times, has the text and the sources it had, and is no
request to stop, whatever it was. So in every run of any number of threads, whatever they do with a
runner and however its callbacks and its handler end:
when work has failed with a wrapped error, the handler is called with it next, or will be when the
thread goes on; when work has asked to stop, the close begins next, or will when the thread goes
on, and there is no work any more;
a runner that is cancelled was cancelled by a call or by work that asked to stop, and one whose
loop is to stop was cancelled or closed, or its start failed: a wrapped request causes neither;
and in any work in progress, if it fails with a wrapped error and the handler returns, nothing has
changed but the counters, and the loop goes on if it may, while the bare request stops the loop,
cancels the runner and is not reported. -/
theorem wrapped_is_fault (e : AgentError) (k : Nat) :
    let wrapped := AgentError.wrap^[k + 1] e
    (wrapped.text = e.text ∧ wrapped.sources = e.sources ∧ wrapped.variant = "Failed" ∧
      wrapped.isCancelled = false) ∧
    ∀ threads layers (moves : List (Nat × Move)) signals (s : System),
      (System.init threads layers).steps moves = some (signals, s) →
        let events := (eventsOf signals).map (·.2)
        let shown := signals.map (·.2)
        (∀ before after, events = before ++ .ended .doWork (.error wrapped) :: after →
          (∃ rest, after = .reported wrapped :: rest) ∨
            after = [] ∧ ∃ t n s', s.Alone t (List.replicate n .go) [.reported wrapped] s') ∧
        (∀ before after, events = before ++ .ended .doWork (.error .cancelled) :: after →
          .began .doWork ∉ after ∧ ((∃ rest, after = .began .onClose :: rest) ∨
            after = [] ∧ ∃ t n s', s.Alone t (List.replicate n .go) [.began .onClose] s')) ∧
        (s.cells.cancelled = true → CancelledBy shown) ∧
        (s.cells.running = false → StoppedBy shown) ∧
        ∀ t below, s.frames[t]? = some (.callback .doWork :: below) →
          (∃ n s', s.Alone t (.finish (.error wrapped) :: List.replicate n .go ++ [.settle none])
              [.ended .doWork (.error wrapped), .reported wrapped, .settled none] s' ∧
            s'.cells = { s.cells with counters := s.handler.bumps s.cells.counters } ∧
            (s.cells.running = true → s.cells.cancelled = false →
              ∃ s'', s'.Alone t [.go, .go, .go] [.began .doWork] s'')) ∧
          ∃ s', s.Alone t [.finish (.error .cancelled), .go, .go, .go, .go]
              [.ended .doWork (.error .cancelled), .began .onClose] s' ∧
            s'.cells = { s.cells with running := false, cancelled := true } := by
  intro wrapped
  have hwrapped : wrapped = e.wrap := e.wrap_iterate k
  have hother : wrapped ≠ .cancelled := by
    rw [hwrapped]
    exact e.wrap_ne_cancelled
  have hdue : dueAfter wrapped = .reported wrapped := dueAfter_of_ne hother
  refine ⟨?_, ?_⟩
  · rw [hwrapped]
    exact ⟨e.text_wrap, e.sources_wrap, rfl, rfl⟩
  intro threads layers moves signals s hs events shown
  have hanswering := System.steps_carry Answering.step (answering_init threads layers) hs
  rw [List.nil_append, Option.none_or] at hanswering
  obtain ⟨-, hcancelled, hrunning⟩ := founded_run threads layers hs
  refine ⟨fun before after hsplit => ?_, fun before after hsplit => ⟨?_, ?_⟩, hcancelled, hrunning,
    fun t below hstack => ?_⟩
  · rw [← hdue]
    exact hanswering.comes hsplit
  · rcases hanswering.comes hsplit with ⟨rest, rfl⟩ | ⟨rfl, -⟩
    · have hclose : events = (before ++ [.ended .doWork (.error .cancelled)]) ++
          .began .onClose :: rest := by
        rw [hsplit, List.append_assoc]
        rfl
      exact List.not_mem_cons_of_ne_of_not_mem nofun (hanswering.held.work_over hclose)
    · exact List.not_mem_nil
  · exact hanswering.comes hsplit
  · obtain ⟨owner, rfl⟩ := hanswering.held.inv.caller_below hstack
    exact ⟨System.alone_fault hstack hother, System.alone_asked hstack⟩

/-- Work fails with a request to stop that was wrapped twice, which is reported and counted, and
the next work begins; this one asks to stop itself. -/
theorem wrapped_twice_is_fault :
    let wrapped := AgentError.cancelled.wrap.wrap
    let moves : List (Nat × Move) :=
      [(0, .call .run), (0, .go), (0, .go), (0, .go), (0, .finish (.ok 0)), (0, .go), (0, .go),
        (0, .finish (.error wrapped)), (0, .go), (0, .go), (0, .settle none), (0, .go), (0, .go),
        (0, .go)]
    ∃ signals s, (System.init 1 1).steps moves = some (signals, s) ∧
      wrapped.text = "agent cancelled" ∧ wrapped.isCancelled = false ∧
      s.cells.counters = [1] ∧ ¬ CancelledBy (signals.map (·.2)) ∧
      ∃ s', s.Alone 0 [.finish (.error .cancelled), .go, .go, .go, .go]
          [.ended .doWork (.error .cancelled), .began .onClose] s' ∧
        s'.cells.cancelled = true := by
  intro wrapped moves
  have hrun : ((System.init 1 1).steps moves).map (fun r =>
      (r.2.frames, r.2.cells.counters, r.1.map (·.2))) =
      some ([[.callback .doWork, .run .inWork]], [1],
        [.called .run, .notice .starting, .began .onStart, .ended .onStart (.ok 0),
          .began .doWork, .ended .doWork (.error wrapped), .counted 0, .reported wrapped,
          .settled none, .began .doWork]) := by decide +kernel
  obtain ⟨⟨signals, s⟩, hs, hrun⟩ := Option.map_eq_some_iff.1 hrun
  simp only [Prod.mk.injEq] at hrun
  obtain ⟨hframes, hcounters, hshown⟩ := hrun
  obtain ⟨⟨htext, -, -, hkind⟩, hruns⟩ := wrapped_is_fault .cancelled 1
  obtain ⟨-, -, -, -, hworks⟩ := hruns 1 1 moves signals s hs
  have hstack : s.frames[0]? = some [.callback .doWork, .run .inWork] := by
    rw [hframes]
    rfl
  obtain ⟨-, s', halone, hcells⟩ := hworks 0 _ hstack
  refine ⟨signals, s, hs, htext, hkind, hcounters, ?_, s', halone, ?_⟩
  · rw [hshown]
    unfold CancelledBy
    decide
  · rw [hcells]

end Runner

end RingTransport
