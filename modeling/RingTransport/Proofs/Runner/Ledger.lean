/-
  What the error handler of a runner is told. Every callback that fails is a fault, except work
  that asks to stop, and a report is due for each. A callback begins only after the reports of
  those before it (`Unfolds.exists_attempts`), and a handler that panics is told no more
  (`Unfolds.panicked`), so at any instant the faults are the reports made and the one on its
  way (`Stands.ledger`). The counters of the handler keep pace (`Counting`). Main fact:
  `fault_ledger`.
-/
import RingTransport.Proofs.Agent.Layers
import RingTransport.Proofs.Runner.Accesses
import RingTransport.Proofs.Runner.CloseOnce

namespace RingTransport.Runner

/-! ## Faults and reports -/

/-- The errors of the callbacks that failed. -/
def faultsOf (events : List Signal) : List AgentError :=
  events.filterMap fun
    | .ended c o => fault c o
    | _ => none

/-- The errors that the handler was called with. -/
def reportsOf (events : List Signal) : List AgentError :=
  events.filterMap fun
    | .reported e => some e
    | _ => none

variable {c : Callback} {o : Outcome} {e : AgentError} {owner : Owner} {thread : Nat}
  {events before after life : List Signal} {calls : List (Callback × Outcome)}

theorem faultsOf_append (events events' : List Signal) :
    faultsOf (events ++ events') = faultsOf events ++ faultsOf events' :=
  List.filterMap_append

theorem reportsOf_append (events events' : List Signal) :
    reportsOf (events ++ events') = reportsOf events ++ reportsOf events' :=
  List.filterMap_append

theorem faultsOf_ended (c : Callback) (o : Outcome) :
    faultsOf [.ended c o] = (fault c o).toList := by
  cases h : fault c o with
  | none => exact List.filterMap_cons_none h
  | some e => exact List.filterMap_cons_some h

theorem faultsOf_failed (h : fault c o = some e) : faultsOf [.began c, .ended c o] = [e] := by
  show faultsOf [.ended c o] = [e]
  rw [faultsOf_ended, h]
  rfl

/-- Whatever a callback does, the handler is called with its fault, if there is one. -/
theorem reportsOf_attempt (c : Callback) (o : Outcome) :
    reportsOf (attempt c o) = faultsOf (attempt c o) := by
  cases h : fault c o with
  | none =>
    rw [attempt_of_none h]
    show [] = faultsOf [.ended c o]
    rw [faultsOf_ended, h]
    rfl
  | some e =>
    rw [attempt_of_some h]
    show [e] = faultsOf ([.began c, .ended c o] ++ [.reported e, .settled none])
    rw [faultsOf_append, faultsOf_failed h]
    rfl

theorem reportsOf_attempts (calls : List (Callback × Outcome)) :
    reportsOf (attempts calls) = faultsOf (attempts calls) := by
  induction calls with
  | nil => rfl
  | cons call calls ih =>
    obtain ⟨c, o⟩ := call
    rw [attempts_cons, reportsOf_append, faultsOf_append, reportsOf_attempt, ih]

/-! ## Before a callback, and after a panic of the handler -/

/-- An attempt begins with its callback, and nothing else begins in it. -/
theorem eq_nil_of_began {c' : Callback} (h : before ++ [.began c'] <+: attempt c o) :
    before = [] := by
  obtain ⟨tail, hattempt, hquiet⟩ : ∃ tail, attempt c o = .began c :: tail ∧
      Signal.began c' ∉ tail := by
    unfold attempt
    split
    · exact ⟨_, rfl, by simp⟩
    · exact ⟨_, rfl, by simp⟩
  rw [hattempt] at h
  cases before with
  | nil => rfl
  | cons x before =>
    have htail := (List.cons_prefix_cons.1 h).2
    exact absurd (htail.subset (List.mem_append_right _ (List.mem_singleton_self _))) hquiet

/-- What comes before a callback are whole attempts. -/
theorem attempts_before (h : before ++ [.began c] <+: attempts calls) :
    ∃ done, before = attempts done := by
  obtain ⟨done, c', o, later, part, -, rfl, hpart⟩ := attempts_part h
  rw [eq_nil_of_began hpart, List.append_nil]
  exact ⟨done, rfl⟩

theorem prefix_of_split {x : Signal} (h : events = before ++ x :: after) :
    before ++ [x] <+: events :=
  ⟨after, by simp [h]⟩

/-- What came before a callback are whole attempts, also in a life that was cut short. -/
theorem Unfolds.exists_attempts (h : Unfolds owner events)
    (hsplit : events = before ++ .began c :: after) : ∃ done, before = attempts done := by
  have hpre := prefix_of_split hsplit
  rcases h with ⟨life, hlife, hevents⟩ | ⟨p, hlife, hbefore⟩
  · obtain ⟨calls, last, rfl, -⟩ := hlife.exists_attempts
    exact attempts_before (hpre.trans hevents)
  · obtain ⟨calls, last, rfl, -⟩ := hlife.exists_attempts
    rcases List.prefix_concat_iff.1 hpre with heq | hearlier
    · cases (List.append_inj' heq rfl).2
    · exact attempts_before (hearlier.trans ((List.prefix_append ..).trans hbefore))

/-- A panic of the handler is the last that happens, in the report of a fault. -/
theorem Unfolds.panicked (h : Unfolds owner events) {p : Payload}
    (hsplit : events = before ++ .settled (some p) :: after) :
    after = [] ∧ ∃ calls c o e, fault c o = some e ∧
      before = attempts calls ++ [.began c, .ended c o, .reported e] := by
  rcases h with ⟨life, hlife, hevents⟩ | ⟨p', hlife, hbefore⟩
  · obtain ⟨calls, last, rfl, -⟩ := hlife.exists_attempts
    have hmem : Signal.settled (some p) ∈ events := by simp [hsplit]
    exact absurd (hevents.subset hmem) (settled_some_not_mem_attempts _ p)
  · obtain ⟨calls, last, rfl, -⟩ := hlife.exists_attempts
    rcases List.prefix_concat_iff.1 (prefix_of_split hsplit) with heq | hearlier
    · obtain ⟨rfl, -⟩ := List.append_inj' heq rfl
      obtain ⟨done, c, o, e, later, -, ho, rfl⟩ := attempts_split hbefore
      refine ⟨?_, done, c, o, e, ho, rfl⟩
      have hlength := congrArg List.length hsplit
      simp only [List.length_append, List.length_cons, List.length_nil] at hlength
      exact List.eq_nil_of_length_eq_zero (by omega)
    · have hpre := hearlier.trans ((List.prefix_append ..).trans hbefore)
      exact absurd (hpre.subset (by simp)) (settled_some_not_mem_attempts _ p)

/-! ## At any instant -/

theorem Before.exists_attempts (h : Before owner c events) : ∃ calls, events = attempts calls := by
  cases h with
  | start | only => exact ⟨[], rfl⟩
  | @work o works | @close o works =>
    exact ⟨(.onStart, o) :: works.map (.doWork, ·), by simp [attempts, List.flatMap_map]⟩

theorem Before.balanced (h : Before owner c events) : faultsOf events = reportsOf events := by
  obtain ⟨calls, rfl⟩ := h.exists_attempts
  exact (reportsOf_attempts calls).symm

theorem Life.balanced (h : Life owner events) : faultsOf events = reportsOf events := by
  obtain ⟨calls, o, rfl, -⟩ := h.exists_attempts
  exact (reportsOf_attempts _).symm

theorem reportsOf_reported (calls : List (Callback × Outcome)) (h : fault c o = some e) :
    reportsOf (attempts calls ++ [.began c, .ended c o, .reported e]) =
      faultsOf (attempts calls ++ [.began c, .ended c o, .reported e]) := by
  rw [reportsOf_append, faultsOf_append, reportsOf_attempts]
  congr 1
  show [e] = faultsOf ([.began c, .ended c o] ++ [.reported e])
  rw [faultsOf_append, faultsOf_failed h]
  rfl

theorem Cut.balanced (h : Cut owner events) : faultsOf events = reportsOf events := by
  have hunfolds : Unfolds owner events := .inr h
  obtain ⟨p, -, -⟩ := h
  obtain ⟨-, calls, c, o, e, ho, rfl⟩ := hunfolds.panicked rfl
  rw [faultsOf_append, reportsOf_append, reportsOf_reported calls ho]
  rfl

/-- The error on its way to the handler. -/
def passingOf : List Frame → List AgentError
  | .report e _ :: _ => [e]
  | _ => []

variable {running : Bool} {core stack stack' : List Frame} {cells cells' : Cells}
  {handler : Handler} {move : Move} {signals : List Signal} {layers : Nat}

/-- The faults are the reports made and the one on its way. -/
theorem Stands.ledger (h : Stands running owner events core) :
    faultsOf events = reportsOf events ++ passingOf core := by
  cases h with
  | bound | starting => rfl
  | @calling _ c _ h =>
    rw [faultsOf_append, reportsOf_append, h.balanced]
    exact (List.append_nil _).symm
  | @reporting _ c _ o e h ho layers =>
    rw [faultsOf_append, reportsOf_append, h.balanced, faultsOf_failed ho]
    rw [List.append_assoc]
    rfl
  | @handling _ c _ o e h ho =>
    obtain ⟨calls, rfl⟩ := h.exists_attempts
    rw [← reportsOf_reported calls ho]
    exact (List.append_nil _).symm
  | startFailed o =>
    rw [← reportsOf_attempt]
    exact (List.append_nil _).symm
  | looping h | stopped h | closing h =>
    rw [h.balanced]
    exact (List.append_nil _).symm
  | announcing h | releasing h =>
    rw [h.balanced]
    exact (List.append_nil _).symm
  | unwinding h =>
    rw [h.balanced]
    exact (List.append_nil _).symm
  | gone h =>
    rw [h.elim Life.balanced Cut.balanced]
    exact (List.append_nil _).symm

/-! ## Counters -/

theorem afterCallback_remaining
    (hs : afterCallback handler o.result [owner.caller c] = some stack) :
    remaining stack = if fault c o = none then .innermost else handler := by
  cases hr : o.result with
  | ok n =>
    rw [fault_of_ok hr, if_pos rfl]
    rw [hr] at hs
    cases c with
    | onStart | onClose => cases hs; rfl
    | doWork => cases n <;> (cases hs; rfl)
  | error e =>
    by_cases hquit : c = .doWork ∧ e = .cancelled
    · obtain ⟨rfl, rfl⟩ := hquit
      rw [fault_cancelled hr, if_pos rfl]
      rw [hr] at hs
      cases hs
      rfl
    · rw [fault_of_error hr hquit, if_neg (Option.some_ne_none e)]
      rw [hr] at hs
      cases c with
      | onStart | onClose => cases hs; rfl
      | doWork =>
        cases e with
        | cancelled => exact absurd ⟨rfl, rfl⟩ hquit
        | panicked | message | failed => cases hs; rfl

theorem afterReport_remaining {panic : Option Payload}
    (hs : afterReport panic [owner.reporter c] = some stack) : remaining stack = .innermost := by
  cases c <;> cases panic <;> (cases hs; rfl)

/-- The counters are those of a handler with so many layers, after as many reports as there were
faults; but for the layers that the error on its way has still to pass. -/
def Tallied (layers : Nat) (events : List Signal) (core : List Frame) (cells : Cells) : Prop :=
  (remaining core).bumps cells.counters = List.replicate layers (faultsOf events).length

theorem faultsOf_go {me : Nat}
    (hs : stepThread handler me cells stack .go = some (cells', stack', signals)) :
    faultsOf (signals.filter Signal.isEvent) = [] := by
  refine List.filterMap_eq_nil_iff.2 fun signal hmem => ?_
  have hshows := stepThread_shows hs ((List.mem_filter.1 hmem).1)
  cases signal with
  | ended => cases hshows
  | _ => rfl

/-- A step of the runner's own code. -/
theorem Tallied.go {me : Nat} (hstands : Stands running owner events core)
    (h : Tallied layers events core cells)
    (hs : stepThread handler me cells core .go = some (cells', stack, signals)) :
    Tallied layers (events ++ signals.filter Signal.isEvent) stack cells' := by
  unfold Tallied at h ⊢
  rw [faultsOf_append, faultsOf_go hs, List.append_nil, ← h]
  rcases hstands.go_cases hs with hcarries | ⟨panic, rfl, rfl, -, hcounters⟩
  · exact hcarries.bumps
  · exact hcounters

/-- A step on the owner's frames. A callback that fails sets out a report through all layers. -/
theorem Tallied.step {me : Nat}
    (hhandler : ∀ n, handler.bumps (List.replicate layers n) = List.replicate layers (n + 1))
    (hstands : Stands running owner events core) (h : Tallied layers events core cells)
    (hmove : ∀ call, move ≠ .call call)
    (hs : stepThread handler me cells core move = some (cells', stack, signals)) :
    Tallied layers (events ++ signals.filter Signal.isEvent) stack cells' := by
  cases move with
  | go => exact h.go hstands hs
  | call call => exact absurd rfl (hmove call)
  | finish o =>
    cases hstands with
    | @calling _ c events hbefore =>
      simp only [stepThread, Option.map_eq_some_iff] at hs
      obtain ⟨_, hafter, hs⟩ := hs
      cases hs
      have hcounters : cells.counters =
        List.replicate layers (faultsOf (events ++ [.began c])).length := h
      unfold Tallied
      rw [afterCallback_remaining hafter, faultsOf_append _ ([Signal.ended c o].filter _),
        show [Signal.ended c o].filter Signal.isEvent = [.ended c o] from rfl, faultsOf_ended,
        List.length_append, hcounters]
      cases fault c o with
      | none => rfl
      | some e => exact hhandler _
    | _ => cases hs
  | settle panic =>
    cases hstands with
    | @handling _ c events o e hbefore ho =>
      simp only [stepThread, Option.map_eq_some_iff] at hs
      obtain ⟨_, hafter, hs⟩ := hs
      cases hs
      unfold Tallied
      rw [afterReport_remaining hafter, faultsOf_append _ ([Signal.settled panic].filter _)]
      exact h.trans (by rw [List.length_append]; rfl)
    | _ => cases hs
  | stir => cases hstands.stir_eq_none.symm.trans hs

/-! ## All threads -/

variable {s s' : System} {t : Nat} {history : List (Nat × Signal)}
  {taker : Option (Owner × Nat)}

theorem System.handler_step (h : s.step t move = some (signals, s')) : s'.handler = s.handler := by
  simp only [System.step] at h
  split at h
  · simp only [bind, Option.bind_eq_some_iff, pure] at h
    obtain ⟨_, _, ⟨_, _, _⟩, _, h⟩ := h
    cases h
    rfl
  · cases h

/-- The counters of a runner that was taken as told. -/
def Counted (layers : Nat) (s : System) (history : List (Nat × Signal)) :
    Option (Owner × Nat) → Prop
  | none => s.cells.counters = List.replicate layers 0
  | some (_, thread) =>
    ∃ core, CoreAt s thread core ∧ Tallied layers (history.map (·.2)) core s.cells

/-- What holds of the handler of a runner after the events. -/
structure Counting (layers : Nat) (s : System) (history : List (Nat × Signal))
    (taker : Option (Owner × Nat)) : Prop where
  held : Held s history taker
  handler : ∀ n, s.handler.bumps (List.replicate layers n) = List.replicate layers (n + 1)
  counted : Counted layers s history taker

theorem counting_init (threads layers : Nat) : Counting layers (.init threads layers) [] none where
  held := held_init threads layers
  handler := Reporting.bumps_nested () layers
  counted := Reporting.counters_nested () layers

theorem Counted.step (h : Counting layers s history taker)
    (hs : s.step t move = some (signals, s')) :
    Counted layers s' (history ++ eventsOf (signals.map (t, ·)))
      (taker.or (taken t s.cells s'.cells)) := by
  obtain ⟨hheld, hhandler, hcounted⟩ := h
  cases htaker : taker.or (taken t s.cells s'.cells) with
  | none =>
    obtain ⟨rfl, -⟩ := Option.or_eq_none_iff.1 htaker
    obtain ⟨-, haccess, -⟩ := hheld.untaken_step hs
    exact haccess.counters_eq.trans hcounted
  | some taker' =>
    obtain ⟨owner, thread⟩ := taker'
    refine hheld.carry (fun cells events core => Tallied layers events core cells) hs
      ?_ ?_ ?_ ?_ htaker
    · rintro owner thread rfl
      exact hcounted
    · rintro rfl haccess owner
      cases owner <;> exact haccess.counters_eq.trans hcounted
    · intro owner core core' hstands htallied hmove hstep
      exact htallied.step hhandler hstands hmove hstep
    · intro core haccess htallied
      unfold Tallied
      rw [haccess.counters_eq]
      exact htallied

theorem Counting.step (h : Counting layers s history taker)
    (hs : s.step t move = some (signals, s')) :
    Counting layers s' (history ++ eventsOf (signals.map (t, ·)))
      (taker.or (taken t s.cells s'.cells)) where
  held := h.held.step hs
  handler := by
    rw [System.handler_step hs]
    exact h.handler
  counted := Counted.step h hs

/-- What is on the owner's stack besides a visit are its frames. -/
theorem mem_coreOf {f : Frame} (hf : f.isVisit = false) : f ∈ coreOf stack ↔ f ∈ stack := by
  simp [coreOf, hf]

/-- Where an error is on its way, it is on the owner's stack, on top of its frames. -/
theorem Held.report_at (h : Held s history taker) (hmem : stack ∈ s.frames) {layers : Handler}
    (hreport : .report e layers ∈ stack) :
    ∃ owner thread rest, taker = some (owner, thread) ∧
      CoreAt s thread (.report e layers :: rest) := by
  obtain ⟨u, hu⟩ := List.getElem?_of_mem hmem
  have hnot : ∀ {stack}, Over [] stack → .report e layers ∉ stack := by
    rintro stack (_ | hf) hreport
    · cases hreport
    · obtain rfl := List.mem_singleton.1 hreport
      cases hf
  cases taker with
  | none => exact absurd hreport (hnot (Untaken.based h.inv u stack hu))
  | some taker =>
    obtain ⟨owner, thread⟩ := taker
    obtain ⟨core, -, hstands, hbased, -, -, -⟩ := h.exists_core
    have hover : Over (if u = thread then core else []) stack := hbased u stack hu
    by_cases hthread : u = thread
    · subst hthread
      rw [if_pos rfl] at hover
      have hcore := hover.coreOf_eq hstands.coreOf_eq
      have hin : .report e layers ∈ core := by
        rw [← hcore]
        exact (mem_coreOf rfl).2 hreport
      refine ⟨owner, u, core.tail, rfl, stack, hu, ?_⟩
      rw [hcore]
      generalize history.map (·.2) = events at hstands
      cases hstands with
      | @reporting _ c =>
        rcases List.mem_cons.1 hin with heq | hbelow
        · rw [heq]
          rfl
        · cases c <;> cases List.mem_singleton.1 hbelow
      | @calling _ c | @handling _ c => cases c <;> simp [Owner.caller, Owner.reporter] at hin
      | _ => simp at hin
    · rw [if_neg hthread] at hover
      exact absurd hreport (hnot hover)

theorem Counting.owned (h : Counting layers s history taker)
    (htaker : taker = some (owner, thread)) :
    Unfolds owner (history.map (·.2)) ∧ ∃ core, CoreAt s thread core ∧
      faultsOf (history.map (·.2)) = reportsOf (history.map (·.2)) ++ passingOf core ∧
      Tallied layers (history.map (·.2)) core s.cells := by
  obtain ⟨hheld, -, hcounted⟩ := h
  subst htaker
  obtain ⟨core, stack, hstands, -, hstack, hover, -⟩ := hheld.exists_core
  obtain ⟨core', hat, htallied⟩ := hcounted
  obtain rfl := hat.unique ⟨stack, hstack, hover.coreOf_eq hstands.coreOf_eq⟩
  exact ⟨hstands.unfolds, core', hat, hstands.ledger, htallied⟩

/-- While an error is on its way. -/
theorem Counting.passing (h : Counting layers s history taker) (hmem : stack ∈ s.frames)
    {rest : Handler} (hreport : .report e rest ∈ stack) :
    faultsOf (history.map (·.2)) = reportsOf (history.map (·.2)) ++ [e] ∧
      rest.bumps s.cells.counters =
        List.replicate layers (faultsOf (history.map (·.2))).length := by
  obtain ⟨owner, thread, below, htaker, hat⟩ := h.held.report_at hmem hreport
  obtain ⟨-, core, hat', hledger, htallied⟩ := h.owned htaker
  obtain rfl := hat.unique hat'
  exact ⟨hledger, htallied⟩

/-- Between reports. -/
theorem Counting.settled (h : Counting layers s history taker)
    (hnone : ∀ stack ∈ s.frames, ∀ e rest, .report e rest ∉ stack) :
    faultsOf (history.map (·.2)) = reportsOf (history.map (·.2)) ∧
      s.cells.counters = List.replicate layers (reportsOf (history.map (·.2))).length := by
  cases taker with
  | none =>
    rw [Untaken.events h.held.inv]
    exact ⟨rfl, h.counted⟩
  | some taker =>
    obtain ⟨-, core, ⟨stack, hstack, hcore⟩, hledger, htallied⟩ := h.owned rfl
    have hidle : passingOf core = [] ∧ remaining core = .innermost := by
      cases core with
      | nil => exact ⟨rfl, rfl⟩
      | cons f rest =>
        cases f with
        | report e layers =>
          refine absurd ?_ (hnone stack (List.mem_of_getElem? hstack) e layers)
          rw [← mem_coreOf rfl, hcore]
          exact List.mem_cons_self ..
        | _ => exact ⟨rfl, rfl⟩
    rw [hidle.1, List.append_nil] at hledger
    refine ⟨hledger, ?_⟩
    rw [Tallied, hidle.2, hledger] at htallied
    exact htallied

/-- For every number of threads, whatever they do with a runner and however its callbacks and the
handler end. A callback is at fault if it panics, by the text of the panic, or fails, except that
work may ask to stop. While an error is on its way through the layers of the handler, the faults
are the reports made and this one, and the layers that it has passed have counted it; otherwise
the faults are the reports, in their order, and every layer has counted them all. Whatever comes
before a callback are whole attempts, each with the report of its fault. And a panic of the
handler is the last that happens, in the report of the last fault. -/
theorem fault_ledger (threads layers : Nat) {moves : List (Nat × Move)}
    {signals : List (Nat × Signal)}
    (hs : (System.init threads layers).steps moves = some (signals, s)) :
    let events := (eventsOf signals).map (·.2)
    (∀ c p, fault c (.panicked p) = some (.panicked p.message)) ∧
    (∀ c e, fault c (.error e) = if c = .doWork ∧ e = .cancelled then none else some e) ∧
    (∀ stack ∈ s.frames, ∀ e rest, .report e rest ∈ stack →
      faultsOf events = reportsOf events ++ [e] ∧
        rest.bumps s.cells.counters = List.replicate layers (faultsOf events).length) ∧
    ((∀ stack ∈ s.frames, ∀ e rest, .report e rest ∉ stack) →
      faultsOf events = reportsOf events ∧
        s.cells.counters = List.replicate layers (reportsOf events).length) ∧
    (∀ before c after, events = before ++ .began c :: after →
      ∃ calls, before = attempts calls ∧ reportsOf before = faultsOf before) ∧
    (∀ before p after, events = before ++ .settled (some p) :: after →
      after = [] ∧ reportsOf before = faultsOf before ∧
        ∃ front e, before = front ++ [.reported e]) := by
  intro events
  have hcounting := System.steps_carry Counting.step (counting_init threads layers) hs
  rw [List.nil_append, Option.none_or] at hcounting
  have hunfolds : events = [] ∨ ∃ owner, Unfolds owner events := by
    cases htaker : (System.init threads layers).owner moves with
    | none =>
      rw [htaker] at hcounting
      exact .inl (congrArg (List.map (·.2)) (Untaken.events hcounting.held.inv))
    | some taker => exact .inr ⟨taker.1, (hcounting.owned htaker).1⟩
  refine ⟨fun c p => ?_, fun c e => rfl, ?_, hcounting.settled, ?_, ?_⟩
  · exact fault_of_error rfl fun hboth => AgentError.noConfusion hboth.2
  · exact fun stack hmem e rest hreport => hcounting.passing hmem hreport
  · intro before c after hsplit
    rcases hunfolds with hnil | ⟨owner, hunfolds⟩
    · simp [hnil] at hsplit
    · obtain ⟨calls, rfl⟩ := hunfolds.exists_attempts hsplit
      exact ⟨calls, rfl, reportsOf_attempts calls⟩
  · intro before p after hsplit
    rcases hunfolds with hnil | ⟨owner, hunfolds⟩
    · simp [hnil] at hsplit
    · obtain ⟨rfl, calls, c, o, e, ho, rfl⟩ := hunfolds.panicked hsplit
      refine ⟨rfl, reportsOf_reported calls ho, attempts calls ++ [.began c, .ended c o], e, ?_⟩
      simp

/-- Work panics, then asks to stop; the close asks to stop, too, which is a fault, and the
handler panics. -/
theorem fault_ledger_of_two :
    let moves : List (Nat × Move) :=
      [(0, .call .run), (0, .go), (0, .go), (0, .go), (0, .finish (.ok 0)), (0, .go), (0, .go),
        (0, .finish (.panicked .other)), (0, .go), (0, .go), (0, .go), (0, .settle none), (0, .go),
        (0, .go), (0, .go), (0, .finish (.error .cancelled)), (0, .go), (0, .go), (0, .go),
        (0, .go), (0, .finish (.error .cancelled)), (0, .go), (0, .go), (0, .go),
        (0, .settle (some .other))]
    ∃ signals s, (System.init 1 2).steps moves = some (signals, s) ∧
      reportsOf ((eventsOf signals).map (·.2)) =
        [.panicked "non-string panic payload", .cancelled] ∧
      faultsOf ((eventsOf signals).map (·.2)) = reportsOf ((eventsOf signals).map (·.2)) ∧
      s.cells.counters = [2, 2] := by
  intro moves
  have hend : ((System.init 1 2).steps moves).map (fun r =>
      (r.2.frames, reportsOf ((eventsOf r.1).map (·.2)))) =
      some ([[.release .run .storeClosed (some .other)]],
        [.panicked "non-string panic payload", .cancelled]) := by decide +kernel
  obtain ⟨⟨signals, s⟩, hs, hend⟩ := Option.map_eq_some_iff.1 hend
  simp only [Prod.mk.injEq] at hend
  obtain ⟨hframes, hreports⟩ := hend
  obtain ⟨-, -, -, hsettled, -, -⟩ := fault_ledger 1 2 hs
  obtain ⟨hledger, hcounters⟩ := hsettled (by simp [hframes])
  refine ⟨signals, s, hs, hreports, hledger, ?_⟩
  rw [hcounters, hreports]
  rfl

end RingTransport.Runner
