/-
  The state of a runner never goes back. Each access raises or lowers a cell for good, and the
  steps of a run add up (`Onward`). What the accessors answer follows: a thread is reported only
  once the thread that runs the runner has stored its handle, whether the binding was taken out
  before that or not, and a runner that was told to stop is not seen running again, except by a
  call that had loaded the flag before. Main fact: `never_goes_back`.
-/
import RingTransport.Proofs.Runner.Accesses
import RingTransport.Proofs.Runner.Closing

namespace RingTransport.Runner

/-! ## The order of states -/

/-- How far a binding has come. -/
def Tag.rank : Tag → Nat
  | .unbound => 0
  | .bound => 1
  | .closed => 2

/-- The cells of a runner at two instants, the second not before the first. -/
structure Onward (c c' : Cells) : Prop where
  running : c'.running = true → c.running = true
  closed : c.closed = true → c'.closed = true
  cancelled : c.cancelled = true → c'.cancelled = true
  done : c.latch.done = true → c'.latch.done = true
  tag : c.tag.rank ≤ c'.tag.rank
  /-- A handle that is stored stays. -/
  handle : ∀ t, c.handle = some t → c'.handle = some t

variable {c c' c'' : Cells} {me t u : Nat} {core stack stack' : List Frame}
  {signals : List Signal} {handler : Handler} {move : Move}

theorem Onward.refl (c : Cells) : Onward c c :=
  ⟨id, id, id, id, Nat.le_refl _, fun _ => id⟩

theorem Onward.trans (h : Onward c c') (h' : Onward c' c'') : Onward c c'' where
  running := fun hup => h.running (h'.running hup)
  closed := fun hup => h'.closed (h.closed hup)
  cancelled := fun hup => h'.cancelled (h.cancelled hup)
  done := fun hup => h'.done (h.done hup)
  tag := Nat.le_trans h.tag h'.tag
  handle := fun t ht => h'.handle t (h.handle t ht)

theorem Tag.rank_le_closed (tag : Tag) : tag.rank ≤ Tag.closed.rank := by
  cases tag <;> decide

theorem Access.onward (h : Access me c c') : Onward c c' := by
  have hc := Onward.refl c
  cases h with
  | reads => exact hc
  | binds htag =>
    refine { hc with tag := ?_ }
    rw [htag]
    exact Nat.zero_le _
  | names =>
    refine { hc with handle := fun t ht => ?_ }
    show c.handle.or (some me) = some t
    rw [ht]
    rfl
  | stops => exact { hc with running := fun hup => Bool.noConfusion hup }
  | cancels => exact { hc with cancelled := fun _ => rfl }
  | swaps => exact { hc with tag := c.tag.rank_le_closed }
  | closes => exact { hc with closed := fun _ => rfl }
  | opens => exact { hc with done := fun _ => rfl }
  | locks | unlocks | sleeps | wakes | stirs =>
    exact ⟨hc.running, hc.closed, hc.cancelled, hc.done, hc.tag, hc.handle⟩

theorem stepThread_onward (hs : stepThread handler me c stack move = some (c', stack', signals)) :
    Onward c c' := by
  rcases stepThread_access hs with haccess | ⟨e, i, inner, rest, -, rfl⟩
  · exact haccess.onward
  · have hc := Onward.refl c
    exact ⟨hc.running, hc.closed, hc.cancelled, hc.done, hc.tag, hc.handle⟩

variable {s s' : System} {shown : List (Nat × Signal)} {moves : List (Nat × Move)}
  {history : List (Nat × Signal)} {taker : Option (Owner × Nat)}

theorem System.step_onward (hs : s.step t move = some (signals, s')) :
    Onward s.cells s'.cells := by
  obtain ⟨_, _, _, _, _, hstep⟩ := System.step_frames hs
  exact stepThread_onward hstep

theorem System.steps_onward (hs : s.steps moves = some (shown, s')) :
    Onward s.cells s'.cells := by
  induction moves generalizing s shown with
  | nil =>
    cases hs
    exact .refl _
  | cons move moves ih =>
    obtain ⟨first, s₁, later, hfirst, hlater, -⟩ := System.steps_cons hs
    exact (System.step_onward hfirst).trans (ih hlater)

/-! ## One state -/

theorem Held.closed_of_done (h : Held s history taker) (hdone : s.cells.latch.done = true) :
    s.cells.closed = true := by
  cases taker with
  | none => exact Bool.noConfusion (h.marked.2.2.symm.trans hdone)
  | some taker =>
    obtain ⟨core, -, -, -, -, -, hplaced⟩ := h.exists_core
    rw [hplaced.closed]
    exact Runner.closed_of_done (hplaced.done.symm.trans hdone)

theorem Held.tag_of_closed (h : Held s history taker) (hclosed : s.cells.closed = true) :
    s.cells.tag ≠ .unbound := by
  obtain ⟨owner, thread, rfl⟩ := h.taken_of_closed hclosed
  exact TakenBy.tag h.inv

/-- Only the thread that runs the runner stores a handle, its own. -/
theorem Held.taker_of_handle (h : Held s history taker) (hhandle : s.cells.handle = some t) :
    taker = some (.run, t) := by
  cases taker with
  | none => cases h.marked.1.symm.trans hhandle
  | some taker =>
    obtain ⟨owner, thread⟩ := taker
    obtain ⟨core, -, -, -, -, -, hplaced⟩ := h.exists_core
    rw [hplaced.handle] at hhandle
    split at hhandle
    · next hrun => rw [hrun.1, Option.some.inj hhandle]
    · cases hhandle

/-! ## Reported threads -/

/-- The thread that an answer reports. -/
def Observation.thread? : Observation → Option Nat
  | .bound t => some t
  | .thread t => t
  | _ => none

theorem Answers.handle_eq {stage : ObserveStage} {o : Observation} (h : Answers c stage o)
    (ho : o.thread? = some t) : c.handle = some t := by
  cases h with
  | bound hhandle => exact hhandle.trans ho
  | named hhandle => exact hhandle.trans ho
  | thread => exact ho
  | _ => cases ho

/-- A thread that is reported at any time runs the runner. -/
theorem Held.taker_of_reported (h : Held s history taker)
    (hs : s.steps moves = some (shown, s')) {o : Observation} (hmem : (u, .observed o) ∈ shown)
    (ho : o.thread? = some t) : taker.or (s.owner moves) = some (.run, t) := by
  obtain ⟨before, move, after, done, s₁, first, s₂, rfl, hbefore, hstep, hsignal, -⟩ :=
    System.exists_step hs hmem
  obtain ⟨stack, _, _, _, _, hthread⟩ := System.step_frames hstep
  have hshows := stepThread_shows hthread hsignal
  cases hshows with
  | answers hanswers =>
    have htaker := (h.steps hbefore).taker_of_handle (hanswers.handle_eq ho)
    rw [System.owner_append hbefore, ← Option.or_assoc, htaker]
    rfl

/-! ## A runner that was told to stop -/

theorem stepObserve_loaded {stage : ObserveStage} {below : List Frame}
    (hcore : core ≠ .observe .loadNotClosed :: below)
    (hs : stepObserve c core stage = some (c', .observe .loadNotClosed :: below, signals)) :
    c.running = true := by
  cases stage with
  | loadRunning =>
    simp only [stepObserve] at hs
    split at hs
    · assumption
    · simp only [Option.some.injEq, Prod.mk.injEq] at hs
      exact absurd hs.2.1 hcore
  | loadTag | awaitHandle =>
    simp only [stepObserve] at hs
    split at hs
    all_goals
      simp only [Option.some.injEq, Prod.mk.injEq, List.cons.injEq] at hs
      first
        | exact absurd hs.2.1 hcore
        | cases hs.2.1.1
  | _ =>
    simp only [stepObserve, Option.some.injEq, Prod.mk.injEq] at hs
    exact absurd hs.2.1 hcore

/-- Behind the load of the flag a thread comes only by finding the flag up. -/
theorem Over.loaded_step {below : List Frame} (hover : Over core stack)
    (hcore : core = [] ∨ ∃ owner events, Stands c.running owner events core)
    (hs : stepThread handler me c stack move =
      some (c', .observe .loadNotClosed :: below, signals)) : c.running = true := by
  rcases hover.visit_before hcore rfl hs with ⟨call, hframe⟩ | ⟨f, hf, rfl⟩
  · cases call <;> cases hframe
  rcases visit_cases hf hs with ⟨stage, rfl, hclose⟩ | ⟨hother, rfl⟩
  · rcases hclose.stack_cases with hstack | ⟨later, hstack⟩ | hstack
    · exact absurd hstack (List.cons_ne_self _ _)
    · cases hstack
    · cases hstack
  cases f with
  | close stage => exact absurd rfl (hother stage)
  | run stage =>
    cases stage with
    | bind =>
      simp only [stepThread, stepRun] at hs
      split at hs <;> cases hs
    | _ => cases hf
  | cancel stage => cases stage <;> cases hs
  | observe stage => exact stepObserve_loaded (Ne.symm (List.cons_ne_self _ _)) hs
  | _ => cases hf

/-- The call of a thread has found the flag up, and is to see next whether the runner is
closed. -/
def HasLoaded (u : Nat) (s : System) : Prop :=
  ∃ below, s.frames[u]? = some (.observe .loadNotClosed :: below)

theorem Held.loaded_step (h : Held s history taker) (hdown : s.cells.running = false)
    (hs : s.step t move = some (signals, s')) (hloaded : HasLoaded u s') :
    u ≠ t ∧ HasLoaded u s := by
  obtain ⟨below, hframe⟩ := hloaded
  obtain ⟨stack, stack', hstack, hself, hothers, hstep⟩ := System.step_frames hs
  by_cases hu : u = t
  · subst hu
    obtain rfl := Option.some.inj (hself.symm.trans hframe)
    obtain ⟨core, hover, hcore⟩ := h.inv.exists_base hstack
    have hup := hover.loaded_step hcore hstep
    cases hdown.symm.trans hup
  · exact ⟨hu, below, (hothers u hu).symm.trans hframe⟩

theorem Answers.running_true {stage : ObserveStage} {o : Observation} (h : Answers c stage o)
    (ho : o = .running true) : stage = .loadNotClosed ∧ c.closed = false := by
  cases h with
  | stopped => cases ho
  | running =>
    refine ⟨rfl, ?_⟩
    cases hclosed : c.closed with
    | false => rfl
    | true => rw [hclosed] at ho; cases ho
  | _ => cases ho

/-- A call that sees the runner running has loaded the flag, and its answer is all that the step
shows. -/
theorem stepThread_running (hs : stepThread handler me c stack move = some (c', stack', signals))
    (hmem : Signal.observed (.running true) ∈ signals) :
    (∃ below, stack = .observe .loadNotClosed :: below) ∧
      signals = [.observed (.running true)] ∧ c.closed = false := by
  have hshows := stepThread_shows hs hmem
  cases hshows with
  | answers hanswers =>
    obtain ⟨rfl, hopen⟩ := hanswers.running_true rfl
    cases hs
    rw [hopen]
    exact ⟨⟨_, rfl⟩, rfl, rfl⟩

/-- Once the flag is down, a call that sees the runner running had loaded the flag before, and
the answer is the next that its thread shows. -/
theorem Held.late_answer (h : Held s history taker) (hdown : s.cells.running = false)
    (hs : s.steps moves = some (shown, s')) {done rest : List (Nat × Signal)}
    (hsplit : shown = done ++ (u, .observed (.running true)) :: rest) :
    HasLoaded u s ∧ ∀ signal, (u, signal) ∉ done := by
  induction moves generalizing s history taker shown done with
  | nil =>
    cases hs
    exact absurd hsplit (by simp)
  | cons move moves ih =>
    obtain ⟨t, move⟩ := move
    obtain ⟨first, s₁, later, hfirst, hlater, rfl⟩ := System.steps_cons hs
    have hdown₁ : s₁.cells.running = false := Bool.eq_false_iff.2 fun hup =>
      absurd ((System.step_onward hfirst).running hup) (Bool.eq_false_iff.1 hdown)
    have hlate : ∀ {done'}, later = done' ++ (u, .observed (.running true)) :: rest →
        HasLoaded u s ∧ ∀ signal, (u, signal) ∉ first.map (t, ·) ++ done' := by
      intro done' hrest
      obtain ⟨hloaded, hquiet⟩ := ih (h.step hfirst) hdown₁ hlater hrest
      obtain ⟨hu, hbefore⟩ := h.loaded_step hdown hfirst hloaded
      refine ⟨hbefore, fun signal hmem => ?_⟩
      rcases List.mem_append.1 hmem with hnow | hlate
      · obtain ⟨_, -, heq⟩ := List.mem_map.1 hnow
        exact hu (Prod.mk.inj heq).1.symm
      · exact hquiet signal hlate
    rcases List.append_eq_append_iff.1 hsplit with ⟨done', rfl, hrest⟩ | ⟨part, hnow, hrest⟩
    · exact hlate hrest
    · cases part with
      | nil =>
        rw [List.append_nil] at hnow
        rw [← hnow, ← List.append_nil (first.map (t, ·))]
        exact hlate hrest.symm
      | cons e part =>
        -- the first step answers, and shows nothing else
        obtain ⟨rfl, -⟩ := List.cons.inj hrest
        have hmem : (u, Signal.observed (.running true)) ∈ first.map (t, ·) := by
          rw [hnow]
          exact List.mem_append_right _ (List.mem_cons_self ..)
        obtain ⟨signal, hsignal, heq⟩ := List.mem_map.1 hmem
        obtain ⟨rfl, rfl⟩ := Prod.mk.inj heq
        obtain ⟨stack, _, hstack, _, _, hstep⟩ := System.step_frames hfirst
        obtain ⟨⟨below, rfl⟩, rfl, -⟩ := stepThread_running hstep hsignal
        refine ⟨⟨below, hstack⟩, fun signal hdone => ?_⟩
        have hlength := congrArg List.length hnow
        simp only [List.length_map, List.length_append, List.length_cons, List.length_nil] at hlength
        obtain rfl := List.eq_nil_of_length_eq_zero (l := done) (by omega)
        cases hdone

/-- What follows when a close stores its flag. -/
theorem Held.stopped (h : Held s history taker) {below : List Frame}
    (hstack : s.frames[t]? = some (.close .storeStopped :: below))
    (hs : s.steps ((t, .go) :: moves) = some (shown, s')) :
    s'.cells.running = false ∧ ∀ u done rest,
      shown = done ++ (u, .observed (.running true)) :: rest →
        HasLoaded u s ∧ ∀ signal, (u, signal) ∉ done := by
  obtain ⟨first, s₁, later, hfirst, hlater, rfl⟩ := System.steps_cons hs
  obtain ⟨stack, stack', hstack₀, hself, hothers, hstep⟩ := System.step_frames hfirst
  obtain rfl : stack = .close .storeStopped :: below :=
    Option.some.inj (hstack₀.symm.trans hstack)
  have hdown : s₁.cells.running = false ∧ stack' = .close .swap :: below ∧ first = [] := by
    generalize s₁.cells = c₁ at hstep ⊢
    cases stepThread_close_iff.1 hstep
    exact ⟨rfl, rfl, rfl⟩
  obtain ⟨hdown, rfl, rfl⟩ := hdown
  refine ⟨Bool.eq_false_iff.2 fun hup => ?_, fun u done rest hsplit => ?_⟩
  · exact Bool.eq_false_iff.1 hdown ((System.steps_onward hlater).running hup)
  · obtain ⟨⟨below', hframe⟩, hquiet⟩ := (h.step hfirst).late_answer hdown hlater hsplit
    have hu : u ≠ t := by
      rintro rfl
      cases hself.symm.trans hframe
    exact ⟨⟨below', (hothers u hu).symm.trans hframe⟩, hquiet⟩

/-! ## All runs -/

/-- In every state that any number of threads can bring a runner to:
the latch is open only if the runner is closed, and the runner is closed only if it was taken;
no later state goes back: the runner is not started again, not opened again and not revived, its
binding goes from unbound to bound to closed at most, and its handle is stored once;
when a close has stored its flag, the runner is not running again, and no call sees it running,
unless it had loaded the flag before;
and every thread that any observing call has reported is the one whose run took the runner, on
which all its callbacks are called; a runner that was closed before reports none. -/
theorem never_goes_back (threads layers : Nat) {moves : List (Nat × Move)}
    {signals : List (Nat × Signal)}
    (hs : (System.init threads layers).steps moves = some (signals, s)) :
    (s.cells.latch.done = true → s.cells.closed = true) ∧
    (s.cells.closed = true → s.cells.tag ≠ .unbound) ∧
    (∀ moves shown s', s.steps moves = some (shown, s') → Onward s.cells s'.cells) ∧
    (∀ t below, s.frames[t]? = some (.close .storeStopped :: below) →
      ∀ moves shown s', s.steps ((t, .go) :: moves) = some (shown, s') →
        s'.cells.snapshot.running = false ∧ ∀ u done rest,
          shown = done ++ (u, .observed (.running true)) :: rest →
            HasLoaded u s ∧ ∀ signal, (u, signal) ∉ done) ∧
    (∀ u o t, (u, .observed o) ∈ signals → o.thread? = some t →
      (System.init threads layers).owner moves = some (.run, t) ∧
        ∀ e ∈ eventsOf signals, e.1 = t) ∧
    (∀ t, (System.init threads layers).owner moves = some (.close, t) →
      ∀ u o, (u, .observed o) ∈ signals → o.thread? = none) := by
  have hinit := held_init threads layers
  have hheld := hinit.steps hs
  rw [List.nil_append, Option.none_or] at hheld
  have hreported : ∀ u o t, (u, .observed o) ∈ signals → o.thread? = some t →
      (System.init threads layers).owner moves = some (.run, t) := fun u o t hmem ho => by
    have htaker := hinit.taker_of_reported hs hmem ho
    rwa [Option.none_or] at htaker
  refine ⟨hheld.closed_of_done, hheld.tag_of_closed, ?_, ?_, ?_, ?_⟩
  · exact fun moves shown s' hs' => System.steps_onward hs'
  · intro t below hstack moves shown s' hs'
    obtain ⟨hdown, hanswers⟩ := hheld.stopped hstack hs'
    refine ⟨?_, hanswers⟩
    show (s'.cells.running && !s'.cells.closed) = false
    rw [hdown, Bool.false_and]
  · intro u o t hmem ho
    have htaker := hreported u o t hmem ho
    rw [htaker] at hheld
    exact ⟨htaker, TakenBy.alone hheld.inv⟩
  · intro t htaker u o hmem
    refine Option.eq_none_iff_forall_ne_some.2 fun worker ho => ?_
    cases htaker.symm.trans (hreported u o worker hmem ho)

/-- A runner is closed when its thread has not stored its handle yet. One call sees it running,
late; another, which asks for the thread, waits and is told after the binding was taken out. -/
theorem never_goes_back_before_handle :
    let moves : List (Nat × Move) :=
      [(0, .call .run), (0, .go), (2, .call .thread), (2, .go), (3, .call .isRunning), (3, .go),
        (1, .call .close)]
    let later : List (Nat × Move) :=
      [(1, .go), (3, .go), (2, .go), (0, .go), (2, .go), (3, .call .isRunning), (3, .go)]
    ∃ signals s shown s', (System.init 4 0).steps moves = some (signals, s) ∧
      s.steps ((1, .go) :: later) = some (shown, s') ∧
      shown = [(3, .observed (.running true)), (0, .notice .starting),
        (2, .observed (.thread (some 0))), (3, .called .isRunning),
        (3, .observed (.running false))] ∧
      HasLoaded 3 s ∧ s'.cells.snapshot.running = false ∧ Onward s.cells s'.cells ∧
      (System.init 4 0).owner (moves ++ (1, .go) :: later) = some (.run, 0) := by
  intro moves later
  have hrun : (((System.init 4 0).steps moves).bind fun r =>
      (r.2.steps ((1, .go) :: later)).map fun r' => (r.2.frames[1]?, r'.1)) =
      some (some [.close .storeStopped], [(3, .observed (.running true)), (0, .notice .starting),
        (2, .observed (.thread (some 0))), (3, .called .isRunning),
        (3, .observed (.running false))]) := by decide +kernel
  obtain ⟨⟨signals, s⟩, hs, hrun⟩ := Option.bind_eq_some_iff.1 hrun
  obtain ⟨⟨shown, s'⟩, hs', hrun⟩ := Option.map_eq_some_iff.1 hrun
  simp only [Prod.mk.injEq] at hrun
  obtain ⟨hstack, hshown⟩ := hrun
  obtain ⟨-, -, honward, hstopped, -, -⟩ := never_goes_back 4 0 hs
  obtain ⟨hdown, hanswers⟩ := hstopped 1 [] hstack later shown s' hs'
  have hwhole := System.steps_append hs hs'
  obtain ⟨-, -, -, -, hreported, -⟩ := never_goes_back 4 0 hwhole
  have hthread : (2, Signal.observed (.thread (some 0))) ∈ signals ++ shown := by
    refine List.mem_append_right _ ?_
    rw [hshown]
    decide
  exact ⟨signals, s, shown, s', hs, hs', hshown, (hanswers 3 [] _ hshown).1, hdown,
    honward _ _ _ hs', (hreported 2 _ 0 hthread rfl).1⟩

end RingTransport.Runner
