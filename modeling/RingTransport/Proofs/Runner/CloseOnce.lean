/-
  How often `onClose` is called in the life of a runner. Three calls may owe it: the one that
  runs the runner, a close before any run, and the drop. Main fact: once a runner was dropped
  and all is over, it is marked closed, and `onClose` has begun exactly once; except when the
  handler panicked while the failure of a start or of work was reported to it, in which case
  it has not begun at all (`onClose_once`).
-/
import RingTransport.Proofs.Runner.Marks

namespace RingTransport.Runner

/-! ## Attempts -/

/-- The events of callbacks one after the other. -/
def attempts (calls : List (Callback × Outcome)) : List Signal :=
  calls.flatMap fun call => attempt call.1 call.2

theorem attempts_cons (c : Callback) (o : Outcome) (calls : List (Callback × Outcome)) :
    attempts ((c, o) :: calls) = attempt c o ++ attempts calls :=
  rfl

theorem count_onClose_attempts {calls : List (Callback × Outcome)}
    (h : ∀ call ∈ calls, call.1 ≠ .onClose) : (attempts calls).count (.began .onClose) = 0 := by
  induction calls with
  | nil => rfl
  | cons call calls ih =>
    have hfirst := count_began_attempt .onClose call.1 call.2
    rw [if_neg (h call (List.mem_cons_self ..))] at hfirst
    rw [attempts_cons, List.count_append, hfirst,
      ih fun call hmem => h call (List.mem_cons_of_mem _ hmem)]

/-- In a callback and its report, the handler does not panic. -/
theorem settled_some_not_mem_attempts (calls : List (Callback × Outcome)) (p : Payload) :
    Signal.settled (some p) ∉ attempts calls := by
  intro hmem
  obtain ⟨call, -, hmem⟩ := List.mem_flatMap.1 hmem
  unfold attempt at hmem
  split at hmem <;> simp at hmem

/-- What happens in a list of attempts happens in one of them. -/
theorem attempts_part {calls : List (Callback × Outcome)} {before : List Signal} {x : Signal}
    (h : before ++ [x] <+: attempts calls) :
    ∃ done c o later part, calls = done ++ (c, o) :: later ∧ before = attempts done ++ part ∧
      part ++ [x] <+: attempt c o := by
  induction calls generalizing before with
  | nil =>
    rw [show attempts [] = [] from rfl, List.prefix_nil] at h
    exact absurd h (by simp)
  | cons call calls ih =>
    obtain ⟨c, o⟩ := call
    rw [attempts_cons] at h
    rcases List.prefix_or_prefix_of_prefix h (List.prefix_append ..) with hfirst | hwhole
    · exact ⟨[], c, o, calls, before, rfl, rfl, hfirst⟩
    · rcases List.prefix_concat_iff.1 hwhole with heq | ⟨before', rfl⟩
      · exact ⟨[], c, o, calls, before, rfl, rfl, [], by rw [heq, List.append_nil]⟩
      · -- the first attempt is over, so it happens in a later one
        rw [List.append_assoc, List.prefix_append_right_inj] at h
        obtain ⟨done, c', o', later, part, rfl, rfl, hpart⟩ := ih h
        refine ⟨(c, o) :: done, c', o', later, part, rfl, ?_, hpart⟩
        rw [attempts_cons, List.append_assoc]

/-- A call of the handler that returns is the end of an attempt that failed. -/
theorem attempts_split {calls : List (Callback × Outcome)} {before : List Signal}
    (h : before ++ [.settled none] <+: attempts calls) :
    ∃ done c o e later, calls = done ++ (c, o) :: later ∧ fault c o = some e ∧
      before = attempts done ++ [.began c, .ended c o, .reported e] := by
  obtain ⟨done, c, o, later, part, rfl, rfl, hpart⟩ := attempts_part h
  cases ho : fault c o with
  | none =>
    rw [attempt_of_none ho] at hpart
    have hmem := hpart.subset (List.mem_append_right _ (List.mem_singleton_self _))
    simp at hmem
  | some e =>
    refine ⟨done, c, o, e, later, rfl, ho, ?_⟩
    rw [attempt_of_some ho] at hpart
    have hends : part ++ [.settled none] <+:
      [.began c, .ended c o, .reported e] ++ [.settled none] := hpart
    rcases List.prefix_concat_iff.1 hends with heq | hshort
    · rw [(List.append_inj' heq rfl).1]
    · have hmem := hshort.subset (List.mem_append_right _ (List.mem_singleton_self _))
      simp at hmem

/-! ## Lives -/

variable {owner : Owner} {events : List Signal}

/-- In a whole life `onClose` is the last callback, and only the last. -/
theorem Life.exists_attempts (h : Life owner events) :
    ∃ calls o, events = attempts (calls ++ [(.onClose, o)]) ∧
      ∀ call ∈ calls, call.1 ≠ .onClose := by
  cases h with
  | run start close works =>
    refine ⟨(.onStart, start) :: works.map (.doWork, ·), close, ?_, ?_⟩
    · simp [attempts, List.flatMap_map]
    · intro call hmem
      rcases List.mem_cons.1 hmem with rfl | hwork
      · exact Callback.noConfusion
      · obtain ⟨o, -, rfl⟩ := List.mem_map.1 hwork
        exact Callback.noConfusion
  | close o => exact ⟨[], o, by simp [attempts], nofun⟩

/-- The handler panicked while the failure of a start or of work was reported to it. -/
def ReportPanicked (events : List Signal) : Prop :=
  ∃ c o e p, c ≠ .onClose ∧ [.ended c o, .reported e, .settled (some p)] <:+: events

theorem Life.count_onClose (h : Life owner events) : events.count (.began .onClose) = 1 := by
  obtain ⟨calls, o, rfl, hcalls⟩ := h.exists_attempts
  have hlast := count_began_attempt .onClose .onClose o
  rw [if_pos rfl] at hlast
  simp only [attempts, List.flatMap_append, List.flatMap_singleton, List.count_append, hlast]
  rw [show (calls.flatMap fun call => attempt call.1 call.2) = attempts calls from rfl,
    count_onClose_attempts hcalls]

theorem Life.not_reportPanicked (h : Life owner events) : ¬ ReportPanicked events := by
  rintro ⟨c, o, e, p, -, hpart⟩
  obtain ⟨calls, o, rfl, -⟩ := h.exists_attempts
  exact settled_some_not_mem_attempts _ p (hpart.mem (by simp))

/-- What a panic of the handler has left of a life. -/
theorem Cut.exists_attempts (h : Cut owner events) :
    ∃ calls c o e p, events = attempts calls ++ [.began c, .ended c o, .reported e,
      .settled (some p)] ∧ ∀ call ∈ calls, call.1 ≠ .onClose := by
  obtain ⟨p, hlife, hbefore⟩ := h
  obtain ⟨calls, last, rfl, hcalls⟩ := hlife.exists_attempts
  obtain ⟨done, c, o, e, later, hsplit, -, rfl⟩ := attempts_split hbefore
  refine ⟨done, c, o, e, p, by simp, fun call hmem => hcalls call ?_⟩
  -- the call that was cut short is still to come, so `done` ends before the last one
  have hdone : done <+: calls ++ [(.onClose, last)] := ⟨_, hsplit.symm⟩
  have hends : done <+: calls := by
    refine (List.prefix_concat_iff.1 hdone).resolve_left fun heq => ?_
    rw [heq, List.self_eq_append_right] at hsplit
    exact List.cons_ne_nil _ _ hsplit
  exact hends.subset hmem

/-- A panic of the handler is the last that happened, in the report of the last callback. -/
theorem callback_eq_of_part {calls : List (Callback × Outcome)} {c c' : Callback}
    {o o' : Outcome} {e e' : AgentError} {p p' : Payload}
    (h : [.ended c' o', .reported e', .settled (some p')] <:+:
      attempts calls ++ [.began c, .ended c o, .reported e, .settled (some p)]) : c' = c := by
  obtain ⟨front, back, heq⟩ := h
  rcases List.eq_nil_or_concat back with rfl | ⟨back, last, rfl⟩
  · have hends : front ++ [.ended c' o', .reported e', .settled (some p')] =
        (attempts calls ++ [.began c]) ++ [.ended c o, .reported e, .settled (some p)] := by
      simpa using heq
    have hlast := (List.append_inj' hends rfl).2
    simp only [List.cons.injEq, Signal.ended.injEq] at hlast
    exact hlast.1.1
  · have hends : (front ++ [.ended c' o', .reported e', .settled (some p')] ++ back) ++ [last] =
        (attempts calls ++ [.began c, .ended c o, .reported e]) ++ [.settled (some p)] := by
      simpa using heq
    have hrest := (List.append_inj' hends rfl).1
    have hmem : Signal.settled (some p') ∈
        attempts calls ++ [.began c, .ended c o, .reported e] := by
      rw [← hrest]
      simp
    rcases List.mem_append.1 hmem with hattempts | hreport
    · exact absurd hattempts (settled_some_not_mem_attempts calls p')
    · simp at hreport

theorem Cut.count_onClose (h : Cut owner events) :
    (ReportPanicked events → events.count (.began .onClose) = 0) ∧
      (¬ ReportPanicked events → events.count (.began .onClose) = 1) := by
  obtain ⟨calls, c, o, e, p, rfl, hcalls⟩ := h.exists_attempts
  have hcount := count_onClose_attempts hcalls
  rw [List.count_append, hcount]
  constructor
  · rintro ⟨c', o', e', p', hc', hpart⟩
    rw [callback_eq_of_part hpart] at hc'
    simp [hc']
  · intro hnot
    have hc : c = .onClose := Classical.byContradiction fun hc =>
      hnot ⟨c, o, e, p, hc, attempts calls ++ [.began c], [], by simp⟩
    simp [hc]

/-! ## The drop -/

/-- A thread is letting go of the runner, and the runner may not be taken yet. -/
def isDropping : List Frame → Bool
  | .close .storeStopped :: _ | .close .swap :: _ => true
  | _ => false

/-- A runner that was dropped is taken, or about to be. -/
def Leaving (s : System) (taker : Option (Owner × Nat)) : Prop :=
  s.dropped = true → taker = none →
    ∃ (t : Nat) (stack : List Frame), s.frames[t]? = some stack ∧ isDropping stack = true

variable {s s' : System} {t : Nat} {move : Move} {signals : List Signal}
  {history : List (Nat × Signal)} {taker : Option (Owner × Nat)}

theorem System.dropped_step (h : s.step t move = some (signals, s')) :
    s'.dropped = (s.dropped || move == .call .drop) := by
  simp only [System.step] at h
  split at h
  · simp only [bind, Option.bind_eq_some_iff, pure] at h
    obtain ⟨_, _, ⟨_, _, _⟩, _, h⟩ := h
    cases h
    rfl
  · cases h

/-- The step of a thread that is letting go of a runner nobody has taken. -/
theorem isDropping_step {handler : Handler} {c c' : Cells} {stack stack' : List Frame}
    (hdropping : isDropping stack = true) (htag : c.tag = .unbound)
    (hs : stepThread handler t c stack move = some (c', stack', signals)) :
    isDropping stack' = true ∨ c'.tag = .closed := by
  unfold isDropping at hdropping
  split at hdropping
  · cases stepThread_close_iff.1 hs
    exact .inl rfl
  · obtain ⟨rfl, -⟩ := (stepThread_close_iff.1 hs).of_unbound htag
    exact .inr rfl
  · cases hdropping

theorem Leaving.step (hinv : Inv s history taker) (h : Leaving s taker)
    (hs : s.step t move = some (signals, s')) :
    Leaving s' (taker.or (taken t s.cells s'.cells)) := by
  intro hdropped htaker
  obtain ⟨rfl, htaken⟩ := Option.or_eq_none_iff.1 htaker
  have huntaken : Untaken s history := hinv
  obtain ⟨stack, stack', hstack, hself, hothers, hstep⟩ := System.step_frames hs
  rw [System.dropped_step hs, Bool.or_eq_true] at hdropped
  rcases hdropped with hbefore | hdrop
  · obtain ⟨u, other, hother, hdropping⟩ := h hbefore rfl
    by_cases hu : u = t
    · subst hu
      obtain rfl : stack = other := Option.some.inj (hstack.symm.trans hother)
      refine ⟨u, stack', hself, (isDropping_step hdropping huntaken.tag hstep).resolve_right ?_⟩
      intro htag
      have hclose : taken u s.cells s'.cells = some (.close, u) := taken_of_tag huntaken.tag htag
      rw [hclose] at htaken
      cases htaken
    · exact ⟨u, other, (hothers u hu).trans hother, hdropping⟩
  · obtain rfl : move = .call .drop := eq_of_beq hdrop
    refine ⟨t, stack', hself, ?_⟩
    simp only [stepThread] at hstep
    split at hstep
    · simp only [Option.some.injEq, Prod.mk.injEq] at hstep
      obtain ⟨-, rfl, -⟩ := hstep
      rfl
    · cases hstep

/-! ## Once -/

/-- A runner that was dropped, with nothing in progress any more, was taken. -/
theorem Leaving.ne_none (h : Leaving s taker) (hdropped : s.dropped = true)
    (hidle : ∀ stack ∈ s.frames, stack = []) : taker ≠ none := by
  intro htaker
  obtain ⟨u, stack, hstack, hdropping⟩ := h hdropped htaker
  rw [hidle stack (List.mem_of_getElem? hstack)] at hdropping
  cases hdropping

theorem leaving_steps (threads layers : Nat) {moves : List (Nat × Move)}
    {signals : List (Nat × Signal)}
    (hs : (System.init threads layers).steps moves = some (signals, s)) :
    Leaving s ((System.init threads layers).owner moves) := by
  have hinit : Inv (.init threads layers) [] none ∧ Leaving (.init threads layers) none :=
    ⟨untaken_init threads layers, fun hdropped => Bool.noConfusion hdropped⟩
  have hrun := System.steps_carry
    (P := fun s history taker => Inv s history taker ∧ Leaving s taker)
    (fun h hstep => ⟨inv_step h.1 hstep, h.2.step h.1 hstep⟩) hinit hs
  rw [Option.none_or] at hrun
  exact hrun.2

/-- When the owner is gone, its life is over. -/
theorem Stands.ended {running : Bool} (h : Stands running owner events []) :
    Life owner events ∨ Cut owner events := by
  cases h with
  | gone h => exact h

/-- For every number of threads and whatever they do with a runner, and however callbacks and
the handler end: once the runner was dropped and nothing is in progress any more, it is marked
closed, and `onClose` has begun exactly once, or not at all if the handler panicked in the
report of a start or of work that failed. -/
theorem onClose_once (threads layers : Nat) {moves : List (Nat × Move)}
    {signals : List (Nat × Signal)}
    (hs : (System.init threads layers).steps moves = some (signals, s))
    (hdropped : s.dropped = true) (hidle : ∀ stack ∈ s.frames, stack = []) :
    let events := (eventsOf signals).map (·.2)
    s.cells.closed = true ∧
      (ReportPanicked events → events.count (.began .onClose) = 0) ∧
      (¬ ReportPanicked events → events.count (.began .onClose) = 1) := by
  intro events
  have hheld := (held_init threads layers).steps hs
  rw [List.nil_append, Option.none_or] at hheld
  obtain ⟨⟨owner, thread⟩, htaker⟩ := Option.ne_none_iff_exists'.1
    ((leaving_steps threads layers hs).ne_none hdropped hidle)
  rw [htaker] at hheld
  obtain ⟨stack, hstack, -⟩ := hheld.marked
  obtain rfl := hidle stack (List.mem_of_getElem? hstack)
  obtain ⟨hstands, hplaced⟩ := hheld.of_idle hstack
  refine ⟨hplaced.closed, ?_⟩
  rcases hstands.ended with hlife | hcut
  · exact ⟨fun hpanicked => absurd hpanicked hlife.not_reportPanicked, fun _ => hlife.count_onClose⟩
  · exact hcut.count_onClose

/-- Work fails and the handler panics; the close and the drop that follow call nothing. -/
theorem onClose_never :
    let moves : List (Nat × Move) :=
      [(0, .call .run), (0, .go), (0, .go), (0, .go), (0, .finish (.ok 0)), (0, .go), (0, .go),
        (0, .finish (.panicked .other)), (0, .go), (0, .settle (some .other)), (0, .go), (0, .go),
        (0, .go), (0, .go), (0, .go), (1, .call .close), (1, .go), (1, .go), (1, .go),
        (1, .call .drop), (1, .go), (1, .go)]
    ∃ signals s, (System.init 2 0).steps moves = some (signals, s) ∧ s.dropped = true ∧
      s.cells.closed = true ∧ ((eventsOf signals).map (·.2)).count (.began .onClose) = 0 := by
  intro moves
  have hend : ((System.init 2 0).steps moves).map (fun r => (r.2.dropped, r.2.frames,
      (eventsOf r.1).map (·.2))) = some (true, [[], []],
        [.began .onStart, .ended .onStart (.ok 0), .began .doWork,
          .ended .doWork (.panicked .other), .reported (.panicked Payload.other.message),
          .settled (some .other)]) := by decide +kernel
  obtain ⟨⟨signals, s⟩, hsteps, hend⟩ := Option.map_eq_some_iff.1 hend
  simp only [Prod.mk.injEq] at hend
  obtain ⟨hdropped, hframes, hevents⟩ := hend
  obtain ⟨hclosed, hnever, -⟩ := onClose_once 2 0 hsteps hdropped (by simp [hframes])
  refine ⟨signals, s, hsteps, hdropped, hclosed, hnever ?_⟩
  rw [hevents]
  exact ⟨.doWork, .panicked .other, _, .other, Callback.noConfusion, [_, _, _], [], rfl⟩

end RingTransport.Runner
