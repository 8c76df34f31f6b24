/-
  The life of a runner as a sequence of events: callbacks that begin and end, errors that
  reach the handler, and calls of the handler that end. `Life` says what a whole life is
  and `Unfolds` how far a life may have come. In both, a callback ends, and so does the
  report of its failure, before anything else begins. Main facts: `onStart` and `onClose`
  begin at most once (`Unfolds.count_began_le`), and whatever comes before a callback can
  be carried on to a whole life (`Before.exists_life`).
-/
import RingTransport.Runner.System

namespace RingTransport.Runner

/-! ## Events -/

/-- A callback or a call of the handler begins or ends. -/
def Signal.isEvent : Signal → Bool
  | .began _ | .ended _ _ | .reported _ | .settled _ => true
  | _ => false

/-- The events of a run, each with its thread. -/
def eventsOf (signals : List (Nat × Signal)) : List (Nat × Signal) :=
  signals.filter (·.2.isEvent)

/-- The error that goes to the handler when a callback has ended. Work may ask to stop,
which is no failure. -/
def fault (c : Callback) (o : Outcome) : Option AgentError :=
  match o.result with
  | .ok _ => none
  | .error e => if c = .doWork ∧ e = .cancelled then none else some e

/-- A callback from its begin to its end, and the report if it failed. -/
def attempt (c : Callback) (o : Outcome) : List Signal :=
  match fault c o with
  | none => [.began c, .ended c o]
  | some e => [.began c, .ended c o, .reported e, .settled none]

theorem attempt_of_none {c : Callback} {o : Outcome} (h : fault c o = none) :
    attempt c o = [.began c, .ended c o] := by
  rw [attempt, h]

theorem attempt_of_some {c : Callback} {o : Outcome} {e : AgentError} (h : fault c o = some e) :
    attempt c o = [.began c, .ended c o, .reported e, .settled none] := by
  rw [attempt, h]

theorem fault_of_ok {c : Callback} {o : Outcome} {n : Nat} (h : o.result = .ok n) :
    fault c o = none := by
  rw [fault, h]

theorem fault_of_error {c : Callback} {o : Outcome} {e : AgentError} (h : o.result = .error e)
    (hc : ¬ (c = .doWork ∧ e = .cancelled)) : fault c o = some e := by
  simp only [fault, h, if_neg hc]

theorem fault_cancelled {o : Outcome} (h : o.result = .error .cancelled) :
    fault .doWork o = none := by
  rw [fault, h]
  rfl

/-! ## Lives -/

/-- The whole life of a runner that a call of `run`, or a call of `close`, took as its
own. There is no work when the start failed. -/
inductive Life : Owner → List Signal → Prop
  | run (start close : Outcome) (works : List Outcome)
      (hstart : fault .onStart start ≠ none → works = []) :
      Life .run
        (attempt .onStart start ++ works.flatMap (attempt .doWork) ++ attempt .onClose close)
  | close (o : Outcome) : Life .close (attempt .onClose o)

/-- A life that ended early, because a call of the handler panicked. -/
inductive Cut (owner : Owner) : List Signal → Prop
  | intro {before life : List Signal} (p : Payload) (hlife : Life owner life)
      (hbefore : before ++ [.settled none] <+: life) : Cut owner (before ++ [.settled (some p)])

/-- The events are how far a life has come, or a life that was cut short. -/
def Unfolds (owner : Owner) (events : List Signal) : Prop :=
  (∃ life, Life owner life ∧ events <+: life) ∨ Cut owner events

theorem Life.unfolds {owner : Owner} {life : List Signal} (h : Life owner life) :
    Unfolds owner life :=
  .inl ⟨life, h, List.prefix_rfl⟩

theorem count_began_attempt (c c' : Callback) (o : Outcome) :
    (attempt c' o).count (.began c) = if c' = c then 1 else 0 := by
  unfold attempt
  by_cases h : c' = c
  · split <;> simp [h]
  · split <;> simp [h]

theorem count_began_works {c : Callback} (hc : c ≠ .doWork) (works : List Outcome) :
    (works.flatMap (attempt .doWork)).count (.began c) = 0 := by
  induction works with
  | nil => rfl
  | cons o works ih =>
    rw [List.flatMap_cons, List.count_append, ih, count_began_attempt, if_neg (Ne.symm hc)]

theorem Life.count_began_le {owner : Owner} {life : List Signal} (h : Life owner life)
    {c : Callback} (hc : c ≠ .doWork) : life.count (.began c) ≤ 1 := by
  cases h with
  | run start close works hstart =>
    rw [List.count_append, List.count_append, count_began_works hc, count_began_attempt,
      count_began_attempt]
    cases c with
    | onStart => decide
    | doWork => exact absurd rfl hc
    | onClose => decide
  | close o =>
    rw [count_began_attempt]
    split <;> decide

/-- Only `doWork` begins more than once. -/
theorem Unfolds.count_began_le {owner : Owner} {events : List Signal}
    (h : Unfolds owner events) {c : Callback} (hc : c ≠ .doWork) :
    events.count (.began c) ≤ 1 := by
  rcases h with ⟨life, hlife, hpre⟩ | ⟨p, hlife, hpre⟩
  · exact Nat.le_trans (hpre.sublist.count_le _) (hlife.count_began_le hc)
  · have hcount := Nat.le_trans (hpre.sublist.count_le (.began c)) (hlife.count_began_le hc)
    rw [List.count_append] at hcount ⊢
    simpa [List.count_cons] using hcount

/-! ## What comes before a callback -/

/-- The events after which a callback may begin. -/
inductive Before : Owner → Callback → List Signal → Prop
  | start : Before .run .onStart []
  | work {o : Outcome} (works : List Outcome) (ho : fault .onStart o = none) :
      Before .run .doWork (attempt .onStart o ++ works.flatMap (attempt .doWork))
  | close {o : Outcome} (works : List Outcome) (ho : fault .onStart o ≠ none → works = []) :
      Before .run .onClose (attempt .onStart o ++ works.flatMap (attempt .doWork))
  | only : Before .close .onClose []

variable {owner : Owner} {c : Callback} {events : List Signal}

theorem before_work_of_start {o : Outcome} (ho : fault .onStart o = none) :
    Before .run .doWork (attempt .onStart o) := by
  have := Before.work [] ho
  rwa [List.flatMap_nil, List.append_nil] at this

theorem before_close_of_start (o : Outcome) : Before .run .onClose (attempt .onStart o) := by
  have := Before.close (o := o) [] fun _ => rfl
  rwa [List.flatMap_nil, List.append_nil] at this

theorem Before.work_again (h : Before .run .doWork events) (o : Outcome) :
    Before .run .doWork (events ++ attempt .doWork o) := by
  cases h with
  | work works ho =>
    have := Before.work (works ++ [o]) ho
    rwa [List.flatMap_append, List.flatMap_singleton, ← List.append_assoc] at this

theorem Before.close_of_work (h : Before .run .doWork events) :
    Before .run .onClose events := by
  cases h with
  | work works ho => exact .close works fun hne => absurd ho hne

theorem Before.life (h : Before owner .onClose events) (o : Outcome) :
    Life owner (events ++ attempt .onClose o) := by
  cases h with
  | close works ho => exact .run _ o works ho
  | only => exact .close o

/-- The callback that may begin can be carried on to a whole life. -/
theorem Before.exists_life (h : Before owner c events) (o : Outcome) :
    ∃ life, Life owner life ∧ events ++ attempt c o <+: life := by
  cases h with
  | start => exact ⟨_, (before_close_of_start o).life (.ok 0), List.prefix_append ..⟩
  | work works ho =>
    exact ⟨_, ((Before.work works ho).work_again o).close_of_work.life (.ok 0),
      List.prefix_append ..⟩
  | close works ho => exact ⟨_, (Before.close works ho).life o, List.prefix_rfl⟩
  | only => exact ⟨_, Before.only.life o, List.prefix_rfl⟩

theorem Before.unfolds (h : Before owner c events) (o : Outcome) {part : List Signal}
    (hpart : part <+: attempt c o) : Unfolds owner (events ++ part) := by
  obtain ⟨life, hlife, hpre⟩ := h.exists_life o
  exact .inl ⟨life, hlife, ((List.prefix_append_right_inj events).2 hpart).trans hpre⟩

theorem Before.unfolds_nil (h : Before owner c events) : Unfolds owner events := by
  have := h.unfolds (.ok 0) List.nil_prefix
  rwa [List.append_nil] at this

theorem Before.unfolds_began (h : Before owner c events) :
    Unfolds owner (events ++ [.began c]) := by
  refine h.unfolds (.ok 0) ?_
  rw [attempt_of_none (fault_of_ok rfl)]
  exact ⟨[_], rfl⟩

theorem Before.unfolds_ended (h : Before owner c events) (o : Outcome) :
    Unfolds owner (events ++ [.began c, .ended c o]) := by
  refine h.unfolds o ?_
  unfold attempt
  split
  · exact List.prefix_rfl
  · exact ⟨[_, _], rfl⟩

theorem Before.unfolds_reported (h : Before owner c events) {o : Outcome} {e : AgentError}
    (ho : fault c o = some e) :
    Unfolds owner (events ++ [.began c, .ended c o, .reported e]) := by
  refine h.unfolds o ?_
  rw [attempt_of_some ho]
  exact ⟨[_], rfl⟩

/-- A panic of the handler ends the life in the middle of the report. -/
theorem Before.cut (h : Before owner c events) {o : Outcome} {e : AgentError}
    (ho : fault c o = some e) (p : Payload) :
    Cut owner (events ++ [.began c, .ended c o, .reported e] ++ [.settled (some p)]) := by
  obtain ⟨life, hlife, hpre⟩ := h.exists_life o
  refine .intro p hlife ?_
  rw [attempt_of_some ho] at hpre
  rw [List.append_assoc]
  exact hpre

end RingTransport.Runner
