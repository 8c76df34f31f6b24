/-
  Plays of the main thread alone. What such a play does next is told by its `Pose`: the cells,
  the stack, and what is left of the calls and the plans of the thread. Each turn leads from
  pose to pose (`Steps`). Main facts: code in control of the thread that runs the runner gets
  through any actions, none of which can block it (`leads_actions`), and through a report to
  the handler (`leads_report`); and a play that comes to its end is settled by any fuel above
  the number of its turns, one that has more turns before it by no less
  (`Play.settle_of_turns`, `Play.settle_eq_none`).
-/
import Mathlib.Logic.Relation
import RingTransport.Runner.Play

namespace RingTransport.Runner

open Relation

/-! ## Counting turns -/

namespace Play

variable {σ : Type} {agent : Agent σ} {p q r : Play σ} {k l fuel : Nat}

/-- The play after a number of turns, if so many can be taken. -/
def turns (agent : Agent σ) : (k : Nat) → Play σ → Option (Play σ)
  | 0, p => some p
  | k + 1, p => (p.next agent).bind (turns agent k)

theorem turns_add (hp : p.turns agent k = some q) (hq : q.turns agent l = some r) :
    p.turns agent (k + l) = some r := by
  induction k generalizing p with
  | zero =>
    obtain rfl : p = q := Option.some.inj hp
    rw [Nat.zero_add, hq]
  | succ k ih =>
    obtain ⟨p', hnext, hp'⟩ := Option.bind_eq_some_iff.1 hp
    rw [Nat.succ_add, turns, hnext]
    exact ih hp'

/-- A play that comes to its end is settled by any fuel above the number of its turns. -/
theorem settle_of_turns (hp : p.turns agent k = some q) (hq : q.next agent = none)
    (hfuel : k < fuel) : p.settle agent fuel = some q := by
  induction k generalizing p fuel with
  | zero =>
    obtain ⟨fuel, rfl⟩ : ∃ n, fuel = n + 1 := ⟨fuel - 1, by omega⟩
    obtain rfl : p = q := Option.some.inj hp
    rw [settle, hq]
  | succ k ih =>
    obtain ⟨fuel, rfl⟩ : ∃ n, fuel = n + 1 := ⟨fuel - 1, by omega⟩
    obtain ⟨p', hnext, hp'⟩ := Option.bind_eq_some_iff.1 hp
    rw [settle, hnext]
    exact ih hp' (by omega)

/-- A play that has so many turns before it is not settled by less fuel. -/
theorem settle_eq_none (hp : p.turns agent k = some q) (hfuel : fuel ≤ k) :
    p.settle agent fuel = none := by
  induction k generalizing p fuel with
  | zero =>
    obtain rfl : fuel = 0 := by omega
    rfl
  | succ k ih =>
    cases fuel with
    | zero => rfl
    | succ fuel =>
      obtain ⟨p', hnext, hp'⟩ := Option.bind_eq_some_iff.1 hp
      rw [settle, hnext]
      exact ih hp' (by omega)

end Play

/-! ## Poses -/

/-- What the main thread has before it, when it is alone. -/
structure Pose (σ : Type) where
  cells : Cells
  stack : List Frame
  calls : List Call
  plans : List Plan
  agent : σ
  works : Nat

variable {σ : Type} {agent : Agent σ} {handler : Handler} {x y z : Pose σ} {c c' : Cells}
  {f : Frame} {stack stack' rest : List Frame} {calls : List Call} {plan : Plan}
  {plans : List Plan} {s s' : σ} {works : Nat} {signals : List Signal} {entries : List Entry}

/-- The play of the main thread alone that stands so, with these entries written down. -/
def Pose.play (x : Pose σ) (handler : Handler) (entries : List Entry) : Play σ :=
  ⟨⟨x.cells, handler, [x.stack], false⟩, [⟨some "main", false, x.calls, x.plans, false⟩],
    x.agent, x.works, entries⟩

/-- The next turn leads from one pose to the other, whatever is written down. -/
def Steps (agent : Agent σ) (handler : Handler) (x y : Pose σ) : Prop :=
  ∀ entries, ∃ entries',
    (x.play handler entries).next agent = some (y.play handler entries')

/-- Any number of turns leads from one pose to the other. -/
abbrev Leads (agent : Agent σ) (handler : Handler) : Pose σ → Pose σ → Prop :=
  ReflTransGen (Steps agent handler)

theorem Leads.exists_turns (h : Leads agent handler x y) (entries : List Entry) :
    ∃ k entries', (x.play handler entries).turns agent k = some (y.play handler entries') := by
  induction h with
  | refl => exact ⟨0, entries, rfl⟩
  | tail _ hstep ih =>
    obtain ⟨k, entries', hk⟩ := ih
    obtain ⟨entries'', hnext⟩ := hstep entries'
    refine ⟨k + 1, entries'', Play.turns_add hk ?_⟩
    rw [Play.turns, hnext]
    rfl

/-- A step, and then any number of turns. -/
theorem exists_turns_succ (h : TransGen (Steps agent handler) x y) (entries : List Entry) :
    ∃ k entries',
      (x.play handler entries).turns agent (k + 1) = some (y.play handler entries') := by
  obtain ⟨z, hfirst, hrest⟩ := TransGen.head'_iff.1 h
  obtain ⟨entries', hnext⟩ := hfirst entries
  obtain ⟨k, entries'', hk⟩ := Leads.exists_turns hrest entries'
  refine ⟨k, entries'', ?_⟩
  rw [Play.turns, hnext]
  exact hk

/-! ## Turns of the main thread -/

/-- The signal gives nobody anything to do. -/
def Signal.isAside : Signal → Bool
  | .began _ | .reported _ | .unwound _ _ => false
  | _ => true

theorem exists_foldl_observe (agent : Agent σ) (handler : Handler) (x : Pose σ)
    (haside : signals.all Signal.isAside = true) (entries : List Entry) :
    ∃ entries', signals.foldl (Play.observe agent 0) (x.play handler entries) =
      x.play handler entries' := by
  induction signals generalizing entries with
  | nil => exact ⟨entries, rfl⟩
  | cons signal signals ih =>
    rw [List.all_cons, Bool.and_eq_true] at haside
    obtain ⟨hfirst, hrest⟩ := haside
    cases signal with
    | began | reported | unwound => cases hfirst
    | notice n => exact ih hrest _
    | _ => exact ih hrest entries

theorem next_play (x : Pose σ) (entries : List Entry) :
    (x.play handler entries).next agent = (x.play handler entries).turn agent 0 := by
  show [0].findSome? ((x.play handler entries).turn agent) = _
  rw [List.findSome?_cons]
  cases (x.play handler entries).turn agent 0 <;> rfl

theorem move_play (x : Pose σ) (entries : List Entry) {move : Move} (hdrop : move ≠ .call .drop)
    (hstep : stepThread handler 0 x.cells x.stack move = some (c', stack', signals)) :
    (x.play handler entries).move agent 0 move =
      some (signals.foldl (Play.observe agent 0)
        ((⟨c', stack', x.calls, x.plans, x.agent, x.works⟩ : Pose σ).play handler entries)) := by
  have hadmits : (x.play handler entries).system.admits move = true := by
    cases move with
    | call call => cases call <;> first | rfl | exact absurd rfl hdrop
    | _ => rfl
  have hkept : (move == .call .drop) = false := beq_eq_false_iff_ne.2 hdrop
  simp only [Play.move, System.step, hadmits, if_true]
  simp [Pose.play, hstep, hkept]

theorem turn_own (hown : inControl (f :: rest) = false)
    (hstep : stepThread handler 0 c (f :: rest) .go = some (c', stack', signals)) :
    ((⟨c, f :: rest, calls, plans, s, works⟩ : Pose σ).play handler entries).turn agent 0 =
      some (signals.foldl (Play.observe agent 0)
        ((⟨c', stack', calls, plans, s, works⟩ : Pose σ).play handler entries)) := by
  have hnot : ¬ inControl (f :: rest) = true := by
    rw [hown]
    exact Bool.false_ne_true
  have hgo : Move.go ≠ .call .drop := nofun
  rw [← move_play ⟨c, f :: rest, calls, plans, s, works⟩ entries hgo hstep]
  exact if_neg hnot

theorem turn_control (hctrl : inControl (f :: rest) = true) :
    ((⟨c, f :: rest, calls, plan :: plans, s, works⟩ : Pose σ).play handler entries).turn agent 0 =
      ((⟨c, f :: rest, calls, plan :: plans, s, works⟩ : Pose σ).play handler entries).followPlan
        agent 0 ⟨some "main", false, calls, plan :: plans, false⟩ plan plans :=
  if_pos hctrl

/-- A step of the runner's own code, if it gives nobody anything to do. -/
theorem steps_go (hown : inControl (f :: rest) = false)
    (hstep : stepThread handler 0 c (f :: rest) .go = some (c', stack', signals))
    (haside : signals.all Signal.isAside = true) :
    Steps agent handler ⟨c, f :: rest, calls, plans, s, works⟩
      ⟨c', stack', calls, plans, s, works⟩ := by
  intro entries
  obtain ⟨entries', hshown⟩ :=
    exists_foldl_observe agent handler ⟨c', stack', calls, plans, s, works⟩ haside entries
  refine ⟨entries', ?_⟩
  rw [next_play, turn_own hown hstep, hshown]

theorem observe_began (x : Pose σ) (cb : Callback) (entries : List Entry) :
    Play.observe agent 0 (x.play handler entries) (.began cb) =
      let r := agent.perform cb (x.play handler entries).seen x.agent
      (⟨x.cells, x.stack, x.calls, ⟨r.1.actions, r.1.wait, .finish r.1.ending⟩ :: x.plans, r.2.2,
        if cb = .doWork then x.works + 1 else x.works⟩ : Pose σ).play handler
          (r.2.1.reverse ++ entries) :=
  rfl

theorem observe_reported (x : Pose σ) (e : AgentError) (entries : List Entry) :
    Play.observe agent 0 (x.play handler entries) (.reported e) =
      let r := agent.react (some "main") e x.agent
      (⟨x.cells, x.stack, x.calls,
        ⟨r.1.actions, none, .settle (if r.1.panics then some .other else none)⟩ :: x.plans, r.2.2,
        x.works⟩ : Pose σ).play handler (r.2.1.reverse ++ entries) :=
  rfl

/-- The thread begins a callback, and takes on what the agent plans for it. -/
theorem steps_began {cb : Callback} {b : Behaviour} (hown : inControl (f :: rest) = false)
    (hstep : stepThread handler 0 c (f :: rest) .go = some (c, stack', [.began cb]))
    (hperform : ∀ seen, ∃ written, agent.perform cb seen s = (b, written, s')) :
    Steps agent handler ⟨c, f :: rest, calls, plans, s, works⟩
      ⟨c, stack', calls, ⟨b.actions, b.wait, .finish b.ending⟩ :: plans, s',
        if cb = .doWork then works + 1 else works⟩ := by
  intro entries
  obtain ⟨written, hb⟩ := hperform
    ((⟨c, stack', calls, plans, s, works⟩ : Pose σ).play handler entries).seen
  refine ⟨written.reverse ++ entries, ?_⟩
  rw [next_play, turn_own hown hstep, List.foldl_cons, List.foldl_nil, observe_began]
  simp only [hb]

/-- The thread calls the innermost handler, and takes on what the agent plans for it. -/
theorem steps_reported {e : AgentError} {actions : List Action}
    (hreact : ∃ written, agent.react (some "main") e s = (⟨actions, false⟩, written, s')) :
    Steps agent handler ⟨c, .report e .innermost :: rest, calls, plans, s, works⟩
      ⟨c, .handling e :: rest, calls, ⟨actions, none, .settle none⟩ :: plans, s', works⟩ := by
  intro entries
  obtain ⟨written, hreaction⟩ := hreact
  refine ⟨written.reverse ++ entries, ?_⟩
  rw [next_play, turn_own rfl rfl, List.foldl_cons, List.foldl_nil, observe_reported]
  simp only [hreaction]
  rfl

/-- An idle thread makes its next call. -/
theorem steps_call {call : Call} (hdrop : call ≠ .drop) :
    Steps agent handler ⟨c, [], call :: calls, plans, s, works⟩
      ⟨c, [call.frame], calls, plans, s, works⟩ := by
  intro entries
  refine ⟨entries, ?_⟩
  have hcall : Move.call call ≠ .call .drop := fun heq => hdrop (Move.call.inj heq)
  rw [next_play]
  exact move_play ⟨c, [], calls, plans, s, works⟩ entries hcall rfl

/-- Code in control of the thread calls the runner. -/
theorem steps_action {action : Action} {call : Call} {actions : List Action}
    {wait : Option Wait} {ending : Move} (hctrl : inControl (f :: rest) = true)
    (haction : action.call? = some call) :
    Steps agent handler
      ⟨c, f :: rest, calls, ⟨action :: actions, wait, ending⟩ :: plans, s, works⟩
      ⟨c, call.frame :: f :: rest, calls, ⟨actions, wait, ending⟩ :: plans, s, works⟩ := by
  intro entries
  refine ⟨entries, ?_⟩
  have hcall : Move.call call ≠ .call .drop := by
    rintro heq
    obtain rfl := Move.call.inj heq
    cases action <;> cases haction
  have hstep : stepThread handler 0 c (f :: rest) (.call call) =
      some (c, call.frame :: f :: rest, [.called call]) := by
    rw [stepThread, if_pos hctrl]
  rw [next_play, turn_control hctrl]
  simp only [Play.followPlan, haction]
  exact move_play ⟨c, f :: rest, calls, ⟨actions, wait, ending⟩ :: plans, s, works⟩ entries
    hcall hstep

/-- Code in control of the thread looks at the runner. -/
theorem steps_state {actions : List Action} {wait : Option Wait} {ending : Move}
    (hctrl : inControl (f :: rest) = true) :
    Steps agent handler
      ⟨c, f :: rest, calls, ⟨.state :: actions, wait, ending⟩ :: plans, s, works⟩
      ⟨c, f :: rest, calls, ⟨actions, wait, ending⟩ :: plans, s, works⟩ := by
  intro entries
  rw [next_play, turn_control hctrl]
  exact ⟨_, rfl⟩

/-- Code in control of the thread has done what it had to do, and ends. -/
theorem steps_ending {wait : Option Wait} {ending : Move} (hctrl : inControl (f :: rest) = true)
    (hcall : ending ≠ .call .drop)
    (hstep : stepThread handler 0 c (f :: rest) ending = some (c', stack', signals))
    (haside : signals.all Signal.isAside = true) :
    Steps agent handler ⟨c, f :: rest, calls, ⟨[], wait, ending⟩ :: plans, s, works⟩
      ⟨c', stack', calls, plans, s, works⟩ := by
  intro entries
  obtain ⟨entries', hshown⟩ :=
    exists_foldl_observe agent handler ⟨c', stack', calls, plans, s, works⟩ haside entries
  refine ⟨entries', ?_⟩
  rw [next_play, turn_control hctrl, ← hshown]
  exact move_play ⟨c, f :: rest, calls, plans, s, works⟩ entries hcall hstep

/-! ## What code in control can do -/

/-- The main thread runs the runner, and holds no lock. -/
structure Cells.RunByMain (c : Cells) : Prop where
  taken : c.tag ≠ .unbound
  handle : c.handle = some 0
  unlocked : c.latch.holder = none

/-- What an action of the thread that runs the runner does to the cells. -/
def Action.after (c : Cells) : Action → Cells
  | .cancel => { c with cancelled := true }
  | .close => { c with running := false, tag := .closed }
  | .run | .state => c

theorem Cells.RunByMain.after (h : c.RunByMain) (action : Action) :
    (action.after c).RunByMain := by
  obtain ⟨htaken, hhandle, hunlocked⟩ := h
  cases action with
  | close => exact ⟨nofun, hhandle, hunlocked⟩
  | cancel | run | state => exact ⟨htaken, hhandle, hunlocked⟩

theorem Cells.RunByMain.actions (h : c.RunByMain) (actions : List Action) :
    (actions.foldl Action.after c).RunByMain := by
  induction actions generalizing c with
  | nil => exact h
  | cons action actions ih => exact ih (h.after action)

/-- Only a close stops the loop. -/
theorem running_actions (c : Cells) (actions : List Action) :
    (actions.foldl Action.after c).running = true ↔ c.running = true ∧ .close ∉ actions := by
  induction actions generalizing c with
  | nil => simp
  | cons action actions ih =>
    rw [List.foldl_cons, ih, List.mem_cons]
    cases action <;> simp [Action.after]

/-- Only a cancel cancels. -/
theorem cancelled_actions (c : Cells) (actions : List Action) :
    (actions.foldl Action.after c).cancelled = true ↔ c.cancelled = true ∨ .cancel ∈ actions := by
  induction actions generalizing c with
  | nil => simp
  | cons action actions ih =>
    rw [List.foldl_cons, ih, List.mem_cons]
    cases action <;> simp [Action.after]

theorem leads_cancel :
    Leads agent handler ⟨c, .cancel .storeCancelled :: stack, calls, plans, s, works⟩
      ⟨{ c with cancelled := true }, stack, calls, plans, s, works⟩ := by
  have hstore : Steps agent handler ⟨c, .cancel .storeCancelled :: stack, calls, plans, s, works⟩
      ⟨{ c with cancelled := true }, .cancel .unpark :: stack, calls, plans, s, works⟩ :=
    steps_go rfl rfl rfl
  have hunpark : Steps agent handler
      ⟨{ c with cancelled := true }, .cancel .unpark :: stack, calls, plans, s, works⟩
      ⟨{ c with cancelled := true }, stack, calls, plans, s, works⟩ :=
    steps_go rfl rfl (by cases c.handle <;> rfl)
  exact .head hstore (.single hunpark)

/-- The thread that runs the runner closes it without waiting. -/
theorem leads_close (h : c.RunByMain) :
    Leads agent handler ⟨c, .close .storeStopped :: stack, calls, plans, s, works⟩
      ⟨{ c with running := false, tag := .closed }, stack, calls, plans, s, works⟩ := by
  obtain ⟨running, closed, cancelled, tag, handle, latch, counters⟩ := c
  obtain ⟨htaken, hhandle, -⟩ := h
  obtain rfl : handle = some 0 := hhandle
  refine .head (steps_go rfl rfl rfl) ?_
  cases tag with
  | unbound => exact absurd rfl htaken
  | closed => exact .single (steps_go rfl rfl rfl)
  | bound =>
    refine .head (steps_go rfl rfl rfl) ?_
    cases closed with
    | true => exact .single (steps_go rfl rfl rfl)
    | false => exact .head (steps_go rfl rfl rfl) (.single (steps_go rfl rfl rfl))

theorem leads_run (htaken : c.tag ≠ .unbound) :
    Leads agent handler ⟨c, .run .bind :: stack, calls, plans, s, works⟩
      ⟨c, stack, calls, plans, s, works⟩ := by
  have hstep : stepThread handler 0 c (.run .bind :: stack) .go =
      some (c, stack, [.notice .alreadyBound, .returned .run]) :=
    if_neg htaken
  exact .single (steps_go rfl hstep rfl)

theorem leads_action (h : c.RunByMain) {action : Action} {actions : List Action}
    {wait : Option Wait} {ending : Move} (hctrl : inControl (f :: rest) = true) :
    Leads agent handler
      ⟨c, f :: rest, calls, ⟨action :: actions, wait, ending⟩ :: plans, s, works⟩
      ⟨action.after c, f :: rest, calls, ⟨actions, wait, ending⟩ :: plans, s, works⟩ := by
  cases action with
  | cancel => exact .head (steps_action hctrl rfl) leads_cancel
  | close => exact .head (steps_action hctrl rfl) (leads_close h)
  | run => exact .head (steps_action hctrl rfl) (leads_run h.taken)
  | state => exact .single (steps_state hctrl)

/-- Code in control of the thread that runs the runner gets through all its actions. -/
theorem leads_actions (h : c.RunByMain) {actions : List Action} {wait : Option Wait}
    {ending : Move} (hctrl : inControl (f :: rest) = true) :
    Leads agent handler ⟨c, f :: rest, calls, ⟨actions, wait, ending⟩ :: plans, s, works⟩
      ⟨actions.foldl Action.after c, f :: rest, calls, ⟨[], wait, ending⟩ :: plans, s,
        works⟩ := by
  induction actions generalizing c with
  | nil => exact .refl
  | cons action actions ih => exact (leads_action h hctrl).trans (ih (h.after action))

/-- The cells once the layers of the handler have counted. -/
def Cells.counted (c : Cells) (layers : Handler) : Cells :=
  { c with counters := layers.bumps c.counters }

theorem Cells.RunByMain.counted (h : c.RunByMain) (layers : Handler) :
    (c.counted layers).RunByMain :=
  ⟨h.taken, h.handle, h.unlocked⟩

/-- An error gets through the layers of the handler to the innermost one. -/
theorem leads_report {e : AgentError} {layers : Handler} {actions : List Action}
    (hreact : ∃ written, agent.react (some "main") e s = (⟨actions, false⟩, written, s')) :
    Leads agent handler ⟨c, .report e layers :: rest, calls, plans, s, works⟩
      ⟨c.counted layers, .handling e :: rest, calls, ⟨actions, none, .settle none⟩ :: plans, s',
        works⟩ := by
  induction layers generalizing c with
  | innermost => exact .single (steps_reported hreact)
  | counted i inner ih => exact .head (steps_go rfl rfl rfl) ih

end RingTransport.Runner
