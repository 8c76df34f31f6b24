/-
  Faults stay inside a runner. A panic of a callback never leaves it; a panic of the handler
  leaves the call of the owner, and only that call, but not before the runner is marked closed
  and its latch opened. The owner's frames carry the panic to the end (`Carrying`), which is near
  (`Carrying.unwinds`), and the step in which they go away shows whether the call returns or
  unwinds (`System.Exits`). Main fact: `fault_containment`.
-/
import RingTransport.Proofs.Runner.Ledger
import RingTransport.Proofs.Runner.Onward
import RingTransport.Proofs.Runner.Release

namespace RingTransport.Runner

variable {s s₁ s' : System} {t u me thread : Nat} {move : Move} {signals : List Signal}
  {history : List (Nat × Signal)} {taker : Option (Owner × Nat)} {owner : Owner}
  {c c' : Cells} {core stack : List Frame} {handler : Handler} {running : Bool}
  {events : List Signal} {moves : List (Nat × Move)} {shown : List (Nat × Signal)}

/-! ## The end of the owner's call -/

theorem carried_afterCallback {result : Except AgentError Nat}
    (h : afterCallback handler result core = some stack) : stack ≠ [] ∧ carried stack = none := by
  unfold afterCallback at h
  repeat' split at h
  all_goals
    cases h
    try exact ⟨List.cons_ne_nil _ _, rfl⟩

theorem carried_afterReport {panic : Option Payload}
    (h : afterReport panic core = some stack) : stack ≠ [] ∧ carried stack = panic := by
  unfold afterReport at h
  repeat' split at h
  all_goals
    cases h
    try exact ⟨List.cons_ne_nil _ _, rfl⟩

/-- A step on the owner's frames either ends the call of the owner, or what the frames carry
after it they carried before, or the handler has just left it. -/
theorem Stands.exits_step (h : Stands c.running owner events core)
    (hmove : ∀ call, move ≠ .call call)
    (hs : stepThread handler me c core move = some (c', stack, signals)) :
    (stack ≠ [] ∧ ∀ p, carried stack = some p →
      carried core = some p ∨ Signal.settled (some p) ∈ signals) ∨
      ∃ panic, move = .go ∧ core = [.release owner .unlock panic] ∧ stack = [] ∧
        signals = [owner.exit panic] := by
  cases move with
  | go =>
    rcases h.go_cases hs with hcarries | ⟨panic, hcore, hstack, hsignals, -⟩
    · exact .inl ⟨hcarries.stays, fun p hp => .inl (hcarries.carried ▸ hp)⟩
    · exact .inr ⟨panic, rfl, hcore, hstack, hsignals⟩
  | call call => exact absurd rfl (hmove call)
  | finish o =>
    cases h with
    | calling =>
      simp only [stepThread, Option.map_eq_some_iff] at hs
      obtain ⟨_, hafter, hs⟩ := hs
      cases hs
      obtain ⟨hstack, hcarried⟩ := carried_afterCallback hafter
      exact .inl ⟨hstack, fun p hp => by cases hcarried.symm.trans hp⟩
    | _ => cases hs
  | settle panic =>
    cases h with
    | handling =>
      simp only [stepThread, Option.map_eq_some_iff] at hs
      obtain ⟨_, hafter, hs⟩ := hs
      cases hs
      obtain ⟨hstack, hcarried⟩ := carried_afterReport hafter
      refine .inl ⟨hstack, fun p hp => .inr ?_⟩
      rw [hcarried.symm.trans hp]
      exact List.mem_singleton_self _
    | _ => cases hs
  | stir => cases h.stir_eq_none.symm.trans hs

/-! ## What the owner's frames carry -/

/-- The handler panics at most once. -/
theorem Unfolds.panic_unique (h : Unfolds owner events) {p p' : Payload}
    (hmem : Signal.settled (some p) ∈ events) (hmem' : Signal.settled (some p') ∈ events) :
    p = p' := by
  obtain ⟨before, after, hsplit⟩ := List.append_of_mem hmem
  obtain ⟨before', after', hsplit'⟩ := List.append_of_mem hmem'
  obtain ⟨rfl, -⟩ := h.panicked hsplit
  obtain ⟨rfl, -⟩ := h.panicked hsplit'
  have hlast := (List.append_inj' (hsplit.symm.trans hsplit') rfl).2
  simpa using hlast

/-- At the end the owner's frames carry the panic of the handler, if it panicked. -/
theorem Stands.carried_iff {stage : ReleaseStage} {panic : Option Payload}
    (h : Stands running owner events [.release owner stage panic])
    (hcarries : ∀ p, panic = some p → Signal.settled (some p) ∈ events) (p : Payload) :
    panic = some p ↔ Signal.settled (some p) ∈ events := by
  refine ⟨hcarries p, fun hmem => ?_⟩
  cases h with
  | releasing hlife =>
    obtain ⟨calls, o, rfl, -⟩ := hlife.exists_attempts
    exact absurd hmem (settled_some_not_mem_attempts _ p)
  | unwinding hcut _ p' =>
    have hunfolds : Unfolds owner events := .inr hcut
    rw [hunfolds.panic_unique (hcarries p' rfl) hmem]

/-- After a panic of the handler nothing is left to the owner but the release. -/
theorem Stands.released_of_panic (h : Stands running owner events core) {p : Payload}
    (hmem : Signal.settled (some p) ∈ events) :
    core = [] ∨ ∃ stage panic, core = [.release owner stage panic] := by
  have hbefore : ∀ {events c}, Before owner c events → Signal.settled (some p) ∉ events :=
    fun hb hmem => by
      obtain ⟨calls, rfl⟩ := hb.exists_attempts
      exact settled_some_not_mem_attempts calls p hmem
  cases h with
  | gone => exact .inl rfl
  | releasing _ stage => exact .inr ⟨stage, none, rfl⟩
  | unwinding _ stage p => exact .inr ⟨stage, some p, rfl⟩
  | bound | starting => cases hmem
  | calling h | reporting h | handling h =>
    rcases List.mem_append.1 hmem with hearlier | hnow
    · exact absurd hearlier (hbefore h)
    · simp at hnow
  | startFailed o =>
    refine absurd ?_ (settled_some_not_mem_attempts [(.onStart, o)] p)
    rw [attempts_cons]
    exact List.mem_append_left _ hmem
  | looping h | stopped h | closing h => exact absurd hmem (hbefore h)
  | announcing h =>
    obtain ⟨calls, o, rfl, -⟩ := h.exists_attempts
    exact absurd hmem (settled_some_not_mem_attempts _ p)

/-- What holds of a runner after the events: the owner's frames carry a panic of the handler
only. -/
structure Carrying (s : System) (history : List (Nat × Signal)) (taker : Option (Owner × Nat)) :
    Prop where
  held : Held s history taker
  carries : ∀ owner thread core p, taker = some (owner, thread) → CoreAt s thread core →
    carried core = some p → Signal.settled (some p) ∈ history.map (·.2)

theorem carrying_init (threads layers : Nat) : Carrying (.init threads layers) [] none where
  held := held_init threads layers
  carries := nofun

theorem Carrying.step (h : Carrying s history taker) (hs : s.step t move = some (signals, s')) :
    Carrying s' (history ++ eventsOf (signals.map (t, ·)))
      (taker.or (taken t s.cells s'.cells)) where
  held := h.held.step hs
  carries := by
    obtain ⟨hheld, hcarries⟩ := h
    intro owner thread core p htaker hat hcarried
    have hafter : ∃ core, CoreAt s' thread core ∧ ∀ p, carried core = some p →
        Signal.settled (some p) ∈ (history ++ eventsOf (signals.map (t, ·))).map (·.2) := by
      refine hheld.carry (fun _ events core =>
        ∀ p, carried core = some p → Signal.settled (some p) ∈ events) hs ?_ ?_ ?_ ?_ htaker
      · rintro owner thread rfl
        obtain ⟨core, stack, hstands, -, hstack, hover, -⟩ := hheld.exists_core
        have hcore : CoreAt s thread core := ⟨stack, hstack, hover.coreOf_eq hstands.coreOf_eq⟩
        exact ⟨core, hcore, fun p => hcarries _ _ _ p rfl hcore⟩
      · intro _ _ owner p hcarried
        cases owner <;> cases hcarried
      · intro owner core core' hstands hcarries hmove hstep p hcarried
        rcases hstands.exits_step hmove hstep with ⟨-, hkept⟩ | ⟨_, -, -, rfl, -⟩
        · rcases hkept p hcarried with hold | hnew
          · exact List.mem_append_left _ (hcarries p hold)
          · exact List.mem_append_right _ (List.mem_filter.2 ⟨hnew, rfl⟩)
        · cases hcarried
      · exact fun _ _ hcarries => hcarries
    obtain ⟨core', hat', hcarries'⟩ := hafter
    obtain rfl := hat.unique hat'
    exact hcarries' p hcarried

/-- When the handler has panicked, the call of the owner is over, or it soon unwinds. -/
theorem Carrying.unwinds (h : Carrying s history (some (owner, thread))) (hholding : Holding s)
    {p : Payload} (hmem : Signal.settled (some p) ∈ history.map (·.2)) :
    CoreAt s thread [] ∨ s.ComesBack thread (.unwound owner.call p) := by
  obtain ⟨core, stack, hstands, -, hstack, hover, -⟩ := h.held.exists_core
  have hat : CoreAt s thread core := ⟨stack, hstack, hover.coreOf_eq hstands.coreOf_eq⟩
  rcases hstands.released_of_panic hmem with rfl | ⟨stage, panic, rfl⟩
  · exact .inl hat
  · right
    obtain rfl : panic = some p :=
      (hstands.carried_iff (fun p hp => h.carries _ _ _ p rfl hat hp) p).2 hmem
    cases hover with
    | alone => exact h.held.release_comesBack hholding hstack
    | visit _ hcontrol => cases hcontrol

/-! ## The step that ends the call -/

/-- In one of its steps, which shows only this, a run ends the call of the owner. -/
def System.Exits (s : System) (moves : List (Nat × Move)) (thread : Nat) (exit : Signal) : Prop :=
  ∃ before after done s₁ s₂, moves = before ++ (thread, .go) :: after ∧
    s.steps before = some (done, s₁) ∧ s₁.step thread .go = some ([exit], s₂) ∧
    ¬ CoreAt s₁ thread [] ∧ CoreAt s₂ thread []

theorem System.Exits.cons {exit : Signal} (h : s₁.Exits moves thread exit)
    (hs : s.step t move = some (signals, s₁)) : s.Exits ((t, move) :: moves) thread exit := by
  obtain ⟨before, after, done, s₂, s₃, rfl, hbefore, hrest⟩ := h
  exact ⟨(t, move) :: before, after, _, s₂, s₃, rfl, System.steps_of_step hs hbefore, hrest⟩

/-- A step of a runner that was taken ends the call of the owner, or the call goes on. -/
theorem Carrying.exits_step (h : Carrying s history (some (owner, thread)))
    (hopen : ¬ CoreAt s thread []) (hs : s.step t move = some (signals, s')) :
    ¬ CoreAt s' thread [] ∨ ∃ panic, t = thread ∧ move = .go ∧ signals = [owner.exit panic] ∧
      CoreAt s' thread [] ∧ s'.cells.closed = true ∧
      ∀ p, panic = some p ↔ Signal.settled (some p) ∈ history.map (·.2) := by
  obtain ⟨core, core', hat, hat', hstands, hstep⟩ := h.held.step_cases hs
  rcases hstep with ⟨rfl, hmove, hstep⟩ | ⟨rfl, -, -⟩
  · rcases hstands.exits_step hmove hstep with ⟨hgoes, -⟩ | ⟨panic, rfl, rfl, rfl, rfl⟩
    · exact .inl fun hover => hgoes (hat'.unique hover)
    · refine .inr ⟨panic, rfl, rfl, rfl, hat', ?_, ?_⟩
      · obtain ⟨_, stack, hstands₁, -, hstack, hover, hplaced⟩ := h.held.exists_core
        obtain rfl := hat.unique ⟨stack, hstack, hover.coreOf_eq hstands₁.coreOf_eq⟩
        exact (System.step_onward hs).closed hplaced.closed
      · exact hstands.carried_iff fun p hp => h.carries _ _ _ p rfl hat hp
  · exact .inl fun hover => hopen (hat'.unique hover ▸ hat)

/-- When the call of the owner is over, one of the steps of the run has ended it, and the call
has unwound if the handler panicked, and returned otherwise. -/
theorem Carrying.exits (h : Carrying s history taker)
    (hopen : ∀ owner thread, taker = some (owner, thread) → ¬ CoreAt s thread [])
    (hs : s.steps moves = some (shown, s'))
    (htaker : taker.or (s.owner moves) = some (owner, thread)) (hover : CoreAt s' thread []) :
    ∃ panic, s.Exits moves thread (owner.exit panic) ∧
      ∀ p, panic = some p ↔ Signal.settled (some p) ∈ (history ++ eventsOf shown).map (·.2) := by
  induction moves generalizing s history taker shown with
  | nil =>
    cases hs
    rw [show s'.owner [] = none from rfl, Option.or_none] at htaker
    exact absurd hover (hopen owner thread htaker)
  | cons move moves ih =>
    obtain ⟨t, move⟩ := move
    obtain ⟨first, s₁, later, hfirst, hlater, rfl⟩ := System.steps_cons hs
    have h₁ := h.step hfirst
    have htaker₁ : (taker.or (taken t s.cells s₁.cells)).or (s₁.owner moves) =
        some (owner, thread) := by
      simp only [System.owner, hfirst] at htaker
      rw [Option.or_assoc]
      exact htaker
    have hgoes : (∀ owner thread, taker.or (taken t s.cells s₁.cells) = some (owner, thread) →
        ¬ CoreAt s₁ thread []) → ∃ panic, s.Exits ((t, move) :: moves) thread (owner.exit panic) ∧
          ∀ p, panic = some p ↔ Signal.settled (some p) ∈
            (history ++ eventsOf (first.map (t, ·) ++ later)).map (·.2) := fun hopen₁ => by
      obtain ⟨panic, hexits, hpanic⟩ := ih h₁ hopen₁ hlater htaker₁
      rw [List.append_assoc, ← eventsOf_append] at hpanic
      exact ⟨panic, hexits.cons hfirst, hpanic⟩
    cases taker with
    | none =>
      refine hgoes fun owner thread htaken hat => ?_
      obtain ⟨-, -, hnone | ⟨owner', htaken', hstart⟩⟩ := h.held.untaken_step hfirst
      · cases hnone.symm.trans htaken
      · rw [Option.none_or, htaken', Option.some.injEq, Prod.mk.injEq] at htaken
        obtain ⟨rfl, rfl⟩ := htaken
        cases hat.unique hstart
    | some taker =>
      obtain rfl := Option.some.inj htaker
      rcases h.exits_step (hopen owner thread rfl) hfirst with
        hopen₁ | ⟨panic, rfl, rfl, rfl, hat, hclosed, hpanic⟩
      · refine hgoes fun owner' thread' htaken => ?_
        obtain ⟨rfl, rfl⟩ := Prod.mk.inj (Option.some.inj htaken)
        exact hopen₁
      · -- this step ends the call, and nothing happens after it
        obtain ⟨hsilent, -⟩ := (h₁.held.finished hclosed).silent _ _ _ hlater
        have hquiet : eventsOf ([owner.exit panic].map (t, ·)) = [] := by cases panic <;> rfl
        rw [eventsOf_append, hquiet, hsilent, List.append_nil, List.append_nil]
        exact ⟨panic, ⟨[], moves, [], s, s₁, rfl, rfl, hfirst, hopen owner t rfl, hat⟩, hpanic⟩

theorem Stands.release_eq {owner' : Owner} {stage : ReleaseStage} {panic : Option Payload}
    {rest : List Frame} (h : Stands running owner events (.release owner' stage panic :: rest)) :
    owner' = owner := by
  cases h <;> rfl

/-- Only the call of the owner unwinds, and only with a panic of the handler. -/
theorem Carrying.unwound (h : Carrying s history taker)
    (hs : s.steps moves = some (shown, s')) {call : Call} {p : Payload}
    (hmem : (u, .unwound call p) ∈ shown) :
    ∃ owner, taker.or (s.owner moves) = some (owner, u) ∧ call = owner.call ∧
      Signal.settled (some p) ∈ (history ++ eventsOf shown).map (·.2) := by
  obtain ⟨before, move, after, done, s₁, first, s₂, rfl, hbefore, hstep, hsignal, hpre⟩ :=
    System.exists_step hs hmem
  obtain ⟨hheld, hcarries⟩ := System.steps_carry Carrying.step h hbefore
  obtain ⟨stack, stack', hstack, -, -, hthread⟩ := System.step_frames hstep
  have hshows := stepThread_shows hthread hsignal
  rw [System.owner_append hbefore, ← Option.or_assoc]
  generalize taker.or (s.owner before) = taken₁ at hheld hcarries ⊢
  cases hshows with
  | @unwound owner p rest =>
    have hnot : ¬ Over [] (.release owner .unlock (some p) :: rest) := by
      rintro (_ | hf)
      cases hf
    cases taken₁ with
    | none => exact absurd (Untaken.based hheld.inv u _ hstack) hnot
    | some taken₁ =>
      obtain ⟨owner₁, thread⟩ := taken₁
      obtain ⟨core, -, hstands, hbased, -, -, -⟩ := hheld.exists_core
      have hover : Over (if u = thread then core else [])
        (.release owner .unlock (some p) :: rest) := hbased u _ hstack
      by_cases hu : u = thread
      · subst hu
        rw [if_pos rfl] at hover
        cases hover with
        | visit hf => cases hf
        | alone =>
          refine ⟨owner₁, rfl, by rw [hstands.release_eq], ?_⟩
          have hsettled := hcarries owner₁ u _ p rfl ⟨_, hstack, hstands.coreOf_eq⟩ rfl
          obtain ⟨rest', rfl⟩ := hpre
          rw [eventsOf_append, ← List.append_assoc, List.map_append]
          exact List.mem_append_left _ hsettled
      · rw [if_neg hu] at hover
        exact absurd hover hnot

/-! ## Afterwards -/

/-- A runner that is over. It is closed, its latch is open, and it is not running; no callback and
no report is in progress; nobody sleeps, and every close that is in progress comes back, and comes
nearer to its end with each of its steps. -/
structure Shut (s : System) : Prop where
  closed : s.cells.closed = true
  done : s.cells.latch.done = true
  tag : s.cells.tag ≠ .unbound
  stopped : s.cells.snapshot.running = false
  idle : ∀ stack ∈ s.frames, ∀ f ∈ stack, f.isActive = false
  awake : s.cells.latch.sleepers = []
  released : ∀ t stage rest, s.frames[t]? = some (.close stage :: rest) →
    s.ComesBack t (.returned .close)
  nearer : ∀ t stage rest, s.frames[t]? = some (.close stage :: rest) →
    ∀ signals s', s.step t .go = some (signals, s') →
      signals = [.returned .close] ∧ s'.frames[t]? = some [] ∨ ∃ later : CloseStage,
        s'.frames[t]? = some [.close later] ∧ later.stepsBack < stage.stepsBack

theorem Past.shut (h : Past s history taker) : Shut s where
  closed := h.cells.1
  done := h.cells.2.1
  tag := h.cells.2.2
  stopped := by
    show (s.cells.running && !s.cells.closed) = false
    rw [h.cells.1, Bool.not_true, Bool.and_false]
  idle := h.held.not_active h.cells.1
  awake := h.sleepers
  released := fun _ _ _ hstack => h.close_comesBack hstack
  nearer := fun _ _ _ hstack _ _ hs => h.nearer hstack hs

/-- Whatever is done with a runner that is over, it stays so, nothing happens, and no call sees
it running. -/
theorem Past.steps (h : Past s history taker) (hs : s.steps moves = some (shown, s')) :
    Shut s' ∧ eventsOf shown = [] ∧ ∀ u b, (u, .observed (.running b)) ∈ shown → b = false := by
  refine ⟨(System.steps_carry Past.step h hs).shut,
    ((h.held.finished h.cells.1).silent _ _ _ hs).1, fun u b hmem => ?_⟩
  obtain ⟨before, move, after, done, s₁, first, s₂, rfl, hbefore, hstep, hsignal, -⟩ :=
    System.exists_step hs hmem
  have hclosed := (System.steps_carry Past.step h hbefore).cells.1
  obtain ⟨_, _, _, _, _, hthread⟩ := System.step_frames hstep
  cases b with
  | false => rfl
  | true =>
    obtain ⟨-, -, hopen⟩ := stepThread_running hthread hsignal
    cases hopen.symm.trans hclosed

/-- For every number of threads, whatever they do with a runner and however its callbacks and the
handler end. A call unwinds only if it took the runner and a call of the handler panicked. When a
call of the handler has panicked, the call that took the runner is over or soon unwinds. When it
is over, one step of its thread has ended it: it has unwound if a call of the handler panicked,
with that panic, and has returned otherwise. In either case the runner is shut from then on:
whatever is done with it, no callback and no handler is called, and it is not running. -/
theorem fault_containment (threads layers : Nat) {moves : List (Nat × Move)}
    {signals : List (Nat × Signal)}
    (hs : (System.init threads layers).steps moves = some (signals, s)) :
    (∀ u call p, (u, .unwound call p) ∈ signals →
      ∃ owner, (System.init threads layers).owner moves = some (owner, u) ∧ call = owner.call ∧
        (u, .settled (some p)) ∈ signals) ∧
    (∀ owner thread, (System.init threads layers).owner moves = some (owner, thread) →
      (∀ p, (thread, .settled (some p)) ∈ signals →
        CoreAt s thread [] ∨ s.ComesBack thread (.unwound owner.call p)) ∧
      (CoreAt s thread [] →
        (∃ panic, (System.init threads layers).Exits moves thread (owner.exit panic) ∧
          ∀ p, panic = some p ↔ (thread, .settled (some p)) ∈ signals) ∧
        ∀ moves shown s', s.steps moves = some (shown, s') →
          Shut s' ∧ eventsOf shown = [] ∧
            ∀ u b, (u, .observed (.running b)) ∈ shown → b = false)) := by
  have hcarrying := System.steps_carry Carrying.step (carrying_init threads layers) hs
  have hholding := (holding_init threads layers).steps hs
  rw [List.nil_append, Option.none_or] at hcarrying
  -- on the owner's thread, what happened is what was shown
  have hevents : ∀ {owner thread} {p : Payload},
      (System.init threads layers).owner moves = some (owner, thread) →
      (Signal.settled (some p) ∈ (eventsOf signals).map (·.2) ↔
        (thread, .settled (some p)) ∈ signals) := by
    intro owner thread p htaker
    have hheld := hcarrying.held
    rw [htaker] at hheld
    refine ⟨fun hmem => ?_, fun hmem => ?_⟩
    · obtain ⟨e, he, heq⟩ := List.mem_map.1 hmem
      have hsame : e = (thread, .settled (some p)) := Prod.ext (TakenBy.alone hheld.inv e he) heq
      exact hsame ▸ (List.mem_filter.1 he).1
    · exact List.mem_map.2 ⟨_, List.mem_filter.2 ⟨hmem, rfl⟩, rfl⟩
  refine ⟨fun u call p hmem => ?_, fun owner thread htaker =>
    ⟨fun p hmem => ?_, fun hover => ⟨?_, ?_⟩⟩⟩
  · obtain ⟨owner, htaker, hcall, hsettled⟩ := (carrying_init threads layers).unwound hs hmem
    rw [Option.none_or] at htaker
    rw [List.nil_append] at hsettled
    exact ⟨owner, htaker, hcall, (hevents htaker).1 hsettled⟩
  · rw [htaker] at hcarrying
    exact hcarrying.unwinds hholding ((hevents htaker).2 hmem)
  · obtain ⟨panic, hexits, hpanic⟩ :=
      (carrying_init threads layers).exits nofun hs ((Option.none_or ..).trans htaker) hover
    rw [List.nil_append] at hpanic
    exact ⟨panic, hexits, fun p => (hpanic p).trans (hevents htaker)⟩
  · intro moves' shown s' hs'
    rw [htaker] at hcarrying
    have hpast : Past s (eventsOf signals) (some (owner, thread)) :=
      ⟨hcarrying.held, hholding, owner, thread, rfl, hover⟩
    exact hpast.steps hs'

/-- The start panics while a close sleeps, and the handler panics: the run unwinds, and the close
comes back. -/
theorem fault_containment_of_sleeper :
    let moves : List (Nat × Move) :=
      [(0, .call .run), (0, .go), (1, .call .close), (1, .go), (1, .go), (1, .go), (1, .go),
        (1, .go), (1, .go), (1, .go), (1, .go), (0, .go), (0, .go), (0, .finish (.panicked .other)),
        (0, .go), (0, .settle (some (.text "full"))), (0, .go), (0, .go), (0, .go), (0, .go),
        (0, .go)]
    ∃ signals s, (System.init 2 0).steps moves = some (signals, s) ∧
      (System.init 2 0).owner moves = some (.run, 0) ∧ CoreAt s 0 [] ∧
      s.frames[1]? = some [.close .asleep] ∧
      (System.init 2 0).Exits moves 0 (.unwound .run (.text "full")) ∧ Shut s ∧
      s.ComesBack 1 (.returned .close) := by
  intro moves
  have howner : (System.init 2 0).owner moves = some (.run, 0) := by decide +kernel
  have hend : ((System.init 2 0).steps moves).map (fun r => (r.2.frames, r.1.filter (·.1 == 0))) =
      some ([[], [.close .asleep]], [(0, .called .run), (0, .notice .starting),
        (0, .began .onStart), (0, .ended .onStart (.panicked .other)),
        (0, .reported (.panicked Payload.other.message)), (0, .settled (some (.text "full"))),
        (0, .unwound .run (.text "full"))]) := by decide +kernel
  obtain ⟨⟨signals, s⟩, hs, hend⟩ := Option.map_eq_some_iff.1 hend
  simp only [Prod.mk.injEq] at hend
  obtain ⟨hframes, hsignals⟩ := hend
  have hover : CoreAt s 0 [] := ⟨[], by rw [hframes]; rfl, rfl⟩
  have hclose : s.frames[1]? = some [.close .asleep] := by rw [hframes]; rfl
  obtain ⟨⟨panic, hexits, hpanic⟩, hafter⟩ := ((fault_containment 2 0 hs).2 .run 0 howner).2 hover
  have hsettled : (0, Signal.settled (some (.text "full"))) ∈ signals := by
    refine (List.mem_filter (p := (·.1 == 0))).1 ?_ |>.1
    rw [hsignals]
    decide
  obtain rfl := (hpanic (.text "full")).2 hsettled
  obtain ⟨hshut, -⟩ := hafter [] [] s rfl
  exact ⟨signals, s, hs, howner, hover, hclose, hexits, hshut, hshut.released 1 _ _ hclose⟩

end RingTransport.Runner
