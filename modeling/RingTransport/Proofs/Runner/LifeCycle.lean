/-
  The one life of a runner. In every run of any number of threads, at most one call takes
  the runner, and every callback and every call of the handler happens on the thread of
  that call, one after the other, in the order of a life. Main fact:
  `events_unfold_one_life`.
-/
import RingTransport.Proofs.Runner.Stacks

namespace RingTransport.Runner

/-! ## Who takes a runner -/

/-- The call that takes the runner in a step of a thread: it finds the runner unbound and
leaves it bound or closed. -/
def taken (thread : Nat) (before after : Cells) : Option (Owner × Nat) :=
  match before.tag, after.tag with
  | .unbound, .bound => some (.run, thread)
  | .unbound, .closed => some (.close, thread)
  | _, _ => none

/-- The call that takes the runner in a run, and the thread that makes it. -/
def System.owner : System → List (Nat × Move) → Option (Owner × Nat)
  | _, [] => none
  | s, (t, move) :: moves =>
    match s.step t move with
    | none => none
    | some (_, s') => (taken t s.cells s'.cells).or (s'.owner moves)

theorem taken_of_unbound {t : Nat} {c c' : Cells} (h : c'.tag = .unbound) :
    taken t c c' = none := by
  unfold taken
  rw [h]
  cases c.tag <;> rfl

theorem taken_of_tag {t : Nat} {c c' : Cells} {owner : Owner} (h : c.tag = .unbound)
    (h' : c'.tag = owner.tag) : taken t c c' = some (owner, t) := by
  unfold taken
  rw [h, h']
  cases owner <;> rfl

/-! ## Steps and stacks -/

variable {s s' : System} {t : Nat} {move : Move} {signals : List Signal}
  {events : List (Nat × Signal)}

/-- A step changes the cells and the stack of its own thread. -/
theorem System.step_cases (h : s.step t move = some (signals, s')) :
    ∃ stack stack', s.frames[t]? = some stack ∧ s'.frames = s.frames.set t stack' ∧
      stepThread s.handler t s.cells stack move = some (s'.cells, stack', signals) := by
  simp only [System.step] at h
  split at h
  · simp only [bind, Option.bind_eq_some_iff, pure] at h
    obtain ⟨stack, hstack, ⟨cells, stack', out⟩, hstep, h⟩ := h
    cases h
    exact ⟨stack, stack', hstack, rfl, hstep⟩
  · cases h

theorem eventsOf_map (t : Nat) (signals : List Signal) :
    eventsOf (signals.map (t, ·)) = (signals.filter Signal.isEvent).map (t, ·) :=
  List.filter_map

theorem eventsOf_append (first second : List (Nat × Signal)) :
    eventsOf (first ++ second) = eventsOf first ++ eventsOf second :=
  List.filter_append ..

theorem map_snd_map (t : Nat) (signals : List Signal) :
    (signals.map (t, ·)).map (·.2) = signals := by
  rw [List.map_map]
  exact List.map_id _

theorem map_snd_append_eventsOf (history : List (Nat × Signal)) (t : Nat)
    (signals : List Signal) :
    (history ++ eventsOf (signals.map (t, ·))).map (·.2) =
      history.map (·.2) ++ signals.filter Signal.isEvent := by
  rw [eventsOf_map, List.map_append, map_snd_map]

/-- Every thread's stack is its base, or a visit on top of it. -/
def Based (base : Nat → List Frame) (frames : List (List Frame)) : Prop :=
  ∀ u stack, frames[u]? = some stack → Over (base u) stack

theorem Based.set {base base' : Nat → List Frame} {frames : List (List Frame)}
    {stack : List Frame} (h : Based base frames) (hbase : ∀ u, u ≠ t → base' u = base u)
    (hstack : Over (base' t) stack) : Based base' (frames.set t stack) := by
  intro u other hu
  rw [List.getElem?_set] at hu
  split at hu
  · next heq =>
    split at hu
    · cases hu
      exact heq ▸ hstack
    · cases hu
  · next hne =>
    rw [hbase u (Ne.symm hne)]
    exact h u other hu

/-- A thread with nothing in progress can only make a call. -/
theorem call_of_stepThread_nil {handler : Handler} {c : Cells} {stepped : Stepped}
    (hs : stepThread handler t c [] move = some stepped) : ∃ call, move = .call call := by
  cases move with
  | call call => exact ⟨call, rfl⟩
  | go | finish | settle | stir => cases hs

/-! ## The invariant -/

/-- Nobody has taken the runner, and nothing has happened. -/
structure Untaken (s : System) (events : List (Nat × Signal)) : Prop where
  tag : s.cells.tag = .unbound
  events : events = []
  based : Based (fun _ => []) s.frames

/-- A call of a thread has taken the runner, and all that happened, happened there. -/
structure TakenBy (owner : Owner) (thread : Nat) (s : System) (events : List (Nat × Signal)) :
    Prop where
  tag : s.cells.tag ≠ .unbound
  alone : ∀ e ∈ events, e.1 = thread
  stands : ∃ core, Stands s.cells.running owner (events.map (·.2)) core ∧
    Based (fun u => if u = thread then core else []) s.frames

/-- What holds of a runner after the events, when it was taken as told. -/
def Inv (s : System) (events : List (Nat × Signal)) : Option (Owner × Nat) → Prop
  | none => Untaken s events
  | some (owner, thread) => TakenBy owner thread s events

theorem untaken_init (threads layers : Nat) : Untaken (.init threads layers) [] where
  tag := rfl
  events := rfl
  based := by
    intro u stack hu
    obtain rfl : stack = [] := List.eq_of_mem_replicate (List.mem_of_getElem? hu)
    exact .alone

theorem Untaken.step (h : Untaken s events) (hs : s.step t move = some (signals, s')) :
    Inv s' (events ++ eventsOf (signals.map (t, ·))) (taken t s.cells s'.cells) := by
  obtain ⟨stack, stack', hstack, hframes, hstep⟩ := System.step_cases hs
  have hother : stack = [] → ∃ call, move = .call call := fun hnil =>
    call_of_stepThread_nil (hnil ▸ hstep)
  obtain ⟨hquiet, hafter⟩ := (h.based t stack hstack).step hstep hother
  rw [eventsOf_map, hquiet, List.map_nil, List.append_nil]
  rcases hafter with ⟨hover, hc⟩ | ⟨owner, htag, htag', rfl⟩
  · have hunbound := hc.tag.2 h.tag
    rw [taken_of_unbound hunbound]
    exact ⟨hunbound, h.events, hframes ▸ h.based.set (fun _ _ => rfl) hover⟩
  · rw [taken_of_tag htag htag']
    refine ⟨?_, ?_, [owner.first], ?_, ?_⟩
    · rw [htag']
      cases owner <;> exact Tag.noConfusion
    · rw [h.events]
      exact fun e he => absurd he List.not_mem_nil
    · rw [h.events]
      exact Stands.first owner
    · rw [hframes]
      refine h.based.set (fun u hne => if_neg hne) ?_
      rw [if_pos rfl]
      exact .alone

theorem TakenBy.step {owner : Owner} {thread : Nat} (h : TakenBy owner thread s events)
    (hs : s.step t move = some (signals, s')) :
    TakenBy owner thread s' (events ++ eventsOf (signals.map (t, ·))) := by
  obtain ⟨stack, stack', hstack, hframes, hstep⟩ := System.step_cases hs
  obtain ⟨core, hstands, hbased⟩ := h.stands
  have hover := hbased t stack hstack
  rw [eventsOf_map]
  by_cases hown : t = thread ∧ stack = core ∧ ∀ call, move ≠ .call call
  · obtain ⟨rfl, rfl, hmove⟩ := hown
    obtain ⟨hstands', hc⟩ := hstands.step hmove hstep
    refine ⟨mt hc.tag.1 h.tag, ?_, stack', ?_, ?_⟩
    · intro e he
      rcases List.mem_append.1 he with hold | hnew
      · exact h.alone e hold
      · obtain ⟨signal, -, rfl⟩ := List.mem_map.1 hnew
        rfl
    · rw [List.map_append, map_snd_map]
      exact hstands'
    · rw [hframes]
      refine hbased.set (fun u hne => by rw [if_neg hne, if_neg hne]) ?_
      rw [if_pos rfl]
      exact .alone
  · have hother : stack = (if t = thread then core else []) → ∃ call, move = .call call := by
      intro hbase
      split at hbase
      · next ht =>
        refine Classical.byContradiction fun hcall => hown ⟨ht, hbase, fun call heq => ?_⟩
        exact hcall ⟨call, heq⟩
      · exact call_of_stepThread_nil (hbase ▸ hstep)
    obtain ⟨hquiet, hafter⟩ := hover.step hstep hother
    rw [hquiet, List.map_nil, List.append_nil]
    rcases hafter with ⟨hover', hc⟩ | ⟨_, htag, -⟩
    · refine ⟨mt hc.tag.1 h.tag, h.alone, core, hstands.later hc.running, ?_⟩
      rw [hframes]
      exact hbased.set (fun _ _ => rfl) hover'
    · exact absurd htag h.tag

theorem inv_step {taker : Option (Owner × Nat)} (h : Inv s events taker)
    (hs : s.step t move = some (signals, s')) :
    Inv s' (events ++ eventsOf (signals.map (t, ·))) (taker.or (taken t s.cells s'.cells)) := by
  cases taker with
  | none => exact Untaken.step h hs
  | some taker => exact TakenBy.step h hs

theorem inv_steps {taker : Option (Owner × Nat)} (h : Inv s events taker)
    {moves : List (Nat × Move)} {signals : List (Nat × Signal)}
    (hs : s.steps moves = some (signals, s')) :
    Inv s' (events ++ eventsOf signals) (taker.or (s.owner moves)) := by
  induction moves generalizing s events taker signals with
  | nil =>
    cases hs
    simpa [System.owner, eventsOf] using h
  | cons move moves ih =>
    obtain ⟨t, move⟩ := move
    simp only [System.steps, bind, Option.bind_eq_some_iff, pure] at hs
    obtain ⟨⟨first, s₁⟩, hstep, ⟨later, s₂⟩, hsteps, hs⟩ := hs
    cases hs
    have hrest := ih (inv_step h hstep) hsteps
    rw [List.append_assoc, ← eventsOf_append, Option.or_assoc] at hrest
    simpa only [System.owner, hstep] using hrest

/-! ## One life -/

/-- In every run of any number of threads, whatever the callbacks and the handler do and
however they end: nothing happens before a call takes the runner; from then on everything
happens on the thread of that call, in the order of its life, so that no callback begins
while another callback or a report is in progress; and the start and the close begin at
most once. -/
theorem events_unfold_one_life (threads layers : Nat) {moves : List (Nat × Move)}
    {signals : List (Nat × Signal)}
    (hs : (System.init threads layers).steps moves = some (signals, s)) :
    match (System.init threads layers).owner moves with
    | none => eventsOf signals = []
    | some (owner, thread) =>
      let events := (eventsOf signals).map (·.2)
      (∀ e ∈ eventsOf signals, e.1 = thread) ∧ Unfolds owner events ∧
        events.count (.began .onStart) ≤ 1 ∧ events.count (.began .onClose) ≤ 1 := by
  have hinit : Inv (.init threads layers) [] none := untaken_init threads layers
  have hinv := inv_steps hinit hs
  rw [List.nil_append, Option.none_or] at hinv
  split
  · next htaker =>
    rw [htaker] at hinv
    exact hinv.events
  · next owner thread htaker =>
    rw [htaker] at hinv
    obtain ⟨core, hstands, -⟩ := hinv.stands
    have hunfolds := hstands.unfolds
    exact ⟨hinv.alone, hunfolds, hunfolds.count_began_le Callback.noConfusion,
      hunfolds.count_began_le Callback.noConfusion⟩

/-- The start fails while another thread closes the runner, and the handler, which counts
in one layer, cancels the runner and then panics. -/
theorem one_life_cut_short :
    let e : AgentError := .message "no feed"
    let moves : List (Nat × Move) :=
      [(0, .call .run), (1, .call .close), (0, .go), (1, .go), (1, .go), (0, .go), (0, .go),
        (0, .finish (.error e)), (0, .go), (0, .go), (0, .call .cancel), (0, .go), (0, .go),
        (0, .settle (some .other)), (0, .go), (1, .go), (0, .go)]
    let events : List Signal :=
      [.began .onStart, .ended .onStart (.error e), .reported e, .settled (some .other)]
    ∃ signals s, (System.init 2 1).steps moves = some (signals, s) ∧
      (System.init 2 1).owner moves = some (.run, 0) ∧ (eventsOf signals).map (·.2) = events ∧
      (∀ e ∈ eventsOf signals, e.1 = 0) ∧ Unfolds .run events := by
  intro e moves events
  have howner : (System.init 2 1).owner moves = some (.run, 0) := by decide +kernel
  have hevents : ((System.init 2 1).steps moves).map (fun r => (eventsOf r.1).map (·.2)) =
      some events := by decide +kernel
  obtain ⟨⟨signals, s⟩, hsteps, hevents⟩ := Option.map_eq_some_iff.1 hevents
  have hlife := events_unfold_one_life 2 1 hsteps
  rw [howner] at hlife
  exact ⟨signals, s, hsteps, howner, hevents, hlife.1, hevents ▸ hlife.2.1⟩

end RingTransport.Runner
