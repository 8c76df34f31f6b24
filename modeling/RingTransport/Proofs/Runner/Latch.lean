/-
  The latch of a runner. A thread that stands between locking and unlocking is the holder of
  the lock and knows the flag (`Knows`); no other thread changes either, though a sleeper may
  wake up meanwhile. Main facts: what a step does to the latch (`stepThread_latch`), and that in
  every run, once the flag is up, those still asleep are about to be woken by the holder
  (`Latched`).
-/
import RingTransport.Proofs.Runner.LifeCycle

namespace RingTransport.Runner

/-! ## Stacks and the lock -/

/-- The thread stands between locking and unlocking. -/
def isLocked : List Frame → Bool
  | .close .loadDone :: _ | .close .sleep :: _ | .close .unlock :: _ => true
  | .release _ .storeDone _ :: _ | .release _ .wake _ :: _ | .release _ .unlock _ :: _ => true
  | _ => false

/-- The thread is about to wake the sleepers. -/
def isWaking : List Frame → Bool
  | .release _ .wake _ :: _ => true
  | _ => false

/-- What a thread knows of the latch from where it stands. -/
def Knows (me : Nat) (l : Latch) : List Frame → Prop
  | .close .loadDone :: _ | .release _ .storeDone _ :: _ => l.holder = some me
  | .close .sleep :: _ => l.holder = some me ∧ l.done = false
  | .close .unlock :: _ | .release _ .wake _ :: _ | .release _ .unlock _ :: _ =>
    l.holder = some me ∧ l.done = true
  | _ => True

variable {me : Nat} {l l' : Latch} {stack stack' : List Frame}

theorem knows_of_not_locked (h : isLocked stack = false) : Knows me l stack := by
  unfold Knows
  split <;> first | cases h | exact trivial

theorem Knows.holder_eq (h : Knows me l stack) (hlocked : isLocked stack = true) :
    l.holder = some me := by
  unfold isLocked at hlocked
  split at hlocked
  · exact h
  · exact h.1
  · exact h.1
  · exact h
  · exact h.1
  · exact h.1
  · cases hlocked

theorem Knows.of_eq (h : Knows me l stack) (hholder : l'.holder = l.holder)
    (hdone : l'.done = l.done) : Knows me l' stack := by
  unfold Knows at h ⊢
  rw [hholder, hdone]
  exact h

theorem isLocked_of_isWaking (h : isWaking stack = true) : isLocked stack = true := by
  unfold isWaking at h
  split at h
  · rfl
  · cases h

theorem isWaking_of_not_locked (h : isLocked stack = false) : isWaking stack = false := by
  cases hwaking : isWaking stack with
  | false => rfl
  | true => rw [isLocked_of_isWaking hwaking] at h; cases h

theorem isLocked_of_inControl (h : inControl stack = true) : isLocked stack = false := by
  cases stack with
  | nil => rfl
  | cons f rest =>
    cases f with
    | callback | handling => rfl
    | _ => cases h

/-- The thread stands in no close and in no release. -/
def isAway : List Frame → Bool
  | .close _ :: _ | .release _ _ _ :: _ => false
  | _ => true

theorem away_cases (stack : List Frame) :
    (∃ stage core, stack = .close stage :: core) ∨
      (∃ owner stage panic core, stack = .release owner stage panic :: core) ∨
      isAway stack = true := by
  cases stack with
  | nil => exact .inr (.inr rfl)
  | cons f core =>
    cases f with
    | close stage => exact .inl ⟨stage, core, rfl⟩
    | release owner stage panic => exact .inr (.inl ⟨owner, stage, panic, core, rfl⟩)
    | _ => exact .inr (.inr rfl)

theorem not_locked_of_away (h : isAway stack = true) : isLocked stack = false := by
  unfold isLocked
  split <;> first | cases h | rfl

/-! ## Steps of one thread -/

/-- What a step of a thread does to the latch, and what the thread knows after it. -/
structure LatchStep (me : Nat) (l l' : Latch) (stack stack' : List Frame) : Prop where
  knows : Knows me l' stack'
  alone : l'.holder = l.holder ∧ l'.done = l.done ∨ l.holder = none ∨ l.holder = some me
  waking : l'.done = true → l'.sleepers ≠ [] →
    isWaking stack' = true ∨ l.done = true ∧ l.sleepers ≠ [] ∧ isWaking stack = false

/-- A step that has nothing to do with the latch. -/
theorem LatchStep.away (h : isWaking stack = false) (h' : isLocked stack' = false) :
    LatchStep me l l stack stack' where
  knows := knows_of_not_locked h'
  alone := .inl ⟨rfl, rfl⟩
  waking := fun hdone hsleepers => .inr ⟨hdone, hsleepers, h⟩

theorem LatchStep.locks (hfree : l.holder = none) (h : isWaking stack = false)
    (hknows : Knows me { l with holder := some me } stack') :
    LatchStep me l { l with holder := some me } stack stack' where
  knows := hknows
  alone := .inr (.inl hfree)
  waking := fun hdone hsleepers => .inr ⟨hdone, hsleepers, h⟩

theorem LatchStep.unlocks (hmine : l.holder = some me) (h : isWaking stack = false)
    (h' : isLocked stack' = false) : LatchStep me l { l with holder := none } stack stack' where
  knows := knows_of_not_locked h'
  alone := .inr (.inr hmine)
  waking := fun hdone hsleepers => .inr ⟨hdone, hsleepers, h⟩

variable {c c' : Cells} {core : List Frame} {signals : List Signal}

theorem CloseStep.latch {move : Move} {stage : CloseStage}
    (h : CloseStep me c core move stage c' stack' signals)
    (hknows : Knows me c.latch (.close stage :: core)) (hcore : isLocked core = false) :
    LatchStep me c.latch c'.latch (.close stage :: core) stack' := by
  cases h with
  | findsClosed | isClosed | isSelf => exact .away rfl hcore
  | locks hfree => exact .locks hfree rfl rfl
  | awakes _ hfree => exact .locks hfree rfl rfl
  | isDone hdone | notDone hdone =>
    exact ⟨⟨hknows, hdone⟩, .inl ⟨rfl, rfl⟩, fun hdone hsleepers => .inr ⟨hdone, hsleepers, rfl⟩⟩
  | sleeps =>
    refine ⟨trivial, .inr (.inr hknows.1), fun hdone => ?_⟩
    have hdown : c.latch.done = false := hknows.2
    exact Bool.noConfusion (hdown.symm.trans hdone)
  | stirs =>
    -- the lock may be another thread's meanwhile, but only the sleepers change
    refine ⟨trivial, .inl ⟨rfl, rfl⟩, fun hdone hsleepers => .inr ⟨hdone, fun hnil => ?_, rfl⟩⟩
    exact hsleepers (congrArg (List.erase · me) hnil)
  | unlocks => exact .unlocks hknows.1 rfl hcore
  | _ => exact .away rfl rfl

theorem ReleaseStep.latch {owner : Owner} {stage : ReleaseStage} {panic : Option Payload}
    (h : ReleaseStep me c core owner panic stage c' stack' signals)
    (hknows : Knows me c.latch (.release owner stage panic :: core))
    (hcore : isLocked core = false) :
    LatchStep me c.latch c'.latch (.release owner stage panic :: core) stack' := by
  cases h with
  | storesClosed => exact .away rfl rfl
  | locks hfree => exact .locks hfree rfl rfl
  | storesDone => exact ⟨⟨hknows, rfl⟩, .inr (.inr hknows), fun _ _ => .inl rfl⟩
  | wakes => exact ⟨hknows, .inr (.inr hknows.1), fun _ hsleepers => absurd rfl hsleepers⟩
  | unlocks => exact .unlocks hknows.1 rfl hcore

theorem stepRun_away {stage : RunStage}
    (hs : stepRun me c core stage = some (c', stack', signals)) :
    c'.latch = c.latch ∧ (isLocked core = false → isLocked stack' = false) := by
  cases stage with
  | bind =>
    simp only [stepRun] at hs
    split at hs
    · cases hs
      exact ⟨rfl, fun _ => rfl⟩
    · cases hs
      exact ⟨rfl, id⟩
  | loadRunning | loadCancelled =>
    simp only [stepRun] at hs
    cases hs
    refine ⟨rfl, fun _ => ?_⟩
    split <;> rfl
  | inStart | startReport | inWork | workReport => cases hs
  | _ =>
    cases hs
    exact ⟨rfl, fun _ => rfl⟩

theorem isLocked_afterCallback {handler : Handler} {result : Except AgentError Nat}
    (h : afterCallback handler result core = some stack') : isLocked stack' = false := by
  unfold afterCallback at h
  repeat' split at h
  all_goals
    cases h
    try rfl

theorem isLocked_afterReport {panic : Option Payload}
    (h : afterReport panic core = some stack') : isLocked stack' = false := by
  unfold afterReport at h
  repeat' split at h
  all_goals
    cases h
    try rfl

/-- A step of a thread that stands in no close and in no release leaves the latch as it is, and
does not bring the thread inside. -/
theorem stepThread_away {handler : Handler} {move : Move} (haway : isAway stack = true)
    (hs : stepThread handler me c stack move = some (c', stack', signals)) :
    c'.latch = c.latch ∧ (isLocked stack.tail = false → isLocked stack' = false) := by
  cases move with
  | call call =>
    simp only [stepThread] at hs
    split at hs
    · cases hs
      exact ⟨rfl, fun _ => by cases call <;> rfl⟩
    · cases hs
  | finish o =>
    simp only [stepThread] at hs
    split at hs
    · obtain ⟨_, hafter, hs⟩ := Option.map_eq_some_iff.1 hs
      cases hs
      exact ⟨rfl, fun _ => isLocked_afterCallback hafter⟩
    · cases hs
  | settle panic =>
    simp only [stepThread] at hs
    split at hs
    · obtain ⟨_, hafter, hs⟩ := Option.map_eq_some_iff.1 hs
      cases hs
      exact ⟨rfl, fun _ => isLocked_afterReport hafter⟩
    · cases hs
  | stir =>
    simp only [stepThread] at hs
    split at hs
    · cases haway
    · cases hs
  | go =>
    cases stack with
    | nil => cases hs
    | cons f core =>
      cases f with
      | close | release => cases haway
      | run stage => exact stepRun_away hs
      | teardown owner stage =>
        cases stage with
        | inClose | closeReport => cases hs
        | closeDue | announce => cases hs; exact ⟨rfl, fun _ => rfl⟩
      | cancel stage =>
        cases stage with
        | storeCancelled => cases hs; exact ⟨rfl, fun _ => rfl⟩
        | unpark => cases hs; exact ⟨rfl, id⟩
      | observe stage =>
        obtain ⟨rfl, rfl | ⟨later, rfl⟩⟩ := stepObserve_eq hs
        · exact ⟨rfl, id⟩
        · exact ⟨rfl, fun _ => rfl⟩
      | report e layers =>
        cases layers with
        | innermost | counted => cases hs; exact ⟨rfl, fun _ => rfl⟩
      | callback | handling => cases hs

/-- What a step of a thread does to the latch. -/
theorem stepThread_latch {handler : Handler} {move : Move} (hknows : Knows me c.latch stack)
    (htail : isLocked stack.tail = false)
    (hs : stepThread handler me c stack move = some (c', stack', signals)) :
    LatchStep me c.latch c'.latch stack stack' := by
  rcases away_cases stack with ⟨stage, core, rfl⟩ | ⟨owner, stage, panic, core, rfl⟩ | haway
  · exact (stepThread_close_iff.1 hs).latch hknows htail
  · exact (stepThread_release_iff.1 hs).2.latch hknows htail
  · obtain ⟨hlatch, hout⟩ := stepThread_away haway hs
    rw [hlatch]
    exact .away (isWaking_of_not_locked (not_locked_of_away haway)) (hout htail)

/-! ## All threads -/

/-- What is known of the latch in every run. -/
structure Latched (s : System) : Prop where
  knows : ∀ (t : Nat) (stack : List Frame), s.frames[t]? = some stack → Knows t s.cells.latch stack
  /-- Those who sleep on after the flag is raised are about to be woken. -/
  waking : s.cells.latch.done = true → s.cells.latch.sleepers ≠ [] →
    ∃ (t : Nat) (stack : List Frame), s.frames[t]? = some stack ∧ isWaking stack = true

variable {s s' : System} {t : Nat} {move : Move}

/-- A step, by the stack of each thread before and after it. -/
theorem System.step_frames (h : s.step t move = some (signals, s')) :
    ∃ stack stack', s.frames[t]? = some stack ∧ s'.frames[t]? = some stack' ∧
      (∀ u, u ≠ t → s'.frames[u]? = s.frames[u]?) ∧
      stepThread s.handler t s.cells stack move = some (s'.cells, stack', signals) := by
  obtain ⟨stack, stack', hstack, hframes, hstep⟩ := System.step_cases h
  obtain ⟨ht, -⟩ := List.getElem?_eq_some_iff.1 hstack
  refine ⟨stack, stack', hstack, ?_, fun u hne => ?_, hstep⟩
  · rw [hframes, List.getElem?_set_self ht]
  · rw [hframes, List.getElem?_set_ne hne.symm]

theorem latched_init (threads layers : Nat) : Latched (.init threads layers) where
  knows := by
    intro t stack ht
    obtain rfl : stack = [] := List.eq_of_mem_replicate (List.mem_of_getElem? ht)
    exact trivial
  waking := nofun

theorem Latched.step (h : Latched s)
    (htail : ∀ stack, s.frames[t]? = some stack → isLocked stack.tail = false)
    (hs : s.step t move = some (signals, s')) : Latched s' := by
  obtain ⟨stack, stack', hstack, hself, hothers, hstep⟩ := System.step_frames hs
  have hlatch := stepThread_latch (h.knows t stack hstack) (htail stack hstack) hstep
  refine ⟨fun u other hother => ?_, fun hdone hsleepers => ?_⟩
  · by_cases hu : u = t
    · subst hu
      obtain rfl : stack' = other := Option.some.inj (hself.symm.trans hother)
      exact hlatch.knows
    · rw [hothers u hu] at hother
      have hknows := h.knows u other hother
      rcases hlatch.alone with ⟨hholder, hdone⟩ | hholder
      · exact hknows.of_eq hholder hdone
      · -- the step was the holder's, or the lock was free, so `u` does not stand inside
        refine knows_of_not_locked (Bool.eq_false_iff.2 fun hlocked => ?_)
        rw [hknows.holder_eq hlocked] at hholder
        rcases hholder with hfree | hmine
        · cases hfree
        · exact hu (Option.some.inj hmine)
  · rcases hlatch.waking hdone hsleepers with hnew | ⟨hdone₀, hsleepers₀, hold⟩
    · exact ⟨t, stack', hself, hnew⟩
    · obtain ⟨u, other, hother, hwaking⟩ := h.waking hdone₀ hsleepers₀
      have hu : u ≠ t := by
        rintro rfl
        obtain rfl : stack = other := Option.some.inj (hstack.symm.trans hother)
        rw [hold] at hwaking
        cases hwaking
      exact ⟨u, other, (hothers u hu).trans hother, hwaking⟩

end RingTransport.Runner
