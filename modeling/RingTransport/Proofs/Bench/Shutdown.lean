/-
  How the pipeline comes to its end. Once the main thread has left its loop it closes the runner
  and waits for the worker, and the two can only be held up by each other. Each of their turns
  passes or brings the end nearer (`Ending.nearer`), and never do both let their turns pass before
  the main thread is finished (`Ending.not_stuck`). Main fact: the main thread finishes if it and
  the worker get turns again and again (`Fair.finishes`).
-/
import RingTransport.Proofs.Bench.Balance
import RingTransport.Proofs.Ring.Completion
import RingTransport.Proofs.Runner.Onward
import RingTransport.Proofs.Runner.Release

namespace RingTransport.Bench

open Runner Threads

variable {owner : Owner} {handler : Handler} {me : Nat} {c c' : Cells} {stack stack' : List Frame}
  {signals : List Runner.Signal}

/-! ## The latch -/

theorem Tidy.isLocked_tail (h : Tidy owner stack) : isLocked stack.tail = false := by
  cases h <;> rfl

/-- A thread that cannot go on waits for the lock, or sleeps. -/
theorem Tidy.blocked (h : Tidy owner stack) (hin : stack ≠ [])
    (hs : stepThread handler me c stack (nextMove stack) = none) :
    isLocked stack = false ∧
      (c.latch.holder ≠ none ∨
        owner = .close ∧ stack = [.close .asleep] ∧ me ∈ c.latch.sleepers) := by
  cases h with
  | out => exact absurd rfl hin
  | start | work | closeDue | last | announce => cases hs
  | @run stage hstage =>
    cases stage with
    | bind =>
      simp only [nextMove, stepThread, stepRun] at hs
      split at hs <;> cases hs
    | storeHandle | startDue | loadRunning | workDue | loadCancelled | stop => cases hs
    | _ => cases hstage
  | @close stage =>
    rcases stage.goes_or_waits me c [] with ⟨_, _, _, hgo⟩ | ⟨hstage, hwhy⟩
    · cases hs.symm.trans (stepThread_close_iff.2 hgo)
    · refine ⟨by rcases hstage with rfl | rfl <;> rfl, hwhy.imp_right ?_⟩
      rintro ⟨rfl, hsleeps⟩
      exact ⟨rfl, rfl, hsleeps⟩
  | @release _ stage =>
    rcases stage.goes_or_waits me c [] owner none with ⟨_, _, _, hgo⟩ | ⟨rfl, hheld⟩
    · cases hs.symm.trans (stepThread_release_iff.2 ⟨rfl, hgo⟩)
    · exact ⟨rfl, .inl hheld⟩

/-- The main thread has found the runner bound, and waits for the worker. -/
def isWaiting : List Frame → Bool
  | .close .storeStopped :: _ | .close .swap :: _ => false
  | .close _ :: _ => true
  | _ => false

/-- The worker binds the runner with its first step, and raises the flag before its last. -/
theorem Goes.serves_bound (h : Goes me c .run stack c' stack') (hknows : Knows me c.latch stack) :
    stack' ≠ [.run .bind] ∧
      (stack = [.run .bind] ∧ (stack' ≠ [] ∨ c'.tag = c.tag) ∨
        c'.tag = c.tag ∧ (stack' = [] → c'.latch.done = true)) := by
  cases h with
  | binds => exact ⟨nofun, .inl ⟨rfl, .inl nofun⟩⟩
  | ignored => exact ⟨nofun, .inl ⟨rfl, .inr rfl⟩⟩
  | releases h =>
    cases h with
    | unlocks => exact ⟨nofun, .inr ⟨rfl, fun _ => hknows.2⟩⟩
    | _ => exact ⟨nofun, .inr ⟨rfl, nofun⟩⟩
  | _ => exact ⟨nofun, .inr ⟨rfl, nofun⟩⟩

/-- The main thread waits only if it has found the runner bound. -/
theorem Goes.closes_bound (h : Goes me c .close stack c' stack')
    (hwaits : c'.tag = .bound ∨ isWaiting stack' = true) :
    c.tag = .bound ∨ isWaiting stack = true := by
  cases h with
  | closes h =>
    cases h with
    | findsUnbound =>
      rcases hwaits with hbound | hwaits
      · cases hbound
      · cases hwaits
    | findsBound htag => exact .inl htag
    | storesStopped | findsClosed => exact hwaits
    | _ => exact .inr rfl
  | releases h => cases h <;> exact hwaits
  | _ => exact hwaits

/-! ## Steps that are left -/

/-- How many steps of the worker lead out of its call of `run`, once the runner is stopped;
`work` counts those of the job. -/
def serveLeft (work : Nat) : List Frame → Nat
  | .release _ stage _ :: _ => stage.stepsBack
  | .teardown _ .announce :: _ => 6
  | .callback .onClose :: _ => 7
  | .teardown _ .closeDue :: _ => 8
  | .run .loadRunning :: _ => 9
  | .run .stop :: _ | .callback .onStart :: _ => 10
  | .run .loadCancelled :: _ | .run .startDue :: _ => 11
  | .run .storeHandle :: _ => 12
  | .run .bind :: _ => 13
  | .callback .doWork :: _ => work + 12
  | .run .workDue :: _ => work + 13
  | _ => 0

/-- How many steps of the main thread lead out of its call of `close`, if it sleeps at most
once. -/
def closeLeft (sleeps : Prop) [Decidable sleeps] : List Frame → Nat
  | .release _ stage _ :: _ => stage.stepsBack
  | .teardown _ .announce :: _ => 6
  | .callback .onClose :: _ => 7
  | .teardown _ .closeDue :: _ => 8
  | .close .unlock :: _ => 1
  | .close .sleep :: _ => 3
  | .close .loadDone :: _ => 4
  | .close .asleep :: _ => if sleeps then 2 else 5
  | .close .lock :: _ => 6
  | .close .unpark :: _ => 7
  | .close .loadHandle :: _ => 8
  | .close .loadClosed :: _ => 9
  | .close .swap :: _ => 10
  | .close .storeStopped :: _ => 11
  | _ => 0

theorem closeLeft_le (sleeps sleeps' : Prop) [Decidable sleeps] [Decidable sleeps']
    (stack : List Frame) : closeLeft sleeps stack ≤ closeLeft sleeps' stack + 3 := by
  unfold closeLeft
  split <;> first | omega | (split <;> split <;> omega)

/-- Each step of the worker brings it nearer to the end of its call. -/
theorem Goes.serve_nearer (h : Goes me c .run stack c' stack')
    (haway : stack ≠ [.callback .doWork, .run .inWork]) (hstopped : c.running = false)
    (work : Nat) : serveLeft work stack' < serveLeft work stack := by
  cases h with
  | worked => exact absurd rfl haway
  | goesOn hrunning => cases hstopped.symm.trans hrunning
  | works => exact Nat.lt_succ_self _
  | releases h => cases h <;> simp [serveLeft, ReleaseStage.stepsBack]
  | _ => simp [serveLeft, ReleaseStage.stepsBack]

/-- Each step of the main thread brings it nearer to the end of its call. -/
theorem Goes.close_nearer (h : Goes me c .close stack c' stack') :
    closeLeft (me ∈ c'.latch.sleepers) stack' < closeLeft (me ∈ c.latch.sleepers) stack := by
  cases h with
  | closes h =>
    cases h with
    | awakes hawake => simp [closeLeft, hawake]
    | _ => simp [closeLeft]
  | releases h => cases h <;> simp [closeLeft, ReleaseStage.stepsBack]
  | _ => simp [closeLeft, ReleaseStage.stepsBack]

/-! ## All that every run keeps -/

namespace Pipeline

variable {cap : Capacity} {w : Workload} {s s' : Pipeline cap}
  {closer server closer' server' : List Frame} {turn : Turn} {wins : List (Nat × Nat)}
  {log : List (Threads.Signal Parcel)}

/-- The latch of the runner, and a main thread that waits for the worker to raise its flag. -/
structure Watched (s : Pipeline cap) (closer server : List Frame) : Prop where
  latched : Latched s.runner
  holding : Holding s.runner
  bound : s.runner.cells.tag = .bound ∨ isWaiting closer = true →
    s.launched = true ∧ server ≠ [.run .bind] ∧
      (server = [] → s.runner.cells.latch.done = true)

theorem watched_init (w : Workload) : Watched (init w : Pipeline cap) [] [] where
  latched := latched_init 2 1
  holding := holding_init 2 1
  bound := by
    rintro (hbound | hwaits)
    · cases hbound
    · cases hwaits

theorem Orderly.isLocked_tail (h : Orderly s closer server) {t : Nat} (stack : List Frame)
    (hstack : s.runner.frames[t]? = some stack) : isLocked stack.tail = false := by
  rw [h.frames] at hstack
  rcases List.mem_pair.1 (List.mem_of_getElem? hstack) with rfl | rfl
  · exact h.closes.isLocked_tail
  · exact h.serves.isLocked_tail

theorem Watched.turned (h : Watched s closer server) (ho : Orderly s closer server)
    (ht : Turned w s closer server turn s' closer' server') : Watched s' closer' server' := by
  have hrunner : Latched s'.runner ∧ Holding s'.runner := by
    rcases ht.runner_step ho with hsame | ⟨t, move, signals, hstep⟩
    · rw [hsame]
      exact ⟨h.latched, h.holding⟩
    · exact ⟨h.latched.step (fun stack hstack => ho.isLocked_tail stack hstack) hstep,
        h.holding.step hstep⟩
  refine ⟨hrunner.1, hrunner.2, ?_⟩
  have hbound := h.bound
  cases ht with
  | passed | produced | advanced => exact hbound
  | worked hin hwork =>
    cases hwork with
    | _ => exact hbound
  | launched hout hnew =>
    intro hwaits
    cases hnew.symm.trans (hbound hwaits).1
  | @served c server' signals hin haway hstep =>
    intro hwaits
    have hlaunched := ho.launched hin
    have hknows := h.latched.knows workerThread server ho.frames_worker
    obtain ⟨hnext, ⟨hbind, hor⟩ | ⟨htag, hdone⟩⟩ := (ho.serves.goes hstep).serves_bound hknows
    · refine ⟨hlaunched, hnext, fun hout => ?_⟩
      have htag := hor.resolve_left fun hne => hne hout
      exact absurd hbind (hbound (hwaits.imp_left htag.symm.trans)).2.1
    · exact ⟨hlaunched, hnext, hdone⟩
  | finished hin hjob =>
    intro hwaits
    refine ⟨(hbound hwaits).1, ?_, nofun⟩
    split <;> nofun
  | called hmain =>
    intro hwaits
    exact hbound (.inl (hwaits.resolve_right nofun))
  | closes hmain hstep =>
    intro hwaits
    obtain ⟨hlaunched, hnot, hdone⟩ := hbound ((ho.closes.goes hstep).closes_bound hwaits)
    exact ⟨hlaunched, hnot, fun hout => (stepThread_onward hstep).done (hdone hout)⟩

/-- The main thread has joined the worker. -/
def isServed : MainStage → Bool
  | .loadConsumed | .finished _ => true
  | _ => false

/-- The worker is waited for before the result is taken. -/
structure Awaited (s : Pipeline cap) (server : List Frame) : Prop where
  joined : isServed s.main = true → s.launched = true ∧ server = []
  result : ∀ consumed, s.main = .finished consumed → consumed = s.consumed

theorem awaited_init (w : Workload) : Awaited (init w : Pipeline cap) [] where
  joined := nofun
  result := nofun

theorem Awaited.turned (h : Awaited s server)
    (ht : Turned w s closer server turn s' closer' server') : Awaited s' server' := by
  obtain ⟨hjoined, hresult⟩ := h
  have hworks : server ≠ [] → ¬isServed s.main = true := fun hin hlate => hin (hjoined hlate).2
  cases ht with
  | passed | produced | closes => exact ⟨hjoined, hresult⟩
  | launched hout hnew =>
    refine ⟨fun hlate => ?_, hresult⟩
    cases hnew.symm.trans (hjoined hlate).1
  | served hin => exact ⟨fun hlate => absurd hlate (hworks hin), hresult⟩
  | worked hin hwork =>
    have hearly := hworks (by rw [hin]; nofun)
    cases hwork with
    | _ =>
      exact ⟨fun hlate => absurd hlate hearly,
        fun consumed hfinished => absurd (congrArg isServed hfinished) hearly⟩
  | finished hin =>
    have hearly := hworks (by rw [hin]; nofun)
    exact ⟨fun hlate => absurd hlate hearly, hresult⟩
  | called => exact ⟨nofun, nofun⟩
  | @advanced deadline main hadvance =>
    generalize hmain : s.main = stage at hadvance
    cases hadvance with
    | joinedWorker hlaunched hout => exact ⟨fun _ => ⟨hlaunched, hout⟩, nofun⟩
    | loaded =>
      refine ⟨fun _ => hjoined (congrArg isServed hmain), ?_⟩
      rintro consumed ⟨⟩
      rfl
    | _ => exact ⟨nofun, nofun⟩

/-- All that holds after every run. -/
structure Kept (w : Workload) (s : Pipeline cap) (closer server : List Frame) : Prop where
  orderly : Orderly s closer server
  watched : Watched s closer server
  balanced : ∃ wins log, Balanced w wins log s
  joined : Joined w s
  awaited : Awaited s server

theorem kept_init (w : Workload) : Kept w (init w : Pipeline cap) [] [] where
  orderly := orderly_init w
  watched := watched_init w
  balanced := ⟨[], [], balanced_init w⟩
  joined := joined_init w
  awaited := awaited_init w

theorem Kept.turned (h : Kept w s closer server)
    (ht : Turned w s closer server turn s' closer' server') : Kept w s' closer' server' := by
  obtain ⟨wins, log, hbalanced⟩ := h.balanced
  exact {
    orderly := ht.orderly h.orderly
    watched := h.watched.turned h.orderly ht
    balanced := hbalanced.turned ht
    joined := h.joined.turned hbalanced ht
    awaited := h.awaited.turned ht }

theorem Kept.run (h : Kept w s closer server) (turns : List Turn) :
    ∃ closer' server', Kept w (s.run w turns) closer' server' := by
  induction turns generalizing s closer server with
  | nil => exact ⟨closer, server, h⟩
  | cons turn turns ih =>
    obtain ⟨closer', server', ht⟩ := h.orderly.turned w turn
    exact ih (h.turned ht)

/-! ## The end in sight -/

/-- How many steps of the worker its job has still to make at most. -/
def jobLeft (s : Pipeline cap) : Nat :=
  match s.job, s.threads.consumer with
  | .start, _ => 3 * readLimit + 8
  | .reading _, some (.reading stage) => Traffic.stagesLeft s.threads.ring stage + 4
  | .reading _, _ => 4
  | .count _ _, _ => 3
  | .sum _ _, _ => 2
  | .done _, _ => 1

theorem readOn_cases (sum : UInt64) (signal : Threads.Signal Parcel) :
    (∃ x, readOn sum signal = .reading x) ∨ (∃ read x, readOn sum signal = .count read x) ∨
      ∃ read, readOn sum signal = .done read := by
  cases signal with
  | readEnded read =>
    by_cases hnone : read = 0
    · exact .inr (.inr ⟨0, if_pos hnone⟩)
    · exact .inr (.inl ⟨read, sum, if_neg hnone⟩)
  | _ => exact .inl ⟨_, rfl⟩

/-- Each step of the worker inside `doWork` brings it nearer to the end of its job. -/
theorem Working.jobLeft_lt (hwork : Working s s') (h : Balanced w wins log s) :
    s'.jobLeft < s.jobLeft := by
  cases hwork with
  | started hjob =>
    have hcall := h.accounted.call
    rw [hjob] at hcall
    rw [step_read hcall]
    simp only [jobLeft, hjob, Traffic.stagesLeft]
    omega
  | @accessed sum hjob =>
    have hcall := h.accounted.call
    have hcall' := (h.access hjob).accounted.call
    rw [hjob] at hcall
    obtain ⟨stage, hstage⟩ := hcall
    have hthreads := Traffic.step_consume hstage
    have hbefore : s.jobLeft = Traffic.stagesLeft s.threads.ring stage + 4 := by
      simp only [jobLeft, hjob, hstage]
    rw [hbefore]
    simp only at hcall'
    rcases readOn_cases sum (s.threads.step (.consume false)).1 with
      ⟨x, hnext⟩ | ⟨read, x, hnext⟩ | ⟨read, hnext⟩
    · rw [hnext] at hcall'
      obtain ⟨stage', hstage'⟩ := hcall'
      have hgoes : (s.threads.ring.readAccess false stage).1.stage? = some stage' := by
        rw [hthreads] at hstage'
        obtain ⟨_, hsome, ⟨⟩⟩ := Option.map_eq_some_iff.1 hstage'
        exact hsome
      have hless := Traffic.stagesLeft_readAccess hgoes
      simp only [jobLeft, hnext, hstage']
      rw [hthreads]
      exact Nat.add_lt_add_right hless 4
    · simp only [jobLeft, hnext]
      omega
    · simp only [jobLeft, hnext]
      omega
  | counted hjob =>
    simp only [jobLeft, hjob]
    decide
  | summed hjob =>
    simp only [jobLeft, hjob]
    decide

/-- How many steps the worker has still to make at most. -/
def serverLeft (s : Pipeline cap) (server : List Frame) : Nat :=
  if s.launched then serveLeft s.jobLeft server else 14

/-- How many steps the main thread has still to make at most. -/
def mainLeft (s : Pipeline cap) (closer : List Frame) : Nat :=
  match s.main with
  | .closing => closeLeft (mainThread ∈ s.runner.cells.latch.sleepers) closer + 3
  | .joiningWorker => 2
  | .loadConsumed => 1
  | _ => 0

/-- The worker may wake the main thread, and a step of the worker counts more than that. -/
def left (s : Pipeline cap) (closer server : List Frame) : Nat :=
  4 * s.serverLeft server + s.mainLeft closer

/-- The main thread closes the runner, or has closed it. -/
def isEnding : MainStage → Bool
  | .closing | .joiningWorker | .loadConsumed | .finished _ => true
  | _ => false

/-- The runner is stopped. -/
structure Ending (w : Workload) (s : Pipeline cap) (closer server : List Frame) : Prop where
  kept : Kept w s closer server
  stopped : s.runner.cells.running = false
  ending : isEnding s.main = true

theorem Ending.turned (h : Ending w s closer server)
    (ht : Turned w s closer server turn s' closer' server') : Ending w s' closer' server' where
  kept := h.kept.turned ht
  stopped := by
    rcases ht.runner_step h.kept.orderly with hsame | ⟨t, move, signals, hstep⟩
    · rw [hsame]
      exact h.stopped
    · exact Bool.eq_false_iff.2 fun hrunning =>
        Bool.eq_false_iff.1 h.stopped ((System.step_onward hstep).running hrunning)
  ending := by
    have hending := h.ending
    cases ht with
    | worked hin hwork =>
      cases hwork with
      | _ => exact hending
    | called => rfl
    | advanced hadvance =>
      generalize s.main = stage at hadvance hending
      cases hadvance with
      | joinedAll | joined | waited => cases hending
      | _ => rfl
    | _ => exact hending

/-- All producers are done by then. -/
theorem Ending.done (h : Ending w s closer server) :
    ∀ p < w.producers, s.producerDone w p = true := by
  have hjoined := h.kept.joined
  have hending := h.ending
  unfold Joined at hjoined
  generalize s.main = stage at hjoined hending
  cases stage with
  | joining => cases hending
  | _ => exact hjoined

theorem mainLeft_le (hmain : s'.main = s.main) (closer : List Frame) :
    s'.mainLeft closer ≤ s.mainLeft closer + 3 := by
  unfold mainLeft
  rw [hmain]
  split
  · have hle := closeLeft_le (mainThread ∈ s'.runner.cells.latch.sleepers)
      (mainThread ∈ s.runner.cells.latch.sleepers) closer
    omega
  · omega
  · omega
  · omega

theorem serverLeft_of_launched (s : Pipeline cap) (server : List Frame)
    (hlaunched : s.launched = true) : s.serverLeft server = serveLeft s.jobLeft server :=
  if_pos hlaunched

/-- A step of the worker. -/
theorem left_lt_of_worker (hserver : s'.serverLeft server' < s.serverLeft server)
    (hmain : s'.main = s.main) : left s' closer server' < left s closer server := by
  have hle := mainLeft_le hmain closer
  unfold left
  omega

/-- Each turn passes, or brings the end nearer. -/
theorem Ending.nearer (h : Ending w s closer server)
    (ht : Turned w s closer server turn s' closer' server') :
    (s' = s ∧ Passes w s closer server turn) ∨ left s' closer' server' < left s closer server := by
  have ho := h.kept.orderly
  obtain ⟨wins, log, hbalanced⟩ := h.kept.balanced
  cases ht with
  | passed hwhy => exact .inl ⟨rfl, hwhy⟩
  | @produced p spurious pub thread move hpub hthread hnext =>
    have hlt : p < w.producers := by
      rw [← hbalanced.publishing.threads]
      exact (List.getElem?_eq_some_iff.1 hthread).1
    cases hnext.symm.trans (produceNext_of_done hpub hthread (h.done p hlt) spurious)
  | launched hout hnew =>
    refine .inr (left_lt_of_worker ?_ rfl)
    rw [show s.serverLeft server = 14 from if_neg (by rw [hnew]; nofun)]
    exact Nat.lt_succ_self 13
  | @served c server' signals hin haway hstep =>
    refine .inr (left_lt_of_worker ?_ rfl)
    have hlaunched := ho.launched hin
    rw [s.serverLeft_of_launched server hlaunched]
    exact (serverLeft_of_launched _ _ hlaunched).trans_lt
      ((ho.serves.goes hstep).serve_nearer haway h.stopped s.jobLeft)
  | worked hin hwork =>
    have hlaunched := ho.launched (by rw [hin]; nofun)
    have hsame : s'.launched = s.launched ∧ s'.main = s.main := by
      cases hwork with
      | _ => exact ⟨rfl, rfl⟩
    refine .inr (left_lt_of_worker ?_ hsame.2)
    rw [s.serverLeft_of_launched server hlaunched,
      s'.serverLeft_of_launched server (hsame.1.trans hlaunched), hin]
    exact Nat.add_lt_add_right (hwork.jobLeft_lt hbalanced) 12
  | @finished read hin hjob =>
    have hlaunched := ho.launched (by rw [hin]; nofun)
    have hafter : ∀ work, serveLeft work
        [.run (if read = 0 then .loadCancelled else .loadRunning)] < s.jobLeft + 12 := by
      intro work
      split <;> simp only [serveLeft] <;> omega
    refine .inr (left_lt_of_worker ?_ rfl)
    rw [s.serverLeft_of_launched server hlaunched, hin]
    refine lt_of_eq_of_lt (serverLeft_of_launched _ _ ?_) (hafter _)
    exact hlaunched
  | called hmain =>
    have hending := h.ending
    rw [hmain] at hending
    cases hending
  | @closes deadline c closer' signals hmain hstep =>
    refine .inr ?_
    have hless := (ho.closes.goes hstep).close_nearer
    refine Nat.add_lt_add_left ?_ (4 * s.serverLeft server)
    simp only [mainLeft, withRunner, hmain]
    exact Nat.add_lt_add_right hless 3
  | @advanced deadline main hadvance =>
    refine .inr ?_
    have hending := h.ending
    refine Nat.add_lt_add_left ?_ (4 * s.serverLeft server)
    generalize hmain : s.main = stage at hadvance hending
    simp only [mainLeft, hmain]
    cases hadvance with
    | joinedAll | joined | waited => cases hending
    | closed => exact Nat.le_add_left 3 _
    | joinedWorker => exact Nat.lt_succ_self 1
    | loaded => exact Nat.lt_succ_self 0

/-- The main thread and the worker never both wait. -/
theorem Ending.not_stuck (h : Ending w s closer server) {deadline : Bool}
    (hworker : Passes w s closer server .worker)
    (hmain : Passes w s closer server (.main deadline)) :
    ∃ consumed, s.main = .finished consumed := by
  have ho := h.kept.orderly
  have hwatched := h.kept.watched
  have hidle : isLocked server = false ∧ (s.runner.cells.latch.holder ≠ none ∨
      s.launched = true ∧ server = []) := by
    cases hworker with
    | out hlaunched hout => exact ⟨by rw [hout]; rfl, .inr ⟨hlaunched, hout⟩⟩
    | served hin hstep =>
      obtain ⟨haway, hheld | ⟨howner, -, -⟩⟩ := ho.serves.blocked hin hstep
      · exact ⟨haway, .inl hheld⟩
      · cases howner
  have hbusy : isLocked closer = false ∧ ((∃ consumed, s.main = .finished consumed) ∨
      s.runner.cells.latch.holder ≠ none ∨ ¬(s.launched = true ∧ server = []) ∨
        closer = [.close .asleep] ∧ mainThread ∈ s.runner.cells.latch.sleepers) := by
    have hout : s.main ≠ .closing → isLocked closer = false := fun hne => by
      rw [Classical.byContradiction fun hin => hne (ho.closing hin)]
      rfl
    have hending := h.ending
    cases hmain with
    | joining hmain | polling hmain =>
      rw [hmain] at hending
      cases hending
    | closes hmain hin hstep =>
      obtain ⟨haway, hheld | ⟨-, hasleep, hsleeps⟩⟩ := ho.closes.blocked hin hstep
      · exact ⟨haway, .inr (.inl hheld)⟩
      · exact ⟨haway, .inr (.inr (.inr ⟨hasleep, hsleeps⟩))⟩
    | joiningWorker hmain hserves =>
      exact ⟨hout (by rw [hmain]; nofun), .inr (.inr (.inl fun hdone => hserves hdone.1 hdone.2))⟩
    | finished hmain => exact ⟨hout (by rw [hmain]; nofun), .inl ⟨_, hmain⟩⟩
  -- the holder of the lock could go on
  have hfree : s.runner.cells.latch.holder = none := by
    refine Option.eq_none_iff_forall_ne_some.2 fun t hholder => ?_
    obtain ⟨stack, hstack, hlocked⟩ := hwatched.holding t hholder
    rw [ho.frames] at hstack
    rcases List.mem_pair.1 (List.mem_of_getElem? hstack) with rfl | rfl
    · cases hbusy.1.symm.trans hlocked
    · cases hidle.1.symm.trans hlocked
  obtain ⟨hlaunched, hout⟩ := hidle.2.resolve_left fun hheld => hheld hfree
  rcases hbusy.2 with hfinished | hheld | hserves | ⟨hasleep, hsleeps⟩
  · exact hfinished
  · exact absurd hfree hheld
  · exact absurd ⟨hlaunched, hout⟩ hserves
  · -- the worker has raised the flag before it left, and nobody is left to be woken
    have hdone := (hwatched.bound (.inr (by rw [hasleep]; rfl))).2.2 hout
    obtain ⟨t, stack, hstack, hwaking⟩ :=
      hwatched.latched.waking hdone (List.ne_nil_of_mem hsleeps)
    rw [ho.frames, hasleep, hout] at hstack
    rcases List.mem_pair.1 (List.mem_of_getElem? hstack) with rfl | rfl
    · cases hwaking
    · cases hwaking

/-! ## Turns without end -/

/-- The pipeline after so many turns. -/
def after (w : Workload) (s : Pipeline cap) (schedule : Nat → Turn) (n : Nat) : Pipeline cap :=
  s.run w ((List.range n).map schedule)

variable {schedule : Nat → Turn} {n : Nat}

theorem after_succ (w : Workload) (s : Pipeline cap) (schedule : Nat → Turn) (n : Nat) :
    after w s schedule (n + 1) = ((after w s schedule n).step w (schedule n)).2 := by
  rw [after, List.range_succ, List.map_append]
  exact List.foldl_append

/-- The main thread and the worker get turns again and again. -/
structure Fair (schedule : Nat → Turn) : Prop where
  worker : ∀ n, ∃ m, n ≤ m ∧ schedule m = .worker
  main : ∀ n, ∃ m, n ≤ m ∧ ∃ deadline, schedule m = .main deadline

/-- What one thread brings about with a turn of its own, and no other turn undoes, comes about
when that thread gets turns again and again. -/
theorem reaches {P Q : Pipeline cap → Prop} {M : Turn → Prop}
    (hmine : ∀ n, ∃ m, n ≤ m ∧ M (schedule m))
    (hstep : ∀ s turn, P s → Q (s.step w turn).2 ∨ P (s.step w turn).2 ∧ ¬M turn)
    (hn : P (after w s schedule n)) : ∃ m, n ≤ m ∧ Q (after w s schedule m) := by
  obtain ⟨m, hle, hm⟩ := hmine n
  induction hk : m - n generalizing n with
  | zero =>
    obtain rfl : n = m := by omega
    rcases hstep _ (schedule n) hn with hnext | ⟨-, hnot⟩
    · exact ⟨n + 1, Nat.le_succ n, by rwa [after_succ]⟩
    · exact absurd hm hnot
  | succ k ih =>
    rcases hstep _ (schedule n) hn with hnext | ⟨hnext, -⟩
    · exact ⟨n + 1, Nat.le_succ n, by rwa [after_succ]⟩
    · rw [← after_succ] at hnext
      obtain ⟨l, hl, hQ⟩ := ih hnext (by omega) (by omega)
      exact ⟨l, Nat.le_of_succ_le hl, hQ⟩

/-- The runner is stopped, and less than so many steps are left. -/
def Within (w : Workload) (k : Nat) (s : Pipeline cap) : Prop :=
  ∃ closer server, Ending w s closer server ∧ left s closer server < k

/-- A turn that does not bring the end nearer leaves everything as it is. -/
theorem Ending.step (h : Ending w s closer server) (turn : Turn) :
    Within w (left s closer server) (s.step w turn).2 ∨
      (s.step w turn).2 = s ∧ Passes w s closer server turn := by
  obtain ⟨closer', server', ht⟩ := h.kept.orderly.turned w turn
  rcases h.nearer ht with ⟨hsame, hpasses⟩ | hless
  · exact .inr ⟨hsame, hpasses⟩
  · exact .inl ⟨closer', server', h.turned ht, hless⟩

/-- Less and less is left. -/
theorem Fair.goes_on (hfair : Fair schedule) (h : Ending w (after w s schedule n) closer server)
    (hnot : ¬∃ consumed, (after w s schedule n).main = .finished consumed) :
    ∃ m, n ≤ m ∧
      Within w (left (after w s schedule n) closer server) (after w s schedule m) := by
  generalize ht : after w s schedule n = t at h hnot ⊢
  by_cases hworker : Passes w t closer server .worker
  · refine reaches (P := (· = t)) (M := fun turn => ∃ deadline, turn = .main deadline) hfair.main
      ?_ ht
    rintro _ turn rfl
    refine (h.step turn).imp_right fun ⟨hsame, hpasses⟩ => ⟨hsame, ?_⟩
    rintro ⟨deadline, rfl⟩
    exact hnot (h.not_stuck hworker hpasses)
  · refine reaches (P := (· = t)) (M := (· = .worker)) hfair.worker ?_ ht
    rintro _ turn rfl
    refine (h.step turn).imp_right fun ⟨hsame, hpasses⟩ => ⟨hsame, ?_⟩
    rintro rfl
    exact hworker hpasses

/-- When the runner is stopped, the main thread finishes. -/
theorem Fair.finishes_ending (hfair : Fair schedule)
    (h : Ending w (after w s schedule n) closer server) :
    ∃ m consumed, (after w s schedule m).main = .finished consumed := by
  induction hk : left (after w s schedule n) closer server using Nat.strongRecOn
    generalizing n closer server with
  | ind k ih =>
    by_cases hfinished : ∃ consumed, (after w s schedule n).main = .finished consumed
    · exact ⟨n, hfinished⟩
    · obtain ⟨m, -, closer', server', hending, hless⟩ := hfair.goes_on h hfinished
      exact ih _ (hk ▸ hless) hending rfl

/-- A turn of another thread leaves the main thread where it is. -/
theorem Turned.main_eq (ht : Turned w s closer server turn s' closer' server')
    (hturn : ¬∃ deadline, turn = .main deadline) : s'.main = s.main ∧ closer' = closer := by
  cases ht with
  | called | closes | advanced => exact absurd ⟨_, rfl⟩ hturn
  | worked hin hwork =>
    cases hwork with
    | _ => exact ⟨rfl, rfl⟩
  | _ => exact ⟨rfl, rfl⟩

/-- The main thread stands as told. -/
def At (w : Workload) (P : Pipeline cap → List Frame → Prop) (s : Pipeline cap) : Prop :=
  ∃ closer server, Kept w s closer server ∧ P s closer

/-- What the main thread brings about with its next turn. -/
theorem Fair.reaches_by_main {P Q : Pipeline cap → List Frame → Prop} (hfair : Fair schedule)
    (hmain : ∀ {s s' closer closer' server server' deadline}, P s closer →
      Turned w s closer server (.main deadline) s' closer' server' → Q s' closer')
    (hother : ∀ {s s' closer}, P s closer → s'.main = s.main → s.consumed ≤ s'.consumed →
      P s' closer)
    (hn : At w P (after w s schedule n)) : ∃ m, n ≤ m ∧ At w Q (after w s schedule m) := by
  refine reaches (M := fun turn => ∃ deadline, turn = .main deadline) hfair.main ?_ hn
  rintro s turn ⟨closer, server, hkept, hP⟩
  obtain ⟨closer', server', ht⟩ := hkept.orderly.turned w turn
  by_cases hturn : ∃ deadline, turn = .main deadline
  · obtain ⟨deadline, rfl⟩ := hturn
    exact .inl ⟨closer', server', hkept.turned ht, hmain hP ht⟩
  · obtain ⟨hstays, rfl⟩ := ht.main_eq hturn
    exact .inr ⟨⟨closer', server', hkept.turned ht, hother hP hstays ht.consumed_le⟩, hturn⟩

theorem Turned.leaves_loop {deadline : Bool}
    (ht : Turned w s closer server (.main deadline) s' closer' server') (hmain : s.main = .polling)
    (hall : w.total ≤ s.consumed) : s'.main = .closeDue := by
  cases ht with
  | passed hwhy =>
    cases hwhy with
    | polling _ hless => exact absurd hless (Nat.not_lt.2 hall)
    | joining hmain' | closes hmain' | joiningWorker hmain' | finished hmain' =>
      cases hmain.symm.trans hmain'
  | called hmain' | closes hmain' => cases hmain.symm.trans hmain'
  | advanced hadvance =>
    rw [hmain] at hadvance
    cases hadvance with
    | waited => rfl

theorem Turned.calls_close {deadline : Bool}
    (ht : Turned w s closer server (.main deadline) s' closer' server')
    (hmain : s.main = .closeDue) : s'.main = .closing ∧ closer' = [.close .storeStopped] := by
  cases ht with
  | passed hwhy =>
    cases hwhy with
    | polling hmain' | joining hmain' | closes hmain' | joiningWorker hmain' | finished hmain' =>
      cases hmain.symm.trans hmain'
  | called => exact ⟨rfl, rfl⟩
  | closes hmain' => cases hmain.symm.trans hmain'
  | advanced hadvance =>
    rw [hmain] at hadvance
    cases hadvance

theorem Turned.stops {deadline : Bool}
    (ht : Turned w s closer server (.main deadline) s' closer' server')
    (hmain : s.main = .closing) (hdue : closer = [.close .storeStopped]) :
    s'.runner.cells.running = false ∧ isEnding s'.main = true := by
  subst hdue
  cases ht with
  | passed hwhy =>
    cases hwhy with
    | closes _ _ hstep => cases hstep
    | polling hmain' | joining hmain' | joiningWorker hmain' | finished hmain' =>
      cases hmain.symm.trans hmain'
  | called hmain' => cases hmain.symm.trans hmain'
  | closes _ hstep =>
    cases hstep
    exact ⟨rfl, by rw [withRunner, hmain]; rfl⟩
  | advanced hadvance =>
    rw [hmain] at hadvance
    cases hadvance with
    | closed hout => cases hout

/-- When everything is counted while the main thread looks at the counter, it finishes. -/
theorem Fair.finishes (hfair : Fair schedule) (h : Kept w s closer server)
    (hmain : s.main = .polling) (hall : w.total ≤ s.consumed) :
    ∃ n consumed, (after w s schedule n).main = .finished consumed := by
  have hstart : At w (fun s _ => s.main = .polling ∧ w.total ≤ s.consumed)
      (after w s schedule 0) := ⟨closer, server, h, hmain, hall⟩
  obtain ⟨n₁, -, hleft⟩ := hfair.reaches_by_main (Q := fun s _ => s.main = .closeDue)
    (fun hP ht => ht.leaves_loop hP.1 hP.2)
    (fun hP hsame hle => ⟨hsame.trans hP.1, hP.2.trans hle⟩) hstart
  obtain ⟨n₂, -, hcalled⟩ := hfair.reaches_by_main
    (Q := fun s closer => s.main = .closing ∧ closer = [.close .storeStopped])
    (fun hP ht => ht.calls_close hP) (fun hP hsame _ => hsame.trans hP) hleft
  obtain ⟨n₃, -, closer₃, server₃, hkept, hstopped, hending⟩ := hfair.reaches_by_main
    (Q := fun s _ => s.runner.cells.running = false ∧ isEnding s.main = true)
    (fun hP ht => ht.stops hP.1 hP.2) (fun hP hsame _ => ⟨hsame.trans hP.1, hP.2⟩) hcalled
  exact hfair.finishes_ending ⟨hkept, hstopped, hending⟩

end Pipeline

end RingTransport.Bench
