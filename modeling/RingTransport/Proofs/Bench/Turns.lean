/-
  The pipeline turn by turn. The main thread only ever closes the runner, the worker only ever
  runs it, and the agent never fails, so their stacks have few shapes (`Tidy`), few steps lead
  from one to the next (`Goes`), and nothing is reported. Main facts: in such a state each turn
  passes or is one of eight (`Orderly.turned`), and the next state is such a state again
  (`Turned.orderly`).
-/
import RingTransport.Bench.Pipeline
import RingTransport.Proofs.Runner.ClosingSteps

namespace RingTransport.Bench

open Runner Threads

/-! ## Stacks -/

/-- The stages of a `run` that is never asked to stop and whose agent never fails. -/
def isPlainStage : RunStage → Bool
  | .bind | .storeHandle | .startDue | .loadRunning | .workDue | .loadCancelled | .stop => true
  | _ => false

/-- The stacks of a thread that makes one call of a runner after the other, while no callback
fails or calls the runner. -/
inductive Tidy : Owner → List Frame → Prop
  | out {owner} : Tidy owner []
  | run {stage} (hstage : isPlainStage stage = true) : Tidy .run [.run stage]
  | start : Tidy .run [.callback .onStart, .run .inStart]
  | work : Tidy .run [.callback .doWork, .run .inWork]
  | close {stage} : Tidy .close [.close stage]
  | closeDue {owner} : Tidy owner [.teardown owner .closeDue]
  | last {owner} : Tidy owner [.callback .onClose, .teardown owner .inClose]
  | announce {owner} : Tidy owner [.teardown owner .announce]
  | release {owner stage} : Tidy owner [.release owner stage none]

/-- The next move of such a thread inside a call. -/
def nextMove : List Frame → Runner.Move
  | .callback _ :: _ => .finish (.ok 0)
  | _ => .go

/-- A step of such a thread: the stacks and the cells before and after it. -/
inductive Goes (me : Nat) (c : Cells) : Owner → List Frame → Cells → List Frame → Prop
  | binds (htag : c.tag = .unbound) :
      Goes me c .run [.run .bind] { c with tag := .bound } [.run .storeHandle]
  | ignored : Goes me c .run [.run .bind] c []
  | names :
      Goes me c .run [.run .storeHandle] { c with handle := c.handle.or (some me) }
        [.run .startDue]
  | starts : Goes me c .run [.run .startDue] c [.callback .onStart, .run .inStart]
  | started : Goes me c .run [.callback .onStart, .run .inStart] c [.run .loadRunning]
  | goesOn (hrunning : c.running = true) :
      Goes me c .run [.run .loadRunning] c [.run .workDue]
  | leavesLoop : Goes me c .run [.run .loadRunning] c [.teardown .run .closeDue]
  | works : Goes me c .run [.run .workDue] c [.callback .doWork, .run .inWork]
  | worked : Goes me c .run [.callback .doWork, .run .inWork] c [.run .loadCancelled]
  | notCancelled : Goes me c .run [.run .loadCancelled] c [.run .loadRunning]
  | cancelled : Goes me c .run [.run .loadCancelled] c [.run .stop]
  | stops : Goes me c .run [.run .stop] { c with running := false } [.run .loadRunning]
  | closes {stage c' stack' signals} (h : CloseStep me c [] .go stage c' stack' signals) :
      Goes me c .close [.close stage] c' stack'
  | closeDue {owner} :
      Goes me c owner [.teardown owner .closeDue] c [.callback .onClose, .teardown owner .inClose]
  | closed {owner} :
      Goes me c owner [.callback .onClose, .teardown owner .inClose] c [.teardown owner .announce]
  | announces {owner} :
      Goes me c owner [.teardown owner .announce] c [.release owner .storeClosed none]
  | releases {owner stage c' stack' signals}
      (h : ReleaseStep me c [] owner none stage c' stack' signals) :
      Goes me c owner [.release owner stage none] c' stack'

variable {owner : Owner} {handler : Handler} {me : Nat} {c c' : Cells} {stack stack' : List Frame}
  {signals : List Runner.Signal} {move : Runner.Move}

/-- Such a thread takes no other steps. -/
theorem Tidy.goes (h : Tidy owner stack)
    (hs : stepThread handler me c stack (nextMove stack) = some (c', stack', signals)) :
    Goes me c owner stack c' stack' := by
  cases h with
  | out => cases hs
  | start => cases hs; exact .started
  | work => cases hs; exact .worked
  | last => cases hs; exact .closed
  | closeDue => cases hs; exact .closeDue
  | announce => cases hs; exact .announces
  | @run stage hstage =>
    cases stage with
    | bind =>
      simp only [nextMove, stepThread, stepRun] at hs
      split at hs
      · next htag => cases hs; exact .binds htag
      · cases hs; exact .ignored
    | storeHandle => cases hs; exact .names
    | startDue => cases hs; exact .starts
    | workDue => cases hs; exact .works
    | stop => cases hs; exact .stops
    | loadRunning =>
      cases hs
      split
      · next hrunning => exact .goesOn hrunning
      · exact .leavesLoop
    | loadCancelled =>
      cases hs
      split
      · exact .cancelled
      · exact .notCancelled
    | _ => cases hstage
  | close => exact .closes (stepThread_close_iff.1 hs)
  | release => exact .releases (stepThread_release_iff.1 hs).2

theorem tidy_of_closeStep {stage : CloseStage}
    (h : CloseStep me c [] move stage c' stack signals) : Tidy .close stack := by
  rcases h.stack_cases with rfl | ⟨later, rfl⟩ | rfl
  · exact .out
  · exact .close
  · exact .closeDue

/-- The stacks stay tidy. -/
theorem Goes.tidy (h : Goes me c owner stack c' stack') : Tidy owner stack' := by
  cases h with
  | ignored => exact .out
  | binds | names | started | goesOn | worked | notCancelled | cancelled | stops => exact .run rfl
  | starts => exact .start
  | works => exact .work
  | leavesLoop => exact .closeDue
  | closes h => exact tidy_of_closeStep h
  | closeDue => exact .last
  | closed => exact .announce
  | announces => exact .release
  | releases h => cases h <;> first | exact .release | exact .out

/-- Nothing is counted. -/
theorem Goes.counters_eq (h : Goes me c owner stack c' stack') : c'.counters = c.counters := by
  cases h with
  | closes h | releases h => cases h <;> rfl
  | _ => rfl

/-! ## The runner of the pipeline -/

namespace Pipeline

variable {cap : Capacity} {w : Workload} {s s' : Pipeline cap} {closer server : List Frame}

/-- The pipeline when its runner is left with these cells and stacks. -/
def withRunner (s : Pipeline cap) (c : Cells) (closer server : List Frame) : Pipeline cap :=
  { s with runner := ⟨c, s.runner.handler, [closer, server], false⟩ }

/-- The main thread is in a call of `close` or in none, the worker in one of `run` or in none, and
no fault is counted. -/
structure Orderly (s : Pipeline cap) (closer server : List Frame) : Prop where
  frames : s.runner.frames = [closer, server]
  dropped : s.runner.dropped = false
  closes : Tidy .close closer
  serves : Tidy .run server
  counters : s.runner.cells.counters = [0]
  launched : server ≠ [] → s.launched = true
  working : s.job ≠ .start → server = [.callback .doWork, .run .inWork]
  closing : closer ≠ [] → s.main = .closing

theorem orderly_init (w : Workload) : Orderly (init w : Pipeline cap) [] [] where
  frames := rfl
  dropped := rfl
  closes := .out
  serves := .out
  counters := rfl
  launched := fun h => absurd rfl h
  working := fun h => absurd rfl h
  closing := fun h => absurd rfl h

/-- A step of a runner that is not dropped, by the stack of its thread. -/
theorem step_eq {runner : System} {t : Nat} (hdropped : runner.dropped = false)
    (hmove : move ≠ .call .drop) (hstack : runner.frames[t]? = some stack) :
    runner.step t move = (stepThread runner.handler t runner.cells stack move).map
      fun (c, stack, signals) =>
        (signals, ⟨c, runner.handler, runner.frames.set t stack, false⟩) := by
  have hadmits : runner.admits move = true := by
    cases move with
    | call call =>
      cases call with
      | drop => exact absurd rfl hmove
      | _ => simp [System.admits, hdropped]
    | _ => rfl
  have hdrop : (move == .call .drop) = false := beq_eq_false_iff_ne.2 hmove
  simp only [System.step, hadmits, if_true, hstack, hdropped, hdrop, Option.bind_eq_bind,
    Option.bind_some]
  cases stepThread runner.handler t runner.cells stack move <;> rfl

/-- A move of a thread around the runner. -/
theorem moveRunner_eq {t : Nat} (hdropped : s.runner.dropped = false) (hmove : move ≠ .call .drop)
    (hstack : s.runner.frames[t]? = some stack) (pace : Pace) :
    moveRunner t move pace s =
      match stepThread s.runner.handler t s.runner.cells stack move with
      | none => (.passed, s)
      | some (c, stack, _) =>
        (pace, { s with runner := ⟨c, s.runner.handler, s.runner.frames.set t stack, false⟩ }) := by
  rw [moveRunner, step_eq hdropped hmove hstack]
  cases stepThread s.runner.handler t s.runner.cells stack move <;> rfl

/-! ## Turns -/

/-- The job of a `doWork` after an access of its read. -/
def readOn (sum : UInt64) : Threads.Signal Parcel → Job
  | .handed _ parcel => .reading (sum + weight parcel)
  | .readEnded read => if read = 0 then .done 0 else .count read sum
  | _ => .reading sum

/-- A step of the worker inside `doWork`. -/
inductive Working (s : Pipeline cap) : Pipeline cap → Prop
  | started (hjob : s.job = .start) :
      Working s { s with threads := (s.threads.step (.read readLimit)).2, job := .reading 0 }
  | accessed {sum} (hjob : s.job = .reading sum) :
      Working s { s with
        threads := (s.threads.step (.consume false)).2
        job := readOn sum (s.threads.step (.consume false)).1 }
  | counted {read sum} (hjob : s.job = .count read sum) :
      Working s { s with job := .sum read sum, consumed := s.consumed + read }
  | summed {read sum} (hjob : s.job = .sum read sum) :
      Working s { s with job := .done read, checksum := s.checksum + sum }

/-- A step of the main thread away from the runner. -/
inductive Advances (w : Workload) (s : Pipeline cap) (closer server : List Frame)
    (deadline : Bool) : MainStage → MainStage → Prop
  | joinedAll : Advances w s closer server deadline (.joining w.producers) .polling
  | joined {p} (hdone : s.producerDone w p = true) :
      Advances w s closer server deadline (.joining p) (.joining (p + 1))
  | waited (hwhy : w.total ≤ s.consumed ∨ deadline = true) :
      Advances w s closer server deadline .polling .closeDue
  | closed (hout : closer = []) : Advances w s closer server deadline .closing .joiningWorker
  | joinedWorker (hlaunched : s.launched = true) (hout : server = []) :
      Advances w s closer server deadline .joiningWorker .loadConsumed
  | loaded : Advances w s closer server deadline .loadConsumed (.finished s.consumed)

/-- Why a turn passes. -/
inductive Passes (w : Workload) (s : Pipeline cap) (closer server : List Frame) : Turn → Prop
  | producer {p spurious} : Passes w s closer server (.producer p spurious)
  | out (hlaunched : s.launched = true) (hout : server = []) : Passes w s closer server .worker
  | served (hin : server ≠ [])
      (hstep : stepThread s.runner.handler workerThread s.runner.cells server (nextMove server) =
        none) :
      Passes w s closer server .worker
  | joining {deadline p} (hmain : s.main = .joining p) : Passes w s closer server (.main deadline)
  | polling {deadline} (hmain : s.main = .polling) (hless : s.consumed < w.total) :
      Passes w s closer server (.main deadline)
  | closes {deadline} (hmain : s.main = .closing) (hin : closer ≠ [])
      (hstep : stepThread s.runner.handler mainThread s.runner.cells closer (nextMove closer) =
        none) :
      Passes w s closer server (.main deadline)
  | joiningWorker {deadline} (hmain : s.main = .joiningWorker)
      (hserves : s.launched = true → server ≠ []) : Passes w s closer server (.main deadline)
  | finished {deadline consumed} (hmain : s.main = .finished consumed) :
      Passes w s closer server (.main deadline)

/-- What a turn does in an orderly state, and the stacks it leaves. -/
inductive Turned (w : Workload) (s : Pipeline cap) (closer server : List Frame) :
    Turn → Pipeline cap → List Frame → List Frame → Prop
  | passed {turn} (hwhy : Passes w s closer server turn) :
      Turned w s closer server turn s closer server
  | produced {p spurious pub thread move} (hpub : s.publishers[p]? = some pub)
      (hthread : s.threads.producers[p]? = some thread)
      (hnext : Traffic.produceNext w p pub thread spurious = some move) :
      Turned w s closer server (.producer p spurious)
        { s with
          threads := (s.threads.step move).2
          publishers := s.publishers.set p (Traffic.after w
            ((s.threads.step move).2.producers[p]?.elim 0 (·.held.length)) pub
            (s.threads.step move).1) }
        closer server
  | launched (hout : server = []) (hnew : s.launched = false) :
      Turned w s closer server .worker
        { s.withRunner s.runner.cells closer [.run .bind] with launched := true }
        closer [.run .bind]
  | served {c server' signals} (hin : server ≠ [])
      (haway : server ≠ [.callback .doWork, .run .inWork])
      (hstep : stepThread s.runner.handler workerThread s.runner.cells server (nextMove server) =
        some (c, server', signals)) :
      Turned w s closer server .worker (s.withRunner c closer server') closer server'
  | worked {next} (hin : server = [.callback .doWork, .run .inWork]) (hwork : Working s next) :
      Turned w s closer server .worker next closer server
  | finished {read} (hin : server = [.callback .doWork, .run .inWork]) (hjob : s.job = .done read) :
      Turned w s closer server .worker
        { s.withRunner s.runner.cells closer
            [.run (if read = 0 then .loadCancelled else .loadRunning)] with
          job := .start }
        closer [.run (if read = 0 then .loadCancelled else .loadRunning)]
  | called {deadline} (hmain : s.main = .closeDue) :
      Turned w s closer server (.main deadline)
        { s.withRunner s.runner.cells [.close .storeStopped] server with main := .closing }
        [.close .storeStopped] server
  | closes {deadline c closer' signals} (hmain : s.main = .closing)
      (hstep : stepThread s.runner.handler mainThread s.runner.cells closer (nextMove closer) =
        some (c, closer', signals)) :
      Turned w s closer server (.main deadline) (s.withRunner c closer' server) closer' server
  | advanced {deadline main} (h : Advances w s closer server deadline s.main main) :
      Turned w s closer server (.main deadline) { s with main } closer server

theorem Orderly.frames_worker (h : Orderly s closer server) :
    s.runner.frames[workerThread]? = some server := by
  rw [h.frames]
  rfl

theorem Orderly.frames_main (h : Orderly s closer server) :
    s.runner.frames[mainThread]? = some closer := by
  rw [h.frames]
  rfl

/-- The main thread has not called `close` yet. -/
theorem Orderly.out_of_closeDue (h : Orderly s closer server) (hmain : s.main = .closeDue) :
    closer = [] :=
  Classical.byContradiction fun hin => by cases hmain.symm.trans (h.closing hin)

theorem nextMove_ne_drop (stack : List Frame) : nextMove stack ≠ .call .drop := by
  unfold nextMove
  split <;> nofun

/-- The next move of the worker around the runner, or none. -/
theorem Orderly.moved_worker (h : Orderly s closer server) {pace : Pace} (hin : server ≠ [])
    (haway : server ≠ [.callback .doWork, .run .inWork]) :
    ∃ server', Turned w s closer server .worker
      (moveRunner workerThread (nextMove server) pace s).2 closer server' := by
  rw [moveRunner_eq h.dropped (nextMove_ne_drop server) h.frames_worker]
  cases hstep :
      stepThread s.runner.handler workerThread s.runner.cells server (nextMove server) with
  | none => exact ⟨_, .passed (.served hin hstep)⟩
  | some stepped =>
    obtain ⟨c, server', signals⟩ := stepped
    refine ⟨server', ?_⟩
    rw [h.frames]
    exact .served hin haway hstep

/-- The next move of the main thread around the runner, or none. -/
theorem Orderly.moved_main (h : Orderly s closer server) {pace : Pace} {deadline : Bool}
    (hmain : s.main = .closing) (hin : closer ≠ []) :
    ∃ closer', Turned w s closer server (.main deadline)
      (moveRunner mainThread (nextMove closer) pace s).2 closer' server := by
  rw [moveRunner_eq h.dropped (nextMove_ne_drop closer) h.frames_main]
  cases hstep : stepThread s.runner.handler mainThread s.runner.cells closer (nextMove closer) with
  | none => exact ⟨_, .passed (.closes hmain hin hstep)⟩
  | some stepped =>
    obtain ⟨c, closer', signals⟩ := stepped
    refine ⟨closer', ?_⟩
    rw [h.frames]
    exact .closes hmain hstep

theorem turned_producer (s : Pipeline cap) (w : Workload) (closer server : List Frame) (p : Nat)
    (spurious : Bool) :
    Turned w s closer server (.producer p spurious) (s.stepProducer w p spurious).2
      closer server := by
  unfold stepProducer
  cases hpub : s.publishers[p]? with
  | none => simp only [hpub]; exact .passed .producer
  | some pub =>
    cases hthread : s.threads.producers[p]? with
    | none => simp only [hpub, hthread]; exact .passed .producer
    | some thread =>
      simp only [hpub, hthread]
      cases hnext : Traffic.produceNext w p pub thread spurious with
      | none => exact .passed .producer
      | some move => exact .produced hpub hthread hnext

/-- A turn of the worker inside `doWork`. -/
theorem Orderly.turned_work (h : Orderly s closer server) (w : Workload)
    (hin : server = [.callback .doWork, .run .inWork]) :
    ∃ server', Turned w s closer server .worker s.stepJob.2 closer server' := by
  obtain ⟨threads, pubs, runner, launched, job, consumed, checksum, main⟩ := s
  cases job with
  | start => exact ⟨server, .worked hin (.started rfl)⟩
  | reading sum => exact ⟨server, .worked hin (.accessed rfl)⟩
  | count read sum => exact ⟨server, .worked hin (.counted rfl)⟩
  | sum read sum => exact ⟨server, .worked hin (.summed rfl)⟩
  | done read =>
    subst hin
    have hstep : stepThread runner.handler workerThread runner.cells
        [.callback .doWork, .run .inWork] (.finish (.ok read)) =
          some (runner.cells, [.run (if read = 0 then .loadCancelled else .loadRunning)],
            [.ended .doWork (.ok read)]) := by
      cases read <;> rfl
    have hdrop : Runner.Move.finish (.ok read) ≠ .call .drop := nofun
    have hframes : runner.frames = [closer, [.callback .doWork, .run .inWork]] := h.frames
    have hmoved := moveRunner_eq
      (s := ⟨threads, pubs, runner, launched, .start, consumed, checksum, main⟩)
      h.dropped hdrop h.frames_worker .rest
    refine ⟨[.run (if read = 0 then .loadCancelled else .loadRunning)], ?_⟩
    rw [stepJob, hmoved]
    simp only [hstep, hframes]
    exact .finished rfl rfl

theorem Orderly.turned_worker (h : Orderly s closer server) (w : Workload) :
    ∃ server', Turned w s closer server .worker s.stepWorker.2 closer server' := by
  have hstack := h.frames_worker
  unfold stepWorker
  cases h.serves with
  | out =>
    simp only [hstack]
    split
    · next hlaunched => exact ⟨_, .passed (.out hlaunched rfl)⟩
    · next hnew =>
      have hdrop : Runner.Move.call .run ≠ .call .drop := nofun
      have hmoved := moveRunner_eq (s := { s with launched := true }) h.dropped hdrop hstack .busy
      refine ⟨[.run .bind], ?_⟩
      rw [hmoved]
      simp only [h.frames]
      exact .launched rfl (Bool.eq_false_iff.2 hnew)
  | work =>
    simp only [hstack]
    exact h.turned_work w rfl
  | start | last =>
    simp only [hstack]
    exact h.moved_worker nofun nofun
  | run | closeDue | announce | release =>
    simp only [hstack]
    exact h.moved_worker nofun nofun

theorem Orderly.turned_main (h : Orderly s closer server) (w : Workload) (deadline : Bool) :
    ∃ closer', Turned w s closer server (.main deadline) (s.stepMain w deadline).2
      closer' server := by
  have hstack := h.frames_main
  unfold stepMain
  cases hmain : s.main with
  | joining p =>
    simp only
    split
    · next hlast =>
      subst hlast
      exact ⟨_, .advanced (hmain ▸ .joinedAll)⟩
    · split
      · next hdone => exact ⟨_, .advanced (hmain ▸ .joined hdone)⟩
      · exact ⟨_, .passed (.joining hmain)⟩
  | polling =>
    simp only
    split
    · next hless => exact ⟨_, .passed (.polling hmain hless.1)⟩
    · next hwhy =>
      refine ⟨_, .advanced (hmain ▸ .waited ?_)⟩
      rcases Nat.lt_or_ge s.consumed w.total with hlt | hge
      · refine .inr ?_
        cases deadline with
        | true => rfl
        | false => exact absurd ⟨hlt, rfl⟩ hwhy
      · exact .inl hge
  | closeDue =>
    obtain rfl := h.out_of_closeDue hmain
    have hdrop : Runner.Move.call .close ≠ .call .drop := nofun
    have hmoved := moveRunner_eq (s := { s with main := .closing }) h.dropped hdrop hstack .busy
    refine ⟨[.close .storeStopped], ?_⟩
    simp only
    rw [hmoved]
    simp only [h.frames]
    exact .called hmain
  | closing =>
    simp only
    cases h.closes with
    | out =>
      simp only [hstack]
      exact ⟨_, .advanced (hmain ▸ .closed rfl)⟩
    | last =>
      simp only [hstack]
      exact h.moved_main hmain nofun
    | close | closeDue | announce | release =>
      simp only [hstack]
      exact h.moved_main hmain nofun
  | joiningWorker =>
    simp only
    split
    · next hdone =>
      obtain ⟨hlaunched, hout⟩ := Bool.and_eq_true_iff.1 hdone
      rw [h.frames_worker] at hout
      exact ⟨_, .advanced (hmain ▸ .joinedWorker hlaunched (List.isEmpty_iff.1 hout))⟩
    · next hnot =>
      refine ⟨_, .passed (.joiningWorker hmain fun hlaunched hout => hnot ?_)⟩
      rw [workerDone, hlaunched, h.frames_worker, hout]
      rfl
  | loadConsumed =>
    simp only
    exact ⟨_, .advanced (hmain ▸ .loaded)⟩
  | finished consumed =>
    simp only
    exact ⟨_, .passed (.finished hmain)⟩

/-- Each turn passes or is one of these. -/
theorem Orderly.turned (h : Orderly s closer server) (w : Workload) (turn : Turn) :
    ∃ closer' server', Turned w s closer server turn (s.step w turn).2 closer' server' := by
  cases turn with
  | producer p spurious => exact ⟨closer, server, turned_producer s w closer server p spurious⟩
  | worker => exact ⟨closer, h.turned_worker w⟩
  | main deadline =>
    obtain ⟨closer', hturned⟩ := h.turned_main w deadline
    exact ⟨closer', server, hturned⟩

/-- The stacks stay tidy. -/
theorem Turned.orderly {turn : Turn} {closer' server' : List Frame}
    (ht : Turned w s closer server turn s' closer' server') (h : Orderly s closer server) :
    Orderly s' closer' server' := by
  cases ht with
  | passed => exact h
  | produced => exact { h with }
  | launched hout =>
    subst hout
    exact { h with
      frames := rfl
      dropped := rfl
      serves := .run rfl
      launched := fun _ => rfl
      working := fun hjob => by cases h.working hjob }
  | served hin haway hstep =>
    have hgoes := h.serves.goes hstep
    exact { h with
      frames := rfl
      dropped := rfl
      serves := hgoes.tidy
      counters := hgoes.counters_eq.trans h.counters
      launched := fun _ => h.launched hin
      working := fun hjob => absurd (h.working hjob) haway }
  | worked hin hwork =>
    cases hwork with
    | _ => exact { h with working := fun _ => hin }
  | finished hin hjob =>
    exact { h with
      frames := rfl
      dropped := rfl
      serves := .run (by split <;> rfl)
      launched := fun _ => h.launched (by rw [hin]; nofun)
      working := fun hstart => absurd rfl hstart }
  | called hmain =>
    exact { h with
      frames := rfl
      dropped := rfl
      closes := .close
      closing := fun _ => rfl }
  | closes hmain hstep =>
    have hgoes := h.closes.goes hstep
    exact { h with
      frames := rfl
      dropped := rfl
      closes := hgoes.tidy
      counters := hgoes.counters_eq.trans h.counters
      closing := fun _ => hmain }
  | advanced hadvance =>
    refine { h with closing := fun hin => ?_ }
    rw [h.closing hin] at hadvance
    cases hadvance with
    | closed hout => exact absurd hout hin

/-- A turn leaves the runner as it is, or is a step of it. -/
theorem Turned.runner_step {turn : Turn} {closer' server' : List Frame}
    (ht : Turned w s closer server turn s' closer' server') (h : Orderly s closer server) :
    s'.runner = s.runner ∨ ∃ t move signals, s.runner.step t move = some (signals, s'.runner) := by
  have hframes := h.frames
  cases ht with
  | passed | produced | advanced => exact .inl rfl
  | worked hin hwork =>
    cases hwork with
    | _ => exact .inl rfl
  | launched hout =>
    have hdrop : Runner.Move.call .run ≠ .call .drop := nofun
    refine .inr ⟨workerThread, .call .run, [.called .run], ?_⟩
    rw [step_eq h.dropped hdrop h.frames_worker, hout, hframes]
    rfl
  | @served _ _ signals hin haway hstep =>
    refine .inr ⟨workerThread, nextMove server, signals, ?_⟩
    rw [step_eq h.dropped (nextMove_ne_drop server) h.frames_worker, hstep, hframes]
    rfl
  | @finished read hin hjob =>
    have hdrop : Runner.Move.finish (.ok read) ≠ .call .drop := nofun
    refine .inr ⟨workerThread, .finish (.ok read), [.ended .doWork (.ok read)], ?_⟩
    rw [step_eq h.dropped hdrop h.frames_worker, hin, hframes]
    cases read <;> rfl
  | called hmain =>
    have hout : closer = [] := h.out_of_closeDue hmain
    have hdrop : Runner.Move.call .close ≠ .call .drop := nofun
    refine .inr ⟨mainThread, .call .close, [.called .close], ?_⟩
    rw [step_eq h.dropped hdrop h.frames_main, hout, hframes]
    rfl
  | @closes _ _ _ signals hmain hstep =>
    refine .inr ⟨mainThread, nextMove closer, signals, ?_⟩
    rw [step_eq h.dropped (nextMove_ne_drop closer) h.frames_main, hstep, hframes]
    rfl

end Pipeline

end RingTransport.Bench
