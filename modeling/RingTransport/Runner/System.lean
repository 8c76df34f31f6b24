/-
  The life cycle of a runner under any number of threads. A runner calls an agent back:
  `onStart` once, then `doWork` again and again, then `onClose` once. A thread that runs
  the runner binds it to itself; a thread that closes the runner stops the loop and waits
  for the thread bound to it, or, when there is none, calls `onClose` itself. Failures of
  callbacks go to an error handler.

  A step is one access of one thread to the shared cells, or the begin or end of a
  callback or of a call of the error handler; besides, a thread asleep on the latch may wake
  up unasked. What callbacks and the handler do, and how they end, is not fixed here: while
  one is in progress its code is in control of the thread, and may call the runner again, end
  normally, fail or panic. Threads take their steps in any order, and each step gives signals.
-/
import RingTransport.Agent.Handler
import RingTransport.Runner.Cells

namespace RingTransport

/-- The callbacks of an agent. -/
inductive Callback where
  | onStart
  | doWork
  | onClose
  deriving DecidableEq, Repr

/-- How a callback ends. The count tells how much work was done. -/
inductive Outcome where
  | ok (count : Nat)
  | error (e : AgentError)
  | panicked (p : Payload)
  deriving DecidableEq, Repr

/-- What the runner makes of the end of a callback: a panic is an error like others. -/
def Outcome.result : Outcome → Except AgentError Nat
  | .ok count => .ok count
  | .error e => .error e
  | .panicked p => .error (.panicked p.message)

namespace Runner

/-! ## Calls -/

/-- What can be asked of a runner. -/
inductive Call where
  | run
  | close
  | cancel
  /-- The last owner lets go of the runner. -/
  | drop
  | isRunning
  | isClosed
  | isCancelled
  | binding
  | thread
  deriving DecidableEq, Repr

/-- What an observing call answers. -/
inductive Observation where
  | running (b : Bool)
  | closed (b : Bool)
  | cancelled (b : Bool)
  | unbound
  | bound (thread : Nat)
  | tombstone
  | thread (thread : Option Nat)
  deriving DecidableEq, Repr

/-- Where `run` stands. The stages named for a callback or a report last while that is in
progress. -/
inductive RunStage where
  | bind
  | storeHandle
  | startDue
  | inStart
  | startReport
  | startFailed
  | loadRunning
  | workDue
  | inWork
  | workReport
  | loadCancelled
  | stop
  | quit
  | storeCancelled
  deriving DecidableEq, Repr

/-- Where the last callback of a runner stands. -/
inductive TeardownStage where
  | closeDue
  | inClose
  | closeReport
  | announce
  deriving DecidableEq, Repr

/-- Where the release of a finished runner stands. -/
inductive ReleaseStage where
  | storeClosed
  | lock
  | storeDone
  | wake
  | unlock
  deriving DecidableEq, Repr

/-- Where `close` stands. -/
inductive CloseStage where
  | storeStopped
  | swap
  | loadClosed
  | loadHandle
  | unpark
  | lock
  | loadDone
  | sleep
  | asleep
  | unlock
  deriving DecidableEq, Repr

/-- Where `cancel` stands. -/
inductive CancelStage where
  | storeCancelled
  | unpark
  deriving DecidableEq, Repr

/-- Where an observing call stands. -/
inductive ObserveStage where
  | loadRunning
  | loadNotClosed
  | loadClosed
  | loadCancelled
  | loadTag (forThread : Bool)
  /-- The tag was bound; the handle is awaited. -/
  | awaitHandle (forThread : Bool)
  | loadHandle
  deriving DecidableEq, Repr

/-- The call that owns the end of a runner's life. -/
inductive Owner where
  | run
  | close
  deriving DecidableEq, Repr

/-- The call an owner is. -/
def Owner.call : Owner → Call
  | .run => .run
  | .close => .close

/-- One level of a thread's stack. -/
inductive Frame where
  | run (stage : RunStage)
  | teardown (owner : Owner) (stage : TeardownStage)
  /-- The runner is marked closed and its latch opened, also when the handler panicked. -/
  | release (owner : Owner) (stage : ReleaseStage) (panic : Option Payload)
  | close (stage : CloseStage)
  | cancel (stage : CancelStage)
  | observe (stage : ObserveStage)
  /-- A callback is in progress and in control. -/
  | callback (c : Callback)
  /-- An error is on its way through the layers of the handler. -/
  | report (e : AgentError) (layers : Handler)
  /-- The innermost handler is in progress and in control. -/
  | handling (e : AgentError)
  deriving DecidableEq, Repr

/-! ## Moves and signals -/

/-- What a thread does next. -/
inductive Move where
  /-- The next step of the runner's own code. -/
  | go
  /-- The code in control calls the runner. -/
  | call (c : Call)
  /-- The callback in progress ends. -/
  | finish (o : Outcome)
  /-- The handler in progress returns, or panics. -/
  | settle (panic : Option Payload)
  /-- A thread asleep on the latch wakes up, though nobody may have woken it. -/
  | stir
  deriving DecidableEq, Repr

/-- What a runner has to say about its own life. -/
inductive Notice where
  | alreadyBound
  | starting
  | neverStarted
  | closed
  deriving DecidableEq, Repr

/-- The record of a notice, for the runner of a role. -/
def Notice.record (role : String) (n : Notice) : Log.Record :=
  ⟨.debug,
    match n with
    | .alreadyBound => "runner already bound or closed, ignoring run"
    | .starting => "agent starting"
    | .neverStarted => "closing runner that never started"
    | .closed => "agent closed",
    [("role", .text role)]⟩

/-- What a step shows to an observer. -/
inductive Signal where
  | called (c : Call)
  | returned (c : Call)
  /-- A panic of the handler left the call. -/
  | unwound (c : Call) (p : Payload)
  | began (c : Callback)
  | ended (c : Callback) (o : Outcome)
  | counted (counter : Nat)
  | reported (e : AgentError)
  | settled (panic : Option Payload)
  | notice (n : Notice)
  | unparked (thread : Nat)
  | observed (o : Observation)
  deriving DecidableEq, Repr

/-! ## Steps of one thread -/

/-- The cells, the stack and the signals after a step. -/
abbrev Stepped := Cells × List Frame × List Signal

/-- The code in control of a thread is not the runner's own. -/
def inControl : List Frame → Bool
  | [] => true
  | .callback _ :: _ => true
  | .handling _ :: _ => true
  | _ => false

/-- The first frame of a call. -/
def Call.frame : Call → Frame
  | .run => .run .bind
  | .close => .close .storeStopped
  | .cancel => .cancel .storeCancelled
  | .drop => .close .storeStopped
  | .isRunning => .observe .loadRunning
  | .isClosed => .observe .loadClosed
  | .isCancelled => .observe .loadCancelled
  | .binding => .observe (.loadTag false)
  | .thread => .observe (.loadTag true)

/-- A step of `run`. -/
def stepRun (me : Nat) (c : Cells) (rest : List Frame) : RunStage → Option Stepped
  | .bind =>
    if c.tag = .unbound then some ({ c with tag := .bound }, .run .storeHandle :: rest, [])
    else some (c, rest, [.notice .alreadyBound, .returned .run])
  | .storeHandle =>
    some ({ c with handle := c.handle.or (some me) }, .run .startDue :: rest, [.notice .starting])
  | .startDue => some (c, .callback .onStart :: .run .inStart :: rest, [.began .onStart])
  | .startFailed => some ({ c with running := false }, .run .loadRunning :: rest, [])
  | .loadRunning =>
    some (c, (if c.running then .run .workDue else .teardown .run .closeDue) :: rest, [])
  | .workDue => some (c, .callback .doWork :: .run .inWork :: rest, [.began .doWork])
  | .loadCancelled =>
    some (c, .run (if c.cancelled then .stop else .loadRunning) :: rest, [])
  | .stop => some ({ c with running := false }, .run .loadRunning :: rest, [])
  | .quit => some ({ c with running := false }, .run .storeCancelled :: rest, [])
  | .storeCancelled => some ({ c with cancelled := true }, .run .loadRunning :: rest, [])
  | .inStart | .startReport | .inWork | .workReport => none

/-- A step around the last callback. -/
def stepTeardown (c : Cells) (rest : List Frame) (owner : Owner) : TeardownStage → Option Stepped
  | .closeDue =>
    some (c, .callback .onClose :: .teardown owner .inClose :: rest, [.began .onClose])
  | .announce =>
    some (c, .release owner .storeClosed none :: rest,
      if owner = .run then [.notice .closed] else [])
  | .inClose | .closeReport => none

/-- A step of the release of a finished runner. -/
def stepRelease (me : Nat) (c : Cells) (rest : List Frame) (owner : Owner)
    (panic : Option Payload) : ReleaseStage → Option Stepped
  | .storeClosed => some ({ c with closed := true }, .release owner .lock panic :: rest, [])
  | .lock =>
    if c.latch.holder.isNone then
      some ({ c with latch.holder := some me }, .release owner .storeDone panic :: rest, [])
    else none
  | .storeDone =>
    some ({ c with latch.done := true }, .release owner .wake panic :: rest, [])
  | .wake =>
    some ({ c with latch.sleepers := [] }, .release owner .unlock panic :: rest, [])
  | .unlock =>
    some ({ c with latch.holder := none }, rest,
      match panic with
      | none => [.returned owner.call]
      | some p => [.unwound owner.call p])

/-- A step of `close`. A closer that finds the runner bound to another thread waits for
the latch. A sleeper that is awake again, woken or not, takes the lock before it goes on, and
looks at the flag again. -/
def stepClose (me : Nat) (c : Cells) (rest : List Frame) : CloseStage → Option Stepped
  | .storeStopped => some ({ c with running := false }, .close .swap :: rest, [])
  | .swap =>
    match c.tag with
    | .unbound =>
      some ({ c with tag := .closed }, .teardown .close .closeDue :: rest, [.notice .neverStarted])
    | .bound => some ({ c with tag := .closed }, .close .loadClosed :: rest, [])
    | .closed => some (c, rest, [.returned .close])
  | .loadClosed =>
    if c.closed then some (c, rest, [.returned .close])
    else some (c, .close .loadHandle :: rest, [])
  | .loadHandle =>
    if c.handle = some me then some (c, rest, [.returned .close])
    else some (c, .close .unpark :: rest, [])
  | .unpark =>
    some (c, .close .lock :: rest,
      match c.handle with
      | none => []
      | some t => [.unparked t])
  | .lock =>
    if c.latch.holder.isNone then
      some ({ c with latch.holder := some me }, .close .loadDone :: rest, [])
    else none
  | .loadDone =>
    some (c, .close (if c.latch.done then .unlock else .sleep) :: rest, [])
  | .sleep =>
    some ({ c with latch.holder := none, latch.sleepers := me :: c.latch.sleepers },
      .close .asleep :: rest, [])
  | .asleep =>
    if me ∉ c.latch.sleepers ∧ c.latch.holder.isNone then
      some ({ c with latch.holder := some me }, .close .loadDone :: rest, [])
    else none
  | .unlock =>
    some ({ c with latch.holder := none }, rest, [.returned .close])

/-- A step of `cancel`. -/
def stepCancel (c : Cells) (rest : List Frame) : CancelStage → Option Stepped
  | .storeCancelled => some ({ c with cancelled := true }, .cancel .unpark :: rest, [])
  | .unpark =>
    some (c, rest,
      match c.handle with
      | none => [.returned .cancel]
      | some t => [.unparked t, .returned .cancel])

/-- A step of an observing call. One that finds the runner bound before its thread has
said so waits for the handle. -/
def stepObserve (c : Cells) (rest : List Frame) : ObserveStage → Option Stepped
  | .loadRunning =>
    if c.running then some (c, .observe .loadNotClosed :: rest, [])
    else some (c, rest, [.observed (.running false)])
  | .loadNotClosed => some (c, rest, [.observed (.running !c.closed)])
  | .loadClosed => some (c, rest, [.observed (.closed c.closed)])
  | .loadCancelled => some (c, rest, [.observed (.cancelled c.cancelled)])
  | .loadTag forThread =>
    match c.tag, forThread with
    | .bound, _ => some (c, .observe (.awaitHandle forThread) :: rest, [])
    | .unbound, false => some (c, rest, [.observed .unbound])
    | .closed, false => some (c, rest, [.observed .tombstone])
    | _, true => some (c, .observe .loadHandle :: rest, [])
  | .awaitHandle forThread =>
    match c.handle with
    | none => some (c, .observe (.awaitHandle forThread) :: rest, [])
    | some t =>
      some (c, rest, [.observed (if forThread then .thread (some t) else .bound t)])
  | .loadHandle => some (c, rest, [.observed (.thread c.handle)])

/-- A step of a report: each layer counts, then the innermost handler takes over. -/
def stepReport (c : Cells) (rest : List Frame) (e : AgentError) : Handler → Option Stepped
  | .counted i inner =>
    some ({ c with counters := bump c.counters i }, .report e inner :: rest, [.counted i])
  | .innermost => some (c, .handling e :: rest, [.reported e])

/-- The frames after a callback has ended, by the stage that called it. An error is
reported, except that a callback that does work may ask to stop. -/
def afterCallback (handler : Handler) (result : Except AgentError Nat) :
    List Frame → Option (List Frame)
  | .run .inStart :: rest =>
    match result with
    | .ok _ => some (.run .loadRunning :: rest)
    | .error e => some (.report e handler :: .run .startReport :: rest)
  | .run .inWork :: rest =>
    match result with
    | .ok 0 => some (.run .loadCancelled :: rest)
    | .ok (_ + 1) => some (.run .loadRunning :: rest)
    | .error .cancelled => some (.run .quit :: rest)
    | .error e => some (.report e handler :: .run .workReport :: rest)
  | .teardown owner .inClose :: rest =>
    match result with
    | .ok _ => some (.teardown owner .announce :: rest)
    | .error e => some (.report e handler :: .teardown owner .closeReport :: rest)
  | _ => none

/-- The frames after the handler has returned, or panicked, by the stage that reported. -/
def afterReport (panic : Option Payload) : List Frame → Option (List Frame)
  | .run .startReport :: rest =>
    match panic with
    | none => some (.run .startFailed :: rest)
    | some p => some (.release .run .storeClosed (some p) :: rest)
  | .run .workReport :: rest =>
    match panic with
    | none => some (.run .loadCancelled :: rest)
    | some p => some (.release .run .storeClosed (some p) :: rest)
  | .teardown owner .closeReport :: rest =>
    match panic with
    | none => some (.teardown owner .announce :: rest)
    | some p => some (.release owner .storeClosed (some p) :: rest)
  | _ => none

/-- A step of thread `me`, if it can take it. -/
def stepThread (handler : Handler) (me : Nat) (c : Cells) (stack : List Frame) :
    Move → Option Stepped
  | .go =>
    match stack with
    | .run stage :: rest => stepRun me c rest stage
    | .teardown owner stage :: rest => stepTeardown c rest owner stage
    | .release owner stage panic :: rest => stepRelease me c rest owner panic stage
    | .close stage :: rest => stepClose me c rest stage
    | .cancel stage :: rest => stepCancel c rest stage
    | .observe stage :: rest => stepObserve c rest stage
    | .report e layers :: rest => stepReport c rest e layers
    | _ => none
  | .call call =>
    if inControl stack then some (c, call.frame :: stack, [.called call]) else none
  | .finish o =>
    match stack with
    | .callback cb :: rest =>
      (afterCallback handler o.result rest).map fun stack => (c, stack, [.ended cb o])
    | _ => none
  | .settle panic =>
    match stack with
    | .handling _ :: rest =>
      (afterReport panic rest).map fun stack => (c, stack, [.settled panic])
    | _ => none
  | .stir =>
    match stack with
    | .close .asleep :: rest =>
      some ({ c with latch.sleepers := c.latch.sleepers.erase me }, .close .asleep :: rest, [])
    | _ => none

/-! ## All threads -/

/-- A runner and the threads around it, each with its stack. -/
structure System where
  cells : Cells
  handler : Handler
  frames : List (List Frame)
  /-- The last owner has let go; nobody can call the runner any more. -/
  dropped : Bool
  deriving DecidableEq, Repr

/-- A new runner and idle threads. The handler has as many counting layers as asked. -/
def System.init (threads layers : Nat) : System :=
  let reporting := Reporting.nested () layers
  ⟨.init reporting.counters, reporting.handler.getD .innermost, List.replicate threads [], false⟩

/-- Whether a call may be made: never after the drop, which itself needs every thread to
be out of the runner. -/
def System.admits (s : System) : Move → Bool
  | .call .drop => !s.dropped && s.frames.all (·.isEmpty)
  | .call _ => !s.dropped
  | _ => true

/-- A step of thread `t`, if there is such a thread and it can take the step. -/
def System.step (s : System) (t : Nat) (move : Move) : Option (List Signal × System) :=
  if s.admits move then do
    let stack ← s.frames[t]?
    let (cells, stack, signals) ← stepThread s.handler t s.cells stack move
    return (signals, ⟨cells, s.handler, s.frames.set t stack, s.dropped || move == .call .drop⟩)
  else none

/-- One more idle thread. -/
def System.spawn (s : System) : System := { s with frames := s.frames ++ [[]] }

/-- A run: moves of numbered threads, if each can be made, and what each shows. -/
def System.steps : System → List (Nat × Move) → Option (List (Nat × Signal) × System)
  | s, [] => some ([], s)
  | s, (t, move) :: moves => do
    let (signals, s) ← s.step t move
    let (later, s) ← s.steps moves
    return (signals.map (t, ·) ++ later, s)

end Runner

end RingTransport
