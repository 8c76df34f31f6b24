/-
  The pipeline benchmark: producer threads publish into a ring, and an agent on a worker
  thread of its own reads it. The main thread waits for the producers, then until all has
  arrived or its patience is over, closes the runner, waits for the worker and takes the
  result. Threads take their steps in any order; a step is one access to the ring, to the
  runner or to the agent's counters. When the main thread sleeps in `close`, it sleeps until
  the worker wakes it. `inTurns` lets the threads go round in a circle.
-/
import RingTransport.Ring.Traffic
import RingTransport.Runner.System

namespace RingTransport.Bench

/-- The price of a message. -/
def price (parcel : Parcel) : Nat := 10000 + parcel.number % 50

/-- How many producer numbers there are: 2^32. -/
def producerNumbers : Nat := 4294967296

/-- What a message adds to the checksum: its number, its price, and the low 32 bits of its
producer's number. -/
def weight (parcel : Parcel) : UInt64 :=
  UInt64.ofNat parcel.number + UInt64.ofNat (price parcel) +
    UInt64.ofNat (parcel.producer % producerNumbers)

/-- What the producers publish: equal shares, so a remainder is left out. -/
def share (iterations producers : Nat) : Workload :=
  ⟨producers, iterations / max producers 1, 1⟩

/-- How many messages one read of the agent may take. -/
def readLimit : Nat := 1024

/-- Where the agent's `doWork` stands. -/
inductive Job where
  | start
  | reading (sum : UInt64)
  | count (read : Nat) (sum : UInt64)
  | sum (read : Nat) (sum : UInt64)
  | done (read : Nat)
  deriving DecidableEq, Repr

/-- Where the main thread stands. -/
inductive MainStage where
  /-- Producers below `p` are joined. -/
  | joining (p : Nat)
  | polling
  | closeDue
  | closing
  | joiningWorker
  | loadConsumed
  | finished (consumed : Nat)
  deriving DecidableEq, Repr

/-- The number of the main thread around the runner, and of the worker. -/
def mainThread : Nat := 0
@[inherit_doc mainThread] def workerThread : Nat := 1

/-- The pipeline under way. -/
structure Pipeline (cap : Capacity) where
  threads : Threads .manyProducers cap Parcel
  publishers : List Publisher
  runner : Runner.System
  /-- The worker has called the runner. -/
  launched : Bool
  job : Job
  consumed : Nat
  checksum : UInt64
  main : MainStage

namespace Pipeline

variable {cap : Capacity}

/-- Nothing published yet; the handler of the runner counts. -/
def init (w : Workload) : Pipeline cap where
  threads := .init w.producers (.filled ⟨0, 0⟩)
  publishers := List.replicate w.producers ⟨0, none, false⟩
  runner := .init 2 1
  launched := false
  job := .start
  consumed := 0
  checksum := 0
  main := .joining 0

/-- Whose turn it is. The main thread may find that its patience is over. -/
inductive Turn where
  | producer (p : Nat) (spurious : Bool)
  | worker
  | main (deadline : Bool)
  deriving DecidableEq, Repr

/-- What came of a turn. A thread that cannot go on, or has nothing left to do, lets its
turn pass. -/
inductive Pace where
  | passed
  /-- The thread took a step and has more to do at once. -/
  | busy
  /-- The thread took a step and would rather rest. -/
  | rest
  deriving DecidableEq, Repr

/-- A step of producer `p`. A producer whose claim was refused rests. -/
def stepProducer (w : Workload) (p : Nat) (spurious : Bool) :
    Pipeline cap → Pace × Pipeline cap
  | ⟨threads, pubs, runner, launched, job, consumed, checksum, main⟩ =>
    match pubs[p]?, threads.producers[p]? with
    | some pub, some thread =>
      match Traffic.produceNext w p pub thread spurious with
      | none => (.passed, ⟨threads, pubs, runner, launched, job, consumed, checksum, main⟩)
      | some move =>
        let (signal, threads) := threads.step move
        let held := threads.producers[p]?.elim 0 (·.held.length)
        let pubs := pubs.set p (Traffic.after w held pub signal)
        let pace := match signal with
          | .refused _ => .rest
          | _ => .busy
        (pace, ⟨threads, pubs, runner, launched, job, consumed, checksum, main⟩)
    | _, _ => (.passed, ⟨threads, pubs, runner, launched, job, consumed, checksum, main⟩)

/-- A move of a thread around the runner; it lets its turn pass if it cannot make it. -/
def moveRunner (t : Nat) (move : Runner.Move) (pace : Pace) (s : Pipeline cap) :
    Pace × Pipeline cap :=
  match s.runner.step t move with
  | none => (.passed, s)
  | some (_, runner) => (pace, { s with runner })

/-- A step of the worker inside `doWork`: one limited read, and then, if it read anything,
the two counters. The worker rests after each `doWork`. -/
def stepJob : Pipeline cap → Pace × Pipeline cap
  | ⟨threads, pubs, runner, launched, .start, consumed, checksum, main⟩ =>
    let (_, threads) := threads.step (.read readLimit)
    (.busy, ⟨threads, pubs, runner, launched, .reading 0, consumed, checksum, main⟩)
  | ⟨threads, pubs, runner, launched, .reading sum, consumed, checksum, main⟩ =>
    let (signal, threads) := threads.step (.consume false)
    let job := match signal with
      | .handed _ parcel => .reading (sum + weight parcel)
      | .readEnded read => if read = 0 then .done 0 else .count read sum
      | _ => .reading sum
    (.busy, ⟨threads, pubs, runner, launched, job, consumed, checksum, main⟩)
  | ⟨threads, pubs, runner, launched, .count read sum, consumed, checksum, main⟩ =>
    (.busy, ⟨threads, pubs, runner, launched, .sum read sum, consumed + read, checksum, main⟩)
  | ⟨threads, pubs, runner, launched, .sum read sum, consumed, checksum, main⟩ =>
    (.busy, ⟨threads, pubs, runner, launched, .done read, consumed, checksum + sum, main⟩)
  | ⟨threads, pubs, runner, launched, .done read, consumed, checksum, main⟩ =>
    moveRunner workerThread (.finish (.ok read)) .rest
      ⟨threads, pubs, runner, launched, .start, consumed, checksum, main⟩

/-- A step of the worker: it runs the runner once. -/
def stepWorker (s : Pipeline cap) : Pace × Pipeline cap :=
  match s.runner.frames[workerThread]? with
  | none => (.passed, s)
  | some [] =>
    if s.launched then (.passed, s)
    else moveRunner workerThread (.call .run) .busy { s with launched := true }
  | some (.callback .doWork :: _) => s.stepJob
  | some (.callback _ :: _) => s.moveRunner workerThread (.finish (.ok 0)) .busy
  | some (.handling _ :: _) => s.moveRunner workerThread (.settle none) .busy
  | some _ => s.moveRunner workerThread .go .busy

/-- Producer `p` has published its share. -/
def producerDone (w : Workload) (s : Pipeline cap) (p : Nat) : Bool :=
  s.publishers[p]?.all (fun pub => pub.sent == w.per && pub.unwritten.isNone && !pub.committing)
    && s.threads.producers[p]?.all (·.call.isNone)

/-- The worker has returned from the runner. -/
def workerDone (s : Pipeline cap) : Bool :=
  s.launched && s.runner.frames[workerThread]?.all (·.isEmpty)

/-- A step of the main thread. It rests whenever it would look again. -/
def stepMain (w : Workload) (deadline : Bool) (s : Pipeline cap) : Pace × Pipeline cap :=
  match s.main with
  | .joining p =>
    if p = w.producers then (.busy, { s with main := .polling })
    else if s.producerDone w p then (.busy, { s with main := .joining (p + 1) })
    else (.passed, s)
  | .polling =>
    if s.consumed < w.total ∧ deadline = false then (.rest, s)
    else (.busy, { s with main := .closeDue })
  | .closeDue => moveRunner mainThread (.call .close) .busy { s with main := .closing }
  | .closing =>
    match s.runner.frames[mainThread]? with
    | some [] => (.busy, { s with main := .joiningWorker })
    | some (.callback _ :: _) => s.moveRunner mainThread (.finish (.ok 0)) .busy
    | some (.handling _ :: _) => s.moveRunner mainThread (.settle none) .busy
    | _ => s.moveRunner mainThread .go .busy
  | .joiningWorker =>
    if s.workerDone then (.busy, { s with main := .loadConsumed }) else (.passed, s)
  | .loadConsumed => (.busy, { s with main := .finished s.consumed })
  | .finished _ => (.passed, s)

/-- A step of the thread whose turn it is. -/
def step (w : Workload) (s : Pipeline cap) : Turn → Pace × Pipeline cap
  | .producer p spurious => s.stepProducer w p spurious
  | .worker => s.stepWorker
  | .main deadline => s.stepMain w deadline

/-- Turns one after another, in any order. -/
def run (w : Workload) (s : Pipeline cap) (turns : List Turn) : Pipeline cap :=
  turns.foldl (fun s who => (s.step w who).2) s

/-! ## Going round in a circle -/

/-- Steps of one thread until it rests, passes, or has taken `fuel` steps. -/
def burst (w : Workload) (who : Turn) : (fuel : Nat) → Pipeline cap → Pipeline cap
  | 0, s => s
  | fuel + 1, s =>
    match s.step w who with
    | (.busy, s) => burst w who fuel s
    | (_, s) => s

/-- A burst of each producer, of the worker, and of the main thread. -/
def round (w : Workload) (s : Pipeline cap) : Pipeline cap :=
  let s := (List.range w.producers).foldl (fun s p => burst w (.producer p false) 512 s) s
  let s := burst w .worker (4 * readLimit) s
  burst w (.main false) 64 s

/-- What the main thread took as the result, once it is finished. -/
def result? (s : Pipeline cap) : Option Nat :=
  match s.main with
  | .finished consumed => some consumed
  | _ => none

/-- At most `fuel` rounds, fewer if the main thread is finished before. -/
def rounds (w : Workload) : (fuel : Nat) → Pipeline cap → Pipeline cap
  | 0, s => s
  | fuel + 1, s => if s.result?.isSome then s else rounds w fuel (s.round w)

/-- The pipeline carried out, the threads going round in a circle. -/
def inTurns (w : Workload) : Pipeline cap :=
  rounds w (1000 * (w.total + w.producers + 10)) (init w)

end Pipeline

/-- What the pipeline benchmark shows. -/
structure PipelineReport where
  produced : Nat
  consumed : Nat
  faults : Nat
  checksum : UInt64
  deriving DecidableEq, Repr

/-- The report of a pipeline whose main thread is finished. -/
def Pipeline.report? {cap : Capacity} (w : Workload) (s : Pipeline cap) :
    Option PipelineReport := do
  let consumed ← s.result?
  return ⟨w.total, consumed, s.runner.cells.counters.headD 0, s.checksum⟩

/-- The pipeline benchmark. -/
def pipeline (cap : Capacity) (iterations producers : Nat) : Option PipelineReport :=
  let w := share iterations producers
  (Pipeline.inTurns w : Pipeline cap).report? w

end RingTransport.Bench
