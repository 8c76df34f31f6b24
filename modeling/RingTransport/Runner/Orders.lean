/-
  What the owner of a runner can order on the main thread, and what comes of it: calls of
  the runner, worker threads that run it, and many closers at once. After each order all
  threads go on until none can; a worker that then waits is held, and kept until it is
  finished.
-/
import RingTransport.Runner.Launch
import RingTransport.Runner.Script

namespace RingTransport.Runner

/-- An order. -/
inductive Order where
  | run
  | close
  | cancel
  /-- The held worker's handle is used to cancel. -/
  | cancelWorker
  /-- Nothing is done. -/
  | look
  | info
  /-- A number of unnamed threads close the runner at the same time. -/
  | closeMany (threads : Nat)
  | start (config : ThreadConfig)
  deriving DecidableEq, Repr

/-- How a call or a thread ended. -/
inductive Verdict where
  | ok
  | panic
  deriving DecidableEq, Repr

/-- What an order answers. -/
inductive OrderResult where
  | ended (verdict : Verdict)
  | info (role agentRole : String) (works : Nat)
  /-- A thread was started; if it is finished already, it was joined. -/
  | started (name : String) (joined : Option Verdict)
  /-- There is no worker to use. -/
  | noWorker
  deriving DecidableEq, Repr

/-- The kept worker after an order. -/
inductive WorkerState where
  | held
  | joined (verdict : Verdict)
  deriving DecidableEq, Repr

/-- What is known after an order. -/
structure OrderReport where
  result : OrderResult
  worker : Option WorkerState
  entries : List Entry
  seen : Snapshot String
  counters : List Nat
  deriving DecidableEq, Repr

/-- What the end of a session shows: the close of a runner whose worker is still kept,
how that worker ended, and the drop. -/
structure EndReport where
  close : Option Verdict
  worker : Option Verdict
  drop : Verdict
  entries : List Entry
  counters : List Nat
  deriving DecidableEq, Repr

/-- A play and the worker that is kept, if any. -/
structure Session where
  play : Play ScriptState
  worker : Option Nat

namespace Session

/-- A session about a new runner. -/
def init (script : Script) (layers : Nat) : Session := ⟨.init layers script.start, none⟩

/-- How the calls of a thread went. -/
def verdict (p : Play ScriptState) (t : Nat) : Verdict := if p.hasPanicked t then .panic else .ok

/-- More turns than the threads of a session can take in one go. -/
def fuel (script : Script) (p : Play ScriptState) : Nat :=
  100 * (script.size + p.players.length + p.system.cells.counters.length + 10)

/-- All threads go on until none can. -/
def settle (script : Script) (p : Play ScriptState) : Option (Play ScriptState) :=
  p.settle script.agent (fuel script p)

/-- The main thread makes a call. -/
def call (script : Script) (p : Play ScriptState) (c : Call) :
    Option (Verdict × Play ScriptState) := do
  let p ← settle script (p.ask c)
  return (verdict p 0, p)

/-- Threads that close the runner, without names. -/
def addClosers (p : Play ScriptState) : Nat → Play ScriptState
  | 0 => p
  | n + 1 => addClosers (p.addPlayer (.calling none true [.close])) n

/-- A thread is started for the runner. The second part is its number, if it is held. -/
def start (script : Script) (p : Play ScriptState) (config : ThreadConfig) :
    Option (OrderResult × Option Nat × Play ScriptState) := do
  let name := config.nameFor script.role
  if nameAllowed name then
    let t := p.players.length
    let p := p.write ((config.records script.role).map .log)
    let p ← settle script (p.addPlayer (.calling (some name) true [.run]))
    if p.isFinished t then return (.started name (some (verdict p t)), none, p)
    else return (.started name none, some t, p)
  else return (.ended .panic, none, p)

/-- Carries out an order. -/
def carryOut (script : Script) (s : Session) : Order → Option (OrderResult × Session)
  | .run => do
    let (v, p) ← call script s.play .run
    return (.ended v, { s with play := p })
  | .close => do
    let (v, p) ← call script s.play .close
    return (.ended v, { s with play := p })
  | .cancel => do
    let (v, p) ← call script s.play .cancel
    return (.ended v, { s with play := p })
  | .cancelWorker =>
    if s.worker.isSome then do
      let (v, p) ← call script s.play .cancel
      return (.ended v, { s with play := p })
    else some (.noWorker, s)
  | .look => some (.ended .ok, s)
  | .info => some (.info script.role script.role s.play.works, s)
  | .closeMany n => do
    let p ← settle script (addClosers s.play n)
    return (.ended .ok, { s with play := p })
  | .start config => do
    let (result, held, p) ← start script s.play config
    return (result, ⟨p, s.worker.or held⟩)

/-- Looks after the kept worker: it is joined once it is finished. -/
def checkWorker (s : Session) : Option WorkerState × Session :=
  match s.worker with
  | none => (none, s)
  | some t =>
    if s.play.isFinished t then (some (.joined (verdict s.play t)), { s with worker := none })
    else (some .held, s)

/-- Carries out an order and reports. -/
def step (script : Script) (s : Session) (order : Order) : Option (OrderReport × Session) := do
  let (result, s) ← s.carryOut script order
  let (worker, s) := s.checkWorker
  let (entries, play) := s.play.takeEntries
  let report := ⟨result, worker, entries, play.snapshot, play.system.cells.counters⟩
  return (report, { s with play })

/-- Closes a runner whose worker is still kept: how the close went, and the worker. -/
def closeKept (script : Script) (s : Session) :
    Option (Option Verdict × Option Verdict × Play ScriptState) :=
  match s.worker with
  | none => some (none, none, s.play)
  | some t => do
    let (v, p) ← call script s.play .close
    return (some v, some (verdict p t), p)

/-- Ends the session: a runner with a worker is closed first, then the runner is dropped. -/
def finish (script : Script) (s : Session) : Option EndReport := do
  let (close, worker, p) ← s.closeKept script
  let (drop, p) ← call script p .drop
  return ⟨close, worker, drop, p.takeEntries.1, p.system.cells.counters⟩

/-- Carries out orders one after another, and ends the session. -/
def runAll (script : Script) : List Order → Session → Option (List OrderReport × EndReport)
  | [], s => do
    let last ← s.finish script
    return ([], last)
  | order :: orders, s => do
    let (report, s) ← s.step script order
    let (reports, last) ← runAll script orders s
    return (report :: reports, last)

end Session

/-- The reports of a whole session about a runner with a script. -/
def Script.runAll (script : Script) (layers : Nat) (orders : List Order) :
    Option (List OrderReport × EndReport) :=
  Session.runAll script orders (.init script layers)

end RingTransport.Runner
