/-
  Playing a runner: threads that make given calls, and an agent with its error handler
  that fill in what callbacks and reports do. The agent answers each callback with a
  behaviour (calls back into the runner, a wait, an end); the player turns that into
  moves of the life cycle. Of the threads that can go on, the one with the lowest number
  goes first, so a play has one outcome.
-/
import RingTransport.Runner.System

namespace RingTransport.Runner

/-! ## What an agent does -/

/-- One thing the code in control does. -/
inductive Action where
  | cancel
  | close
  | run
  /-- Looks at the runner and writes down what it sees. -/
  | state
  deriving DecidableEq, Repr

/-- The call an action makes, if it is one. -/
def Action.call? : Action → Option Call
  | .cancel => some .cancel
  | .close => some .close
  | .run => some .run
  | .state => none

/-- What a callback may wait for. -/
inductive Wait where
  /-- Until the runner is told to stop. -/
  | stop
  /-- Until the runner is cancelled or told to stop. -/
  | cancel
  deriving DecidableEq, Repr

/-- Whether a wait is over. -/
def Wait.isOver (c : Cells) : Wait → Bool
  | .stop => c.tag == .closed
  | .cancel => c.cancelled || c.tag == .closed

/-- What a callback does: its actions, then a wait, then its end. -/
structure Behaviour where
  actions : List Action
  wait : Option Wait
  ending : Outcome
  deriving DecidableEq, Repr

/-- A callback that does nothing and ends. -/
def Behaviour.plain (ending : Outcome) : Behaviour := ⟨[], none, ending⟩

/-- What the handler does on a report. -/
structure Reaction where
  actions : List Action
  panics : Bool
  deriving DecidableEq, Repr

/-- What is written down during a play. A snapshot is missing where the runner is out of
reach. -/
inductive Entry where
  | log (r : Log.Record)
  | error (e : AgentError)
  | callback (c : Callback) (seen : Option (Snapshot String))
  /-- A callback that does work found no work left. -/
  | exhausted (seen : Option (Snapshot String))
  | state (seen : Snapshot String)
  | work (count : Nat)
  deriving DecidableEq, Repr

/-- An agent and its handler. Both write entries and share a state of their own. The
handler is told the name of the thread it is called on. -/
structure Agent (σ : Type) where
  role : String
  perform : Callback → Option (Snapshot String) → σ → Behaviour × List Entry × σ
  react : Option String → AgentError → σ → Reaction × List Entry × σ

/-! ## Threads with parts to play -/

/-- What is left of a callback or of a report. -/
structure Plan where
  actions : List Action
  wait : Option Wait
  ending : Move
  deriving DecidableEq, Repr

/-- A thread of the play. Only a patient thread observes waits. -/
structure Player where
  name : Option String
  patient : Bool
  calls : List Call
  plans : List Plan
  panicked : Bool
  deriving DecidableEq, Repr

/-- A thread that makes the given calls. -/
def Player.calling (name : Option String) (patient : Bool) (calls : List Call) : Player :=
  ⟨name, patient, calls, [], false⟩

/-- A play under way: the life cycle, the threads, the agent's state, the number of
callbacks that did work, and the entries, newest first. -/
structure Play (σ : Type) where
  system : System
  players : List Player
  agent : σ
  works : Nat
  entries : List Entry

namespace Play

variable {σ : Type}

/-- One thread, named `main`, that waits for nothing. -/
def init (layers : Nat) (agent : σ) : Play σ :=
  ⟨.init 1 layers, [.calling (some "main") false []], agent, 0, []⟩

/-- The name of the thread of a number, if it has one. -/
def nameOf (p : Play σ) (t : Nat) : Option String := p.players[t]?.bind (·.name)

/-- The runner as it is now. -/
def snapshot (p : Play σ) : Snapshot String := p.system.cells.snapshot.named p.nameOf

/-- What is seen of the runner, if it can be reached. -/
def seen (p : Play σ) : Option (Snapshot String) :=
  if p.system.dropped then none else some p.snapshot

/-- Writes entries down. -/
def write (p : Play σ) (entries : List Entry) : Play σ :=
  { p with entries := entries.reverse ++ p.entries }

/-- Changes the part of a thread. -/
def modifyPlayer (p : Play σ) (t : Nat) (f : Player → Player) : Play σ :=
  { p with players := p.players.modify t f }

/-- Puts a plan on top of a thread's plans. -/
def pushPlan (plan : Plan) (player : Player) : Player :=
  { player with plans := plan :: player.plans }

/-- What a signal of thread `t` means for the play. -/
def observe (agent : Agent σ) (t : Nat) (p : Play σ) : Signal → Play σ
  | .began c =>
    let (behaviour, entries, s) := agent.perform c p.seen p.agent
    let plan := ⟨behaviour.actions, behaviour.wait, .finish behaviour.ending⟩
    let works := if c = .doWork then p.works + 1 else p.works
    ({ p with agent := s, works }.modifyPlayer t (pushPlan plan)).write entries
  | .reported e =>
    let (reaction, entries, s) := agent.react (p.nameOf t) e p.agent
    let plan := ⟨reaction.actions, none, .settle (if reaction.panics then some .other else none)⟩
    ({ p with agent := s }.modifyPlayer t (pushPlan plan)).write entries
  | .notice n => p.write [.log (n.record agent.role)]
  | .unwound _ payload =>
    p.modifyPlayer t fun player =>
      match player.plans with
      | [] => { player with panicked := true }
      | _ :: plans => { player with plans := ⟨[], none, .finish (.panicked payload)⟩ :: plans }
  | _ => p

/-- Thread `t` makes a move. -/
def move (agent : Agent σ) (t : Nat) (m : Move) (p : Play σ) : Option (Play σ) := do
  let (signals, system) ← p.system.step t m
  return signals.foldl (observe agent t) { p with system }

/-- What thread `t` does when its own code is in control and has a plan. -/
def followPlan (agent : Agent σ) (t : Nat) (p : Play σ) (player : Player) (plan : Plan)
    (plans : List Plan) : Option (Play σ) :=
  match plan.actions with
  | action :: actions =>
    let p := p.modifyPlayer t fun player =>
      { player with plans := { plan with actions } :: plans }
    match p.seen, action.call? with
    | none, _ => some p
    | some _, some call => p.move agent t (.call call)
    | some snapshot, none => some (p.write [.state snapshot])
  | [] =>
    if player.patient && plan.wait.any (!·.isOver p.system.cells) then none
    else (p.modifyPlayer t fun player => { player with plans }).move agent t plan.ending

/-- The next thing thread `t` does, if it can go on. -/
def turn (agent : Agent σ) (p : Play σ) (t : Nat) : Option (Play σ) := do
  let stack ← p.system.frames[t]?
  let player ← p.players[t]?
  match stack with
  | [] =>
    match player.calls with
    | [] => none
    | call :: calls =>
      (p.modifyPlayer t fun player => { player with calls }).move agent t (.call call)
  | _ :: _ =>
    if inControl stack then
      match player.plans with
      | [] => none
      | plan :: plans => p.followPlan agent t player plan plans
    else p.move agent t .go

/-- The next thing any thread does; the lowest number goes first. -/
def next (agent : Agent σ) (p : Play σ) : Option (Play σ) :=
  (List.range p.players.length).findSome? (p.turn agent)

/-- Goes on until no thread can. Nothing comes out if that takes more than `fuel` turns. -/
def settle (agent : Agent σ) : (fuel : Nat) → Play σ → Option (Play σ)
  | 0, _ => none
  | fuel + 1, p =>
    match p.next agent with
    | none => some p
    | some p => settle agent fuel p

/-! ## Threads from outside -/

/-- One more thread, with the calls it makes; its number is the number of threads before. -/
def addPlayer (p : Play σ) (player : Player) : Play σ :=
  { p with system := p.system.spawn, players := p.players ++ [player] }

/-- Thread `t` has made all its calls and is out of the runner. -/
def isFinished (p : Play σ) (t : Nat) : Bool :=
  p.system.frames[t]?.all (·.isEmpty) && p.players[t]?.all (·.calls.isEmpty)

/-- A panic came out of a call of thread `t`. -/
def hasPanicked (p : Play σ) (t : Nat) : Bool := p.players[t]?.any (·.panicked)

/-- Asks the main thread for a call. -/
def ask (p : Play σ) (call : Call) : Play σ :=
  p.modifyPlayer 0 fun player => { player with calls := [call], panicked := false }

/-- Takes out the entries, oldest first. -/
def takeEntries (p : Play σ) : List Entry × Play σ :=
  (p.entries.reverse, { p with entries := [] })

end Play

end RingTransport.Runner
