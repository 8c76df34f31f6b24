/-
  Scripted agents: each callback follows a given behaviour, and when the work runs out
  the agent asks to stop. The handler of a script logs, or writes errors down and reacts
  to each by number.
-/
import RingTransport.Runner.Play

namespace RingTransport.Runner

/-- What the handler of a script does: it logs, or it writes the error down and follows
the reaction for the number of the report, if there is one. -/
inductive HandlerScript where
  | logging
  | recording (reactions : List (Nat × Reaction))
  deriving DecidableEq, Repr

/-- A script for an agent and its handler. -/
structure Script where
  role : String
  onStart : Behaviour
  work : List Behaviour
  onClose : Behaviour
  handler : HandlerScript
  deriving DecidableEq, Repr

/-- How far a script is: the work left, and the number of reports so far. -/
structure ScriptState where
  work : List Behaviour
  reports : Nat
  deriving DecidableEq, Repr

namespace Script

/-- The start of a script. -/
def start (s : Script) : ScriptState := ⟨s.work, 0⟩

/-- What a callback of the script does. -/
def perform (s : Script) (c : Callback) (seen : Option (Snapshot String)) (now : ScriptState) :
    Behaviour × List Entry × ScriptState :=
  match c, now.work with
  | .onStart, _ => (s.onStart, [.callback .onStart seen], now)
  | .onClose, _ => (s.onClose, [.callback .onClose seen], now)
  | .doWork, [] => (.plain (.error .cancelled), [.exhausted seen], now)
  | .doWork, b :: work => (b, [.callback .doWork seen], { now with work })

/-- What the handler of the script does on a report. -/
def react (s : Script) (thread : Option String) (e : AgentError) (now : ScriptState) :
    Reaction × List Entry × ScriptState :=
  match s.handler with
  | .logging => (⟨[], false⟩, [.log (faultRecord thread e)], now)
  | .recording reactions =>
    ((reactions.lookup now.reports).getD ⟨[], false⟩, [.error e],
      { now with reports := now.reports + 1 })

/-- The agent of a script. -/
def agent (s : Script) : Agent ScriptState := ⟨s.role, s.perform, s.react⟩

/-- The number of behaviours, reactions and actions in a script. -/
def size (s : Script) : Nat :=
  let behaviours := s.onStart :: s.onClose :: s.work
  let reactions := match s.handler with
    | .logging => []
    | .recording reactions => reactions
  behaviours.length + (behaviours.flatMap (·.actions)).length +
    reactions.length + (reactions.flatMap (·.2.actions)).length

end Script

end RingTransport.Runner
