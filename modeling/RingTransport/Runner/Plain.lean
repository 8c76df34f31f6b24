/-
  Plain agents: they find nothing to do, never fail, and take their role from the name of
  their type. A runner that is cancelled before it runs lets its agent finish what there
  is to do and then stops.
-/
import RingTransport.Agent.TypeName
import RingTransport.Runner.Play

namespace RingTransport.Runner

/-- An agent that writes nothing down, never fails, and never has work. -/
def plainAgent (role : String) : Agent Unit where
  role := role
  perform _ _ s := (.plain (.ok 0), [], s)
  react _ _ s := (⟨[], false⟩, [], s)

/-- The plain agent of a type, by the full name of the type. -/
def agentOfType (fullName : String) : Agent Unit := plainAgent (TypeName.short fullName)

/-- What a callback of an agent comes to when it is called outside a runner. -/
def Agent.hookSucceeds {σ : Type} (agent : Agent σ) (c : Callback) (s : σ) : Bool :=
  (agent.perform c none s).1.ending.result.isOk

/-- What is known after a cancelled runner has run. -/
structure CancelledRun (σ : Type) where
  agent : σ
  closed : Bool
  panicked : Bool
  entries : List Entry

/-- Cancels a runner first and then runs it, on the main thread or on a new thread. -/
def runCancelled {σ : Type} (agent : Agent σ) (s : σ) (worker : Option String) (fuel : Nat) :
    Option (CancelledRun σ) := do
  let p ← ((Play.init 0 s).ask .cancel).settle agent fuel
  let t := if worker.isSome then p.players.length else 0
  let p := match worker with
    | none => p.ask .run
    | some name => p.addPlayer (.calling (some name) true [.run])
  let p ← p.settle agent fuel
  return ⟨p.agent, p.system.cells.closed, p.hasPanicked t, p.takeEntries.1⟩

end RingTransport.Runner
