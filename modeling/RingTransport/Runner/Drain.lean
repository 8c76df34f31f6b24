/-
  Draining a ring: an agent that reads a limited number of messages at a time and tells
  how many it read. Its runner is cancelled before it runs, so it stops once a read finds
  nothing more.
-/
import RingTransport.Ring.Claim
import RingTransport.Ring.Read
import RingTransport.Runner.Plain

namespace RingTransport.Runner

/-- A ring and the messages read from it, newest first. -/
structure DrainState (kind : Kind) (cap : Capacity) (α : Type) where
  ring : Ring kind cap α
  taken : List α

variable {kind : Kind} {cap : Capacity} {α : Type}

/-- The agent that reads at most `limit` messages at a time. -/
def drainAgent (limit : Nat) : Agent (DrainState kind cap α) where
  role := "drain"
  perform
    | .doWork, _, ⟨ring, taken⟩ =>
      let (messages, ring) := ring.take limit
      let count := messages.length
      (.plain (.ok count), [.work count], ⟨ring, messages.reverse ++ taken⟩)
    | _, _, s => (.plain (.ok 0), [], s)
  react _ e s := (⟨[], false⟩, [.error e], s)

/-- Claims a slot for each message and writes it, as long as there is room, and commits
all but the message at position `gap`. The count is the number of commits. -/
def publishExcept (gap : Option Nat) :
    List α → (position commits : Nat) → Ring kind cap α → Nat × Ring kind cap α
  | [], _, commits, r => (commits, r)
  | x :: xs, position, commits, r =>
    match r.tryClaim with
    | (none, r) => publishExcept gap xs (position + 1) commits r
    | (some seq, r) =>
      let i := cap.indexOf seq
      let r := r.write i x
      if gap = some position then publishExcept gap xs (position + 1) commits r
      else publishExcept gap xs (position + 1) (commits + 1) (r.commit i)

/-- What a drain comes to. -/
structure DrainReport (α : Type) where
  published : Nat
  values : List α
  left : Nat
  closed : Bool
  entries : List Entry

/-- Fills an empty ring, and drains it with a runner that is cancelled before it runs. -/
def drain (ring : Ring kind cap α) (gap : Option Nat) (values : List α) (limit : Nat) :
    Option (DrainReport α) := do
  let (published, ring) := publishExcept gap values 0 0 ring
  let run ← runCancelled (drainAgent limit) ⟨ring, []⟩ none (100 * (values.length + 10))
  return ⟨published, run.agent.taken.reverse, run.agent.ring.len, run.closed, run.entries⟩

end RingTransport.Runner
