/-
  Waiting strategies for threads that find nothing to do. A back-off spins, then yields,
  then parks for longer and longer, and starts over when there is work. Main fact: a park
  time doubles until it reaches the cap (`total_nextPark`).
-/
import RingTransport.Idle.Duration

namespace RingTransport

/-- How a back-off is set up. The cap is at least the least park time. -/
structure Backoff.Config where
  maxSpins : UInt32
  maxYields : UInt32
  minPark : Duration
  maxPark : Duration
  deriving DecidableEq, Repr

/-- What a back-off does when it is idle next. -/
inductive Backoff.Phase where
  | spinning
  | yielding
  | parking
  deriving DecidableEq, Repr

/-- A back-off: its set-up, its phase, what it has counted, and how long it parks next. -/
structure Backoff where
  config : Backoff.Config
  phase : Backoff.Phase
  spins : UInt32
  yields : UInt32
  park : Duration
  deriving DecidableEq, Repr

namespace Backoff

/-- A set-up. A cap below the least park time is raised to it. -/
def Config.ofLimits (maxSpins maxYields : UInt32) (minPark maxPark : Duration) : Config :=
  ⟨maxSpins, maxYields, minPark, minPark.longer maxPark⟩

/-- The usual set-up: 100 spins, 10 yields, and parks from a microsecond to a
millisecond. -/
def Config.usual : Config :=
  .ofLimits 100 10 (.ofMicros 1 (by decide)) (.ofMicros 1000 (by decide))

/-- A new back-off. -/
def ofConfig (config : Config) : Backoff := ⟨config, .spinning, 0, 0, config.minPark⟩

/-- Starts over. -/
def reset (b : Backoff) : Backoff := ofConfig b.config

/-- The park time after a park: twice as long, up to the cap. -/
def nextPark (park cap : Duration) : Duration := (park.saturatingMul 2).shorter cap

theorem total_nextPark (park cap : Duration) (h : cap.total ≤ Duration.longest.total) :
    (nextPark park cap).total = min (park.total * 2) cap.total := by
  rw [nextPark, Duration.total_shorter, Duration.total_saturatingMul]
  omega

/-- Waits once, in the manner of the phase. -/
def wait (b : Backoff) : Backoff :=
  match b.phase with
  | .spinning =>
    let spins := b.spins + 1
    { b with spins, phase := if b.config.maxSpins ≤ spins then .yielding else .spinning }
  | .yielding =>
    let yields := b.yields + 1
    { b with yields, phase := if b.config.maxYields ≤ yields then .parking else .yielding }
  | .parking => { b with park := nextPark b.park b.config.maxPark }

/-- Told how much work was done: waits if there was none, and starts over otherwise. -/
def idle (b : Backoff) (work : Nat) : Backoff := if work = 0 then b.wait else b.reset

end Backoff

/-- A waiting strategy. The first two have no memory. -/
inductive IdleStrategy where
  | busySpin
  | yielding
  | backoff (b : Backoff)
  deriving DecidableEq, Repr

namespace IdleStrategy

/-- Told how much work was done. -/
def idle (work : Nat) : IdleStrategy → IdleStrategy
  | .backoff b => .backoff (b.idle work)
  | s => s

/-- Told the same a number of times. -/
def idleTimes (work : Nat) : (times : Nat) → IdleStrategy → IdleStrategy
  | 0, s => s
  | times + 1, s => idleTimes work times (s.idle work)

/-- Starts over. -/
def reset : IdleStrategy → IdleStrategy
  | .backoff b => .backoff b.reset
  | s => s

end IdleStrategy

end RingTransport
