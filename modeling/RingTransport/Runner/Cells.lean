/-
  What the threads around a runner share: three flags, the binding of the runner to a
  thread, the latch that closers wait on, and the counters of its error handler. Threads
  are known by numbers.
-/

namespace RingTransport.Runner

/-- Whether a runner can still be bound to a thread. -/
inductive Tag where
  | unbound
  | bound
  | closed
  deriving DecidableEq, Repr

/-- The latch a finished runner opens: a flag under a lock, and the threads that are asleep
until they are woken, or wake up by themselves. -/
structure Latch where
  done : Bool
  holder : Option Nat
  sleepers : List Nat
  deriving DecidableEq, Repr

/-- The shared cells of a runner. -/
structure Cells where
  running : Bool
  closed : Bool
  cancelled : Bool
  tag : Tag
  /-- The thread that bound the runner, once it has said so. -/
  handle : Option Nat
  latch : Latch
  /-- One for each counting layer of the handler, without a bound. -/
  counters : List Nat
  deriving DecidableEq, Repr

/-- The cells of a new runner. -/
def Cells.init (counters : List Nat) : Cells :=
  ⟨true, false, false, .unbound, none, ⟨false, none, []⟩, counters⟩

/-- What an observer sees of a runner when nothing changes meanwhile. Threads are known
by numbers or by names. -/
structure Snapshot (τ : Type) where
  running : Bool
  closed : Bool
  cancelled : Bool
  tag : Tag
  thread : Option τ
  deriving DecidableEq, Repr

/-- A runner that is closed does not count as running. -/
def Cells.snapshot (c : Cells) : Snapshot Nat :=
  ⟨c.running && !c.closed, c.closed, c.cancelled, c.tag, c.handle⟩

/-- Names the thread of a snapshot. -/
def Snapshot.named (s : Snapshot Nat) (nameOf : Nat → Option String) : Snapshot String :=
  { s with thread := s.thread.bind nameOf }

end RingTransport.Runner
