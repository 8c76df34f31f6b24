/-
  Error handlers. A handler is the way a fault leaves a runner. Counting layers can be
  put around it: each adds one to its own counter and passes the error on. The counters
  live outside the handler and outlast it. Main facts: a report adds one to the counter
  of every layer and reaches the innermost handler once, whether or not that handler
  then fails (`bumps`, `report_eq`).
-/
import RingTransport.Agent.Error
import RingTransport.Log

namespace RingTransport

/-- The innermost handler, or a layer that counts in the counter of a number. -/
inductive Handler where
  | innermost
  | counted (counter : Nat) (inner : Handler)
  deriving DecidableEq, Repr

/-- A handler with the counters of its layers, innermost first, and the state of its
innermost part. After the handler is gone the counters can still be read. -/
structure Reporting (σ : Type) where
  handler : Option Handler
  counters : List Nat
  state : σ

/-- Adds one to a counter. A counter has no bound here; it is what a word of 64 bits shows
of fewer than 2^64 reports. -/
def bump (counters : List Nat) (i : Nat) : List Nat := counters.modify i (· + 1)

namespace Handler

variable {σ : Type}

/-- Passes an error through the layers to the innermost handler, which tells whether it
returned normally. -/
def report (deliver : AgentError → σ → Bool × σ) (e : AgentError) :
    Handler → List Nat → σ → Bool × List Nat × σ
  | innermost, counters, s =>
    let (ok, s) := deliver e s
    (ok, counters, s)
  | counted i inner, counters, s => report deliver e inner (bump counters i) s

/-- What a report does to the counters. -/
def bumps : Handler → List Nat → List Nat
  | innermost, counters => counters
  | counted i inner, counters => bumps inner (bump counters i)

theorem report_eq (deliver : AgentError → σ → Bool × σ) (e : AgentError) (h : Handler)
    (counters : List Nat) (s : σ) :
    h.report deliver e counters s =
      ((deliver e s).1, h.bumps counters, (deliver e s).2) := by
  induction h generalizing counters with
  | innermost => rfl
  | counted i inner ih => exact ih _

end Handler

namespace Reporting

variable {σ : Type}

/-- A handler without counting layers. -/
def bare (s : σ) : Reporting σ := ⟨some .innermost, [], s⟩

/-- Puts a counting layer around the handler, its counter at 0. -/
def wrap (r : Reporting σ) : Reporting σ :=
  ⟨r.handler.map (.counted r.counters.length), r.counters ++ [0], r.state⟩

/-- A handler with a number of counting layers. -/
def nested (s : σ) : (depth : Nat) → Reporting σ
  | 0 => bare s
  | depth + 1 => (nested s depth).wrap

/-- Reports an error; false when the innermost handler failed. -/
def report (deliver : AgentError → σ → Bool × σ) (e : AgentError) (r : Reporting σ) :
    Bool × Reporting σ :=
  match r with
  | ⟨some h, counters, s⟩ =>
    let (ok, counters, s) := h.report deliver e counters s
    (ok, ⟨some h, counters, s⟩)
  | r => (true, r)

/-- The handler goes and leaves its counters. -/
def drop (r : Reporting σ) : Reporting σ := { r with handler := none }

end Reporting

/-- The record of a handler that logs; a thread without a name is shown as such. -/
def faultRecord (thread : Option String) (e : AgentError) : Log.Record :=
  ⟨.error, "agent fault",
    [("thread", .text (thread.getD "<unnamed>")), ("error", .text e.text)]⟩

end RingTransport
