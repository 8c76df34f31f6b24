/-
  The benchmark command.
-/
import RingTransport.Bench.Report

open RingTransport.Bench

/-- Prints lines to their streams. -/
def printLines (lines : List Line) : IO Unit :=
  lines.forM fun
    | .out text => IO.println text
    | .err text => IO.eprintln text

/-- Runs a computation and measures it in nanoseconds. -/
def timed {α : Type} (run : Unit → α) : IO (α × Nat) := do
  let start ← IO.monoNanosNow
  let result ← IO.lazyPure run
  return (result, (← IO.monoNanosNow) - start)

/-- Runs the benchmarks that the arguments ask for. -/
def main (args : List String) : IO UInt32 := do
  match Command.ofArgs .standard args with
  | .help =>
    printLines (usage.map .out)
    return 0
  | .bench o =>
    printLines (greeting ++ oneToOneTitle)
    let (first, nanos) ← timed fun _ => oneToOne o
    printLines (oneToOneLines o nanos first)
    printLines manyToOneTitle
    let (second, nanos) ← timed fun _ => manyToOne o
    printLines (manyToOneLines o nanos second)
    printLines (pipelineTitle o.producers)
    let (third, nanos) ← timed fun _ => runPipeline o
    let (figures, failure) := pipelineLines nanos third
    let (last, code) := ending failure
    printLines (figures ++ last)
    return UInt32.ofNat code
