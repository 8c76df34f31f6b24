/-
  What the benchmark command prints. Each benchmark prints a title, then its figures or,
  if its ring cannot be made, why it is skipped. The figures that depend on a clock are
  printed from a length of time in nanoseconds that the caller measures.
-/
import RingTransport.Bench.Circulate
import RingTransport.Bench.Options
import RingTransport.Bench.Pipeline

namespace RingTransport.Bench

/-- A line for one of the two streams. -/
inductive Line where
  | out (text : String)
  | err (text : String)
  deriving DecidableEq, Repr

/-! ## Figures from a clock -/

/-- A fraction with a fixed number of decimal places, rounded to nearest. -/
def fixed (places num den : Nat) : String :=
  if den = 0 then (if num = 0 then "NaN" else "inf")
  else
    let unit := Nat.pow 10 places
    let scaled := (2 * num * unit + den) / (2 * den)
    let fraction := toString (scaled % unit)
    toString (scaled / unit) ++ "." ++
      String.ofList (List.replicate (places - fraction.length) '0') ++ fraction

/-- The figures of a benchmark on one thread. -/
def latency (label : String) (iterations nanos : Nat) : List Line :=
  [.out ("  Operations:   " ++ toString iterations),
    .out ("  " ++ label ++ ": " ++ fixed 2 nanos iterations ++ " ns/op (" ++
      fixed 3 nanos (1000 * iterations) ++ " μs/op)"),
    .out ("  Throughput:   " ++ fixed 2 (1000 * iterations) nanos ++ " M ops/sec")]

/-! ## The benchmarks -/

/-- What is printed before anything else. -/
def greeting : List Line :=
  [.out "🚀 Conduit - Lock-Free Transport Benchmarks",
    .out "===========================================",
    .out ""]

/-- What is printed when all went well. -/
def farewell : List Line := [.out "", .out "✅ All benchmarks complete!"]

/-- The title of the first benchmark. -/
def oneToOneTitle : List Line :=
  [.out "📊 OneToOne Ring Buffer (Lock-Free SPSC)",
    .out "----------------------------------------"]

/-- The title of the second benchmark. -/
def manyToOneTitle : List Line :=
  [.out "📊 ManyToOne Ring Buffer (Lock-Free MPSC, single thread)",
    .out "--------------------------------------------------------"]

/-- The title of the third benchmark. -/
def pipelineTitle (producers : Nat) : List Line :=
  [.out ("📊 Pipeline: " ++ toString producers ++ " producers -> ManyToOne -> AgentRunner"),
    .out "----------------------------------------------------"]

/-- A benchmark that cannot be run. -/
def skipped (e : CapacityError) : List Line := [.err ("  Skipped: " ++ e.message), .err ""]

/-- What the first benchmark found: the checksum, if its ring can be made. -/
def oneToOne (o : Options) : Except CapacityError (Option UInt64) := do
  let cap ← Capacity.ofNat o.capacity
  return checksum .oneProducer cap o.iterations

/-- What the second benchmark found. -/
def manyToOne (o : Options) : Except CapacityError (Option UInt64) := do
  let cap ← Capacity.ofNat o.capacity
  return checksum .manyProducers cap o.iterations

/-- Why the third benchmark failed. -/
inductive PipelineError where
  | capacity (e : CapacityError)
  | lost (missing total : Nat)
  deriving DecidableEq, Repr

/-- The text of a failure. -/
def PipelineError.message : PipelineError → String
  | .capacity e => e.message
  | .lost missing total =>
    "lost messages: " ++ toString missing ++ " of " ++ toString total

/-- What the third benchmark found. -/
def runPipeline (o : Options) : Except CapacityError (Option PipelineReport) := do
  let cap ← Capacity.ofNat o.capacity
  return pipeline cap o.iterations o.producers

/-- The lines of the first benchmark after its title. -/
def oneToOneLines (o : Options) (nanos : Nat) : Except CapacityError (Option UInt64) → List Line
  | .error e => skipped e
  | .ok none => []
  | .ok (some sum) =>
    latency "Claim+commit+read" o.iterations nanos ++
      [.out ("  Checksum:     " ++ toString sum.toNat), .out ""]

/-- The lines of the second benchmark after its title. -/
def manyToOneLines (o : Options) (nanos : Nat) : Except CapacityError (Option UInt64) → List Line
  | .error e => skipped e
  | .ok none => []
  | .ok (some _) => latency "CAS claim+commit" o.iterations nanos ++ [.out ""]

/-- The figures of the third benchmark. -/
def pipelineFigures (r : PipelineReport) (nanos : Nat) : List Line :=
  [.out ("  Produced:     " ++ toString r.produced),
    .out ("  Consumed:     " ++ toString r.consumed),
    .out ("  Faults:       " ++ toString r.faults),
    .out ("  Checksum:     " ++ toString r.checksum.toNat),
    .out ("  Throughput:   " ++ fixed 2 (1000 * r.consumed) nanos ++ " M msgs/sec")]

/-- The lines of the third benchmark after its title, and why it failed, if it did. -/
def pipelineLines (nanos : Nat) :
    Except CapacityError (Option PipelineReport) → List Line × Option PipelineError
  | .error e => ([], some (.capacity e))
  | .ok none => ([], none)
  | .ok (some r) =>
    (pipelineFigures r nanos,
      if r.consumed = r.produced then none
      else some (.lost (distance r.produced r.consumed) r.produced))

/-- The last lines and the exit code, by what the third benchmark failed of. -/
def ending : Option PipelineError → List Line × Nat
  | none => (farewell, 0)
  | some e => ([.err ("❌ Pipeline benchmark failed: " ++ e.message)], 1)

/-! ## A whole session -/

/-- Everything a session printed, by stream, and its exit code. -/
structure SessionReport where
  out : List String
  err : List String
  code : Nat
  deriving DecidableEq, Repr

/-- Sorts lines by their streams. -/
def SessionReport.ofLines (lines : List Line) (code : Nat) : SessionReport where
  out := lines.filterMap fun
    | .out text => some text
    | .err _ => none
  err := lines.filterMap fun
    | .err text => some text
    | .out _ => none
  code := code

/-- The session for given arguments, with a clock that stands still. -/
def session (args : List String) : SessionReport :=
  match Command.ofArgs .standard args with
  | .help => .ofLines (usage.map .out) 0
  | .bench o =>
    let (figures, failure) := pipelineLines 0 (runPipeline o)
    let (last, code) := ending failure
    .ofLines
      (greeting ++ oneToOneTitle ++ oneToOneLines o 0 (oneToOne o) ++
        manyToOneTitle ++ manyToOneLines o 0 (manyToOne o) ++
        pipelineTitle o.producers ++ figures ++ last) code

end RingTransport.Bench
