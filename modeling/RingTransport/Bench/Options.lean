/-
  The options of the benchmark command. Options are read from the left; an option that
  takes a value takes the next argument, whatever it looks like. A value that is no
  number, and an argument that is no option, change nothing. Asking for help ends the
  reading.
-/
import RingTransport.Word

namespace RingTransport.Bench

/-- What the benchmarks are run with. -/
structure Options where
  iterations : Nat
  capacity : Nat
  producers : Nat
  pin : Bool
  deriving DecidableEq, Repr

/-- The options when nothing is asked for. -/
def Options.standard : Options := ⟨1000000, 65536, 4, false⟩

/-- The options that take a value. -/
inductive NumberField where
  | iterations
  | capacity
  | producers
  deriving DecidableEq, Repr

/-- Sets the number of an option. -/
def Options.set (o : Options) (n : Nat) : NumberField → Options
  | .iterations => { o with iterations := n }
  | .capacity => { o with capacity := n }
  | .producers => { o with producers := n }

/-- An option. -/
inductive Flag where
  | number (f : NumberField)
  | pin
  | help
  deriving DecidableEq, Repr

/-- The option an argument names. -/
def Flag.ofArg? (arg : String) : Option Flag :=
  if arg = "--iterations" ∨ arg = "-n" then some (.number .iterations)
  else if arg = "--capacity" ∨ arg = "-c" then some (.number .capacity)
  else if arg = "--producers" ∨ arg = "-p" then some (.number .producers)
  else if arg = "--pin" then some .pin
  else if arg = "--help" ∨ arg = "-h" then some .help
  else none

/-! ## Numbers -/

/-- The value of a decimal digit. -/
def digit? (c : Char) : Option Nat :=
  if '0' ≤ c ∧ c ≤ '9' then some (c.toNat - '0'.toNat) else none

/-- The number that decimal digits continue. -/
def digits? : (n : Nat) → List Char → Option Nat
  | n, [] => some n
  | n, c :: cs => (digit? c).bind fun d => digits? (10 * n + d) cs

/-- A 64-bit number: at least one decimal digit, after a plus sign or not. -/
def number? (text : String) : Option Nat :=
  let digits := match text.toList with
    | '+' :: cs => cs
    | cs => cs
  if digits.isEmpty then none
  else (digits? 0 digits).filter (· < Word.count)

/-! ## Arguments -/

/-- What the arguments ask for. -/
inductive Command where
  | help
  | bench (o : Options)
  deriving DecidableEq, Repr

/-- Takes over the value of an option, if it is a number. -/
def Options.take (o : Options) (f : NumberField) (value : String) : Options :=
  match number? value with
  | some n => o.set n f
  | none => o

/-- Reads arguments, starting from given options. -/
def Command.ofArgs (o : Options) : List String → Command
  | [] => .bench o
  | arg :: args =>
    match Flag.ofArg? arg with
    | none => ofArgs o args
    | some .pin => ofArgs { o with pin := true } args
    | some .help => .help
    | some (.number f) =>
      match args with
      | [] => .bench o
      | value :: args => ofArgs (o.take f value) args

/-- The usage text, line by line. -/
def usage : List String :=
  ["Conduit Bench - lock-free ring buffer benchmarks",
    "",
    "Usage: conduit_bench [OPTIONS]",
    "",
    "Options:",
    "  -n, --iterations <N>  Messages per benchmark (default: 1000000)",
    "  -c, --capacity <N>    Ring capacity, power of 2 (default: 65536)",
    "  -p, --producers <N>   Producer threads for pipeline (default: 4)",
    "      --pin             Pin consumer agent to core 0",
    "  -h, --help            Show this help"]

end RingTransport.Bench
