/-
  The benchmarks on one thread: messages 0, 1, 2, … are published one by one, and when the
  ring is full it is drained before the claim is tried again. What is left at the end is
  drained as well. The checksum adds up all numbers that were read, modulo 2^64.
-/
import RingTransport.Ring.Claim
import RingTransport.Ring.Read

namespace RingTransport.Bench

variable {kind : Kind} {cap : Capacity} {ρ : Type}

/-- Reads everything there is and folds it into a result. -/
def drainInto (f : ρ → Nat → ρ) (r : Ring kind cap Nat) (x : ρ) : Ring kind cap Nat × ρ :=
  (r.readLimit (Ring.folding f) Ring.noLimit x).2

/-- Publishes a number with at most the given number of claims, draining the ring after
each claim that is refused. -/
def offer (f : ρ → Nat → ρ) (n : Nat) : (claims : Nat) → Ring kind cap Nat → ρ →
    Option (Ring kind cap Nat × ρ)
  | 0, _, _ => none
  | claims + 1, r, x =>
    match r.tryClaim with
    | (some seq, r) =>
      let i := cap.indexOf seq
      some ((r.write i n).commit i, x)
    | (none, r) =>
      let (r, x) := drainInto f r x
      offer f n claims r x

/-- Publishes `left` numbers from `n` on. -/
def offerAll (f : ρ → Nat → ρ) (claims : Nat) : (left n : Nat) → Ring kind cap Nat → ρ →
    Option (Ring kind cap Nat × ρ)
  | 0, _, r, x => some (r, x)
  | left + 1, n, r, x =>
    match offer f n claims r x with
    | none => none
    | some (r, x) => offerAll f claims left (n + 1) r x

/-- Publishes and reads the numbers below `iterations`, with at most `claims` claims for
each, and folds what is read. A full ring has room after it is drained, so two claims are
enough. -/
def circulate (kind : Kind) (cap : Capacity) (f : ρ → Nat → ρ) (claims iterations : Nat)
    (x : ρ) : Option ρ := do
  let (r, x) ← offerAll f claims iterations 0 (Ring.filled 0 : Ring kind cap Nat) x
  return (drainInto f r x).2

/-- Adds a number to a checksum. -/
def addTo (sum : UInt64) (n : Nat) : UInt64 := sum + UInt64.ofNat n

/-- The number of claims a message may take. -/
def claimsPerMessage : Nat := 2

/-- The checksum of a benchmark on one thread. -/
def checksum (kind : Kind) (cap : Capacity) (iterations : Nat) : Option UInt64 :=
  circulate kind cap addTo claimsPerMessage iterations 0

end RingTransport.Bench
