/-
  Durations: whole seconds that fit a word and nanoseconds below one second. Main facts: the
  order of durations is the order of their total nanoseconds (`le_iff`), and a multiple
  is exact or, when it does not fit, the longest duration (`total_saturatingMul`).
-/
import RingTransport.Word

namespace RingTransport

/-- Nanoseconds in a second. -/
def nanosPerSecond : Nat := 1000000000

/-- A length of time. -/
structure Duration where
  seconds : Nat
  nanos : Nat
  seconds_lt : seconds < Word.count
  nanos_lt : nanos < nanosPerSecond
  deriving DecidableEq, Repr

namespace Duration

/-- The length in nanoseconds. -/
def total (d : Duration) : Nat := d.seconds * nanosPerSecond + d.nanos

/-- The duration of given seconds and nanoseconds, if they are in range. -/
def ofParts? (seconds nanos : Nat) : Option Duration :=
  if h : seconds < Word.count ∧ nanos < nanosPerSecond then some ⟨seconds, nanos, h.1, h.2⟩ else none

/-- The longest duration. -/
def longest : Duration := ⟨Word.largest, nanosPerSecond - 1, by decide, by decide⟩

/-- The duration of a number of microseconds below one second. -/
def ofMicros (micros : Nat) (h : micros * 1000 < nanosPerSecond) : Duration :=
  ⟨0, micros * 1000, by decide, h⟩

/-- Whether a duration is at most as long as another: seconds first. -/
def le (a b : Duration) : Bool :=
  a.seconds < b.seconds || (a.seconds == b.seconds && a.nanos ≤ b.nanos)

/-- The shorter of two durations. -/
def shorter (a b : Duration) : Duration := if a.le b then a else b

/-- The longer of two durations. -/
def longer (a b : Duration) : Duration := if a.le b then b else a

/-- A multiple of a duration: full seconds among the nanoseconds are carried, and what
does not fit is cut to the longest duration. -/
def saturatingMul (d : Duration) (k : Nat) : Duration :=
  let nanos := d.nanos * k
  let seconds := d.seconds * k + nanos / nanosPerSecond
  if h : seconds < Word.count then
    ⟨seconds, nanos % nanosPerSecond, h, Nat.mod_lt _ (by decide)⟩
  else longest

theorem le_iff (a b : Duration) : a.le b = true ↔ a.total ≤ b.total := by
  have ha := a.nanos_lt
  have hb := b.nanos_lt
  simp only [le, total, nanosPerSecond, Bool.or_eq_true, Bool.and_eq_true, decide_eq_true_eq,
    beq_iff_eq] at *
  omega

theorem total_le_longest (d : Duration) : d.total ≤ longest.total := by
  have h1 := d.seconds_lt
  have h2 := d.nanos_lt
  simp only [total, longest, nanosPerSecond, Word.count, Word.largest] at *
  omega

theorem total_longest : longest.total = Word.count * nanosPerSecond - 1 := by decide

theorem total_saturatingMul (d : Duration) (k : Nat) :
    (d.saturatingMul k).total = min (d.total * k) longest.total := by
  have hmul : d.total * k = d.seconds * k * nanosPerSecond + d.nanos * k := by
    rw [total, Nat.add_mul, Nat.mul_right_comm]
  have hdiv := Nat.div_add_mod' (d.nanos * k) nanosPerSecond
  by_cases h : d.seconds * k + d.nanos * k / nanosPerSecond < Word.count
  · have heq : (d.saturatingMul k).total = d.total * k := by
      rw [hmul]
      simp only [saturatingMul, h, dite_true, total, Nat.add_mul]
      clear h
      omega
    have := total_le_longest (d.saturatingMul k)
    clear h
    omega
  · have heq : d.saturatingMul k = longest := by
      simp only [saturatingMul, h, dite_false]
    have hle : Word.count * nanosPerSecond ≤
        (d.seconds * k + d.nanos * k / nanosPerSecond) * nanosPerSecond :=
      Nat.mul_le_mul_right _ (Nat.le_of_not_lt h)
    rw [Nat.add_mul] at hle
    rw [heq, hmul, total_longest]
    clear h
    generalize Word.count * nanosPerSecond = limit at hle ⊢
    omega

theorem total_shorter (a b : Duration) : (a.shorter b).total = min a.total b.total := by
  by_cases h : a.le b
  · have := (le_iff a b).1 h
    simp only [shorter, h, if_true]
    omega
  · have := mt (le_iff a b).2 h
    simp only [shorter, h]
    simp only [Bool.false_eq_true, if_false]
    omega

theorem total_longer (a b : Duration) : (a.longer b).total = max a.total b.total := by
  by_cases h : a.le b
  · have := (le_iff a b).1 h
    simp only [longer, h, if_true]
    omega
  · have := mt (le_iff a b).2 h
    simp only [longer, h]
    simp only [Bool.false_eq_true, if_false]
    omega

end Duration

end RingTransport
