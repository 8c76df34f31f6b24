/-
  Reading. A read loads both counters once, then hands over message after message in
  claim order until it has as many as it may, or meets a slot that is not ready. Each
  slot is unmarked after its message is handed over; the head moves once, at the end. A
  callback that fails cuts the read short: the marks cleared so far stay cleared, and
  the head does not move. Main facts: what a read with a callback that leaves the ring
  alone hands over, and that a read whose accesses nobody interrupts gives what `scan`
  gives.
-/
import RingTransport.Ring.Basic

namespace RingTransport.Ring

variable {kind : Kind} {cap : Capacity} {α ρ : Type}

/-- How a read ends: with the number of messages it handed over, or cut short by the
callback for the message at `position`, counted from 0. -/
inductive ReadEnd where
  | finished (count : Nat)
  | failed (position : Nat)
  deriving DecidableEq, Repr

/-- A message as it is handed over: its position in this read, its number among all
messages of the ring, and its content. -/
structure Delivery (α : Type) where
  position : Nat
  seq : Nat
  message : α
  deriving DecidableEq, Repr

/-- What a read calls for each message: it gets the message, the ring and a state of its
own, and tells whether it returned normally. -/
abbrev Visitor (kind : Kind) (cap : Capacity) (α ρ : Type) :=
  Delivery α → Ring kind cap α → ρ → Bool × Ring kind cap α × ρ

/-- Hands over the messages from `start + count` on, at most `left` of them. -/
def scan (visit : Visitor kind cap α ρ) (start : Nat) :
    (left count : Nat) → Ring kind cap α → ρ → ReadEnd × Ring kind cap α × ρ
  | 0, count, r, x => (.finished count, r.setHead (start + count), x)
  | left + 1, count, r, x =>
    let seq := start + count
    if r.markOf seq = .ready then
      let message := r.slotOf seq
      match visit ⟨count, seq, message⟩ r x with
      | (true, r, x) => scan visit start left (count + 1) (r.mark (cap.indexOf seq) .empty) x
      | (false, r, x) => (.failed count, r, x)
    else (.finished count, r.setHead seq, x)

/-- Reads at most `limit` messages. -/
def readLimit (visit : Visitor kind cap α ρ) (limit : Nat) (r : Ring kind cap α) (x : ρ) :
    ReadEnd × Ring kind cap α × ρ :=
  scan visit r.head (min (distance r.tail r.head) limit) 0 r x

/-- The limit of a read that asks for everything. -/
def noLimit : Nat := Word.largest

/-- The visitor that folds the messages into its state and leaves the ring alone. -/
def folding (f : ρ → α → ρ) : Visitor kind cap α ρ :=
  fun d r x => (true, r, f x d.message)

/-- Reads at most `limit` messages into a list. -/
def take (limit : Nat) (r : Ring kind cap α) : List α × Ring kind cap α :=
  let (_, r, rev) := readLimit (folding fun rev message => message :: rev) limit r []
  (rev.reverse, r)

/-! ## A read access by access -/

/-- Where a read stands between two accesses. In the last four stages the read has loaded
the head `start` and handed over, or is handing over, the message at `start + count`. -/
inductive ReadStage where
  | start (limit : Nat)
  | loaded (start limit : Nat)
  /-- The mark of the next message is to be looked at; `left` messages may still go. -/
  | looking (start count left : Nat)
  /-- The mark was ready; the callback is to be called. -/
  | handing (start count left : Nat)
  /-- The callback returned; the mark is to be cleared. -/
  | clearing (start count left : Nat)
  /-- The head is to be moved. -/
  | leaving (start count : Nat)
  deriving DecidableEq, Repr

/-- The stage after `count` messages: look at the next one if it may still go. -/
def ReadStage.next (start count : Nat) : (left : Nat) → ReadStage
  | 0 => .leaving start count
  | left + 1 => .looking start count (left + 1)

/-- What one access of a read leads to. -/
inductive ReadProgress (α : Type) where
  | going (stage : ReadStage)
  /-- Message `seq` was handed over and the callback returned. -/
  | handed (seq : Nat) (message : α) (stage : ReadStage)
  /-- Message `seq` was handed over and the callback failed. -/
  | failed (seq : Nat) (message : α)
  | finished (count : Nat)

/-- The next access of a read; a call of the callback counts as one access. -/
def readAccess (fails : Bool) (stage : ReadStage) (r : Ring kind cap α) :
    ReadProgress α × Ring kind cap α :=
  match stage with
  | .start limit => (.going (.loaded r.head limit), r)
  | .loaded start limit => (.going (.next start 0 (min (distance r.tail start) limit)), r)
  | .looking start count left =>
    if r.markOf (start + count) = .ready then (.going (.handing start count left), r)
    else (.going (.leaving start count), r)
  | .handing start count left =>
    let message := r.slotOf (start + count)
    if fails then (.failed (start + count) message, r)
    else (.handed (start + count) message (.clearing start count left), r)
  | .clearing start count left =>
    (.going (.next start (count + 1) (left - 1)), r.mark (cap.indexOf (start + count)) .empty)
  | .leaving start count => (.finished count, r.setHead (start + count))

/-- At most `fuel` accesses of a read with nothing in between them. The callback folds
the messages into `x`. -/
def readAlone (f : ρ → α → ρ) :
    (fuel : Nat) → ReadStage → Ring kind cap α → ρ → Option (Nat × Ring kind cap α × ρ)
  | 0, _, _, _ => none
  | fuel + 1, stage, r, x =>
    match readAccess false stage r with
    | (.going stage, r) => readAlone f fuel stage r x
    | (.handed _ message stage, r) => readAlone f fuel stage r (f x message)
    | (.failed _ _, _) => none
    | (.finished count, r) => some (count, r, x)

theorem readAlone_next (f : ρ → α → ρ) (start left : Nat) :
    ∀ (count fuel : Nat) (r : Ring kind cap α) (x : ρ), 3 * left + 2 ≤ fuel →
      ∃ n r' x', scan (folding f) start left count r x = (.finished n, r', x') ∧
        readAlone f fuel (.next start count left) r x = some (n, r', x') := by
  induction left with
  | zero =>
    intro count fuel r x hf
    obtain ⟨fuel, rfl⟩ : ∃ k, fuel = k + 1 := ⟨fuel - 1, by omega⟩
    exact ⟨count, _, _, rfl, rfl⟩
  | succ left ih =>
    intro count fuel r x hf
    obtain ⟨fuel, rfl⟩ : ∃ k, fuel = k + 3 := ⟨fuel - 3, by omega⟩
    by_cases h : r.markOf (start + count) = .ready
    · have := ih (count + 1) fuel (r.mark (cap.indexOf (start + count)) .empty)
        (f x (r.slotOf (start + count))) (by omega)
      simpa [scan, folding, readAlone, readAccess, ReadStage.next, h] using this
    · exact ⟨count, r.setHead (start + count), x, by simp [scan, h],
        by simp [readAlone, readAccess, ReadStage.next, h]⟩

/-- A read that nobody interrupts gives what `readLimit` gives. -/
theorem readAlone_start (f : ρ → α → ρ) (limit fuel : Nat) (r : Ring kind cap α) (x : ρ)
    (hf : 3 * min (distance r.tail r.head) limit + 4 ≤ fuel) :
    ∃ n r' x', readLimit (folding f) limit r x = (.finished n, r', x') ∧
      readAlone f fuel (.start limit) r x = some (n, r', x') := by
  obtain ⟨fuel, rfl⟩ : ∃ k, fuel = k + 2 := ⟨fuel - 2, by omega⟩
  have := readAlone_next f r.head (min (distance r.tail r.head) limit) 0 fuel r x (by omega)
  simpa [readLimit, readAlone, readAccess] using this

end RingTransport.Ring
