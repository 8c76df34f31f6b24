/-
  Claiming a slot. A claim compares the two counters and, if there is room, moves the
  tail. With one producer that is a load of each counter and a store; with many it is
  two loads, a compare-and-swap that may have to be tried again, and a store of the
  slot's mark. Main fact: a claim whose accesses nobody interrupts gives what `tryClaim`
  gives (`claimAlone_eq_tryClaim`).
-/
import RingTransport.Ring.Basic

namespace RingTransport.Ring

variable {kind : Kind} {cap : Capacity} {α : Type}

/-- With many producers the slot of a claim is marked, so that no mark of an earlier lap
can be taken for its commit. -/
def markClaimed (r : Ring kind cap α) (seq : Nat) : Ring kind cap α :=
  match kind with
  | .oneProducer => r
  | .manyProducers => r.mark (cap.indexOf seq) .claimed

@[simp] theorem head_markClaimed (r : Ring kind cap α) (seq : Nat) :
    (r.markClaimed seq).head = r.head := by
  cases kind <;> rfl

@[simp] theorem tail_markClaimed (r : Ring kind cap α) (seq : Nat) :
    (r.markClaimed seq).tail = r.tail := by
  cases kind <;> rfl

@[simp] theorem slotOf_markClaimed (r : Ring kind cap α) (seq n : Nat) :
    (r.markClaimed seq).slotOf n = r.slotOf n := by
  cases kind <;> rfl

/-- Claims the next slot: the number of the claim, or nothing when the ring is full. -/
def tryClaim (r : Ring kind cap α) : Option Nat × Ring kind cap α :=
  let tail := r.tail
  if cap.size ≤ distance tail r.head then (none, r)
  else (some tail, (r.setTail (tail + 1)).markClaimed tail)

/-! ## A claim access by access -/

/-- Where a claim stands between two accesses. -/
inductive ClaimStage where
  /-- Nothing is loaded yet. -/
  | start
  /-- The first counter is loaded: the tail with one producer, the head with many. -/
  | loaded (counter : Nat)
  /-- There was room; the tail, last seen at `tail`, is to be moved. -/
  | room (tail : Nat)
  /-- The tail was moved from `seq`; the slot is to be marked. -/
  | won (seq : Nat)
  deriving DecidableEq, Repr

/-- What one access of a claim leads to. -/
inductive ClaimProgress where
  | going (stage : ClaimStage)
  /-- The compare-and-swap failed and the claim starts again. -/
  | lost
  | refused
  | taken (seq : Nat)
  deriving DecidableEq, Repr

/-- The next access of a claim. A compare-and-swap fails when the tail has moved since it
was loaded, and may fail for no reason at all (`spurious`). -/
def claimAccess (spurious : Bool) (stage : ClaimStage) (r : Ring kind cap α) :
    ClaimProgress × Ring kind cap α :=
  match kind, stage with
  | .oneProducer, .start => (.going (.loaded r.tail), r)
  | .oneProducer, .loaded tail =>
    if cap.size ≤ distance tail r.head then (.refused, r) else (.going (.room tail), r)
  | .oneProducer, .room tail => (.taken tail, r.setTail (tail + 1))
  | .oneProducer, .won seq => (.taken seq, r)
  | .manyProducers, .start => (.going (.loaded r.head), r)
  | .manyProducers, .loaded head =>
    let tail := r.tail
    if cap.size ≤ distance tail head then (.refused, r) else (.going (.room tail), r)
  | .manyProducers, .room tail =>
    if r.tail = tail ∧ spurious = false then (.going (.won tail), r.setTail (tail + 1))
    else (.lost, r)
  | .manyProducers, .won seq => (.taken seq, r.mark (cap.indexOf seq) .claimed)

/-- At most `fuel` accesses of a claim, with nothing in between them. -/
def claimAlone : (fuel : Nat) → ClaimStage → Ring kind cap α → Option Nat × Ring kind cap α
  | 0, _, r => (none, r)
  | fuel + 1, stage, r =>
    match claimAccess false stage r with
    | (.going stage, r) => claimAlone fuel stage r
    | (.lost, r) => claimAlone fuel .start r
    | (.refused, r) => (none, r)
    | (.taken seq, r) => (some seq, r)

theorem claimAlone_eq_tryClaim (r : Ring kind cap α) :
    claimAlone 4 .start r = r.tryClaim := by
  cases kind <;> by_cases h : cap.size ≤ distance r.tail r.head <;>
    simp [claimAlone, claimAccess, tryClaim, markClaimed, setTail, h]

end RingTransport.Ring
