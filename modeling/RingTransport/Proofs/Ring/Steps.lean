/-
  The steps of the threads around a ring, one case for each way in which a move can be
  made. `stepOf` says that every step is one of them, so that a fact about all steps is
  proved case by case, without looking at the threads again.
-/
import RingTransport.Ring.Threads

namespace RingTransport.Threads

variable {kind : Kind} {cap : Capacity} {α : Type}

/-- What a move shows and what it leads to. -/
inductive StepOf : Threads kind cap α → Move α → Signal α → Threads kind cap α → Prop
  /-- The move cannot be made. -/
  | ignored (s : Threads kind cap α) (move : Move α) : StepOf s move .ignored s
  | claim {r ps c p held} (hp : ps[p]? = some ⟨none, held⟩) :
      StepOf ⟨r, ps, c⟩ (.claim p) (.claimStarted p)
        ⟨r, ps.set p ⟨some (.claiming .start), held⟩, c⟩
  | measure {r ps c p held} (hp : ps[p]? = some ⟨none, held⟩) :
      StepOf ⟨r, ps, c⟩ (.measure p) (.measureStarted p)
        ⟨r, ps.set p ⟨some (.measuring .start), held⟩, c⟩
  | produce {r ps c p call held} (hp : ps[p]? = some ⟨some call, held⟩) (spurious : Bool) :
      StepOf ⟨r, ps, c⟩ (.produce p spurious) (produceAccess p spurious call held r).1
        ⟨(produceAccess p spurious call held r).2.2,
          ps.set p (produceAccess p spurious call held r).2.1, c⟩
  | write {r ps c p held seq} (hp : ps[p]? = some ⟨none, held⟩) (hseq : seq ∈ held)
      (message : α) :
      StepOf ⟨r, ps, c⟩ (.write p seq message) (.wrote p seq message)
        ⟨r.write (cap.indexOf seq) message, ps, c⟩
  | commit {r ps c p held seq} (hp : ps[p]? = some ⟨none, held⟩) (hseq : seq ∈ held) :
      StepOf ⟨r, ps, c⟩ (.commit p seq) (.committed p seq (r.slotOf seq))
        ⟨r.commit (cap.indexOf seq), ps.set p ⟨none, held.erase seq⟩, c⟩
  | abandon {r ps c p held seq} (hp : ps[p]? = some ⟨none, held⟩) (hseq : seq ∈ held) :
      StepOf ⟨r, ps, c⟩ (.abandon p seq) (.abandoned p seq)
        ⟨r, ps.set p ⟨none, held.erase seq⟩, c⟩
  | read {r ps} (limit : Nat) :
      StepOf ⟨r, ps, none⟩ (.read limit) (.readStarted limit)
        ⟨r, ps, some (.reading (.start limit))⟩
  | measureRead {r ps} :
      StepOf ⟨r, ps, none⟩ .measureRead .measureReadStarted
        ⟨r, ps, some (.measuring .start)⟩
  | consume {r ps} (call : ConsumerCall) (fails : Bool) :
      StepOf ⟨r, ps, some call⟩ (.consume fails) (consumeAccess fails call r).1
        ⟨(consumeAccess fails call r).2.2, ps, (consumeAccess fails call r).2.1⟩

/-- Every step is one of these. -/
theorem stepOf (s : Threads kind cap α) (move : Move α) :
    StepOf s move (s.step move).1 (s.step move).2 := by
  obtain ⟨r, ps, c⟩ := s
  cases move with
  | claim p =>
    simp only [step]
    split
    next held hp => exact .claim hp
    next => exact .ignored _ _
  | measure p =>
    simp only [step]
    split
    next held hp => exact .measure hp
    next => exact .ignored _ _
  | produce p spurious =>
    simp only [step]
    split
    next call held hp => exact .produce hp spurious
    next => exact .ignored _ _
  | write p seq message =>
    simp only [step]
    split
    next held hp =>
      split
      next hseq => exact .write hp hseq message
      next => exact .ignored _ _
    next => exact .ignored _ _
  | commit p seq =>
    simp only [step]
    split
    next held hp =>
      split
      next hseq => exact .commit hp hseq
      next => exact .ignored _ _
    next => exact .ignored _ _
  | abandon p seq =>
    simp only [step]
    split
    next held hp =>
      split
      next hseq => exact .abandon hp hseq
      next => exact .ignored _ _
    next => exact .ignored _ _
  | read limit =>
    cases c with
    | none => exact .read limit
    | some call => exact .ignored _ _
  | measureRead =>
    cases c with
    | none => exact .measureRead
    | some call => exact .ignored _ _
  | consume fails =>
    cases c with
    | none => exact .ignored _ _
    | some call => exact .consume call fails

variable {s s' : Threads kind cap α} {move : Move α} {signal : Signal α}

/-- Threads neither come nor go. -/
theorem StepOf.length_eq (h : StepOf s move signal s') :
    s'.producers.length = s.producers.length := by
  cases h with
  | claim | measure | produce | commit | abandon => exact List.length_set
  | _ => rfl

end RingTransport.Threads
