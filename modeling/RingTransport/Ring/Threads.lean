/-
  A ring shared by producer threads and one consumer thread. A step is one access of one
  thread to the ring: a load, a store, a compare-and-swap, a write to a slot, or one call
  of a reader's callback. Threads take their steps in any order. Each step gives a signal,
  so a run is known by its list of signals. Nothing here says which calls a thread makes;
  a run in which the threads follow a program is a run of this system all the same. Main
  fact: a run can be cut anywhere (`run_append`).
-/
import RingTransport.Ring.Claim
import RingTransport.Ring.Read

namespace RingTransport

/-- Where a call of `len` stands: the head is loaded first, then the tail. -/
inductive LenStage where
  | start
  | loaded (head : Nat)
  deriving DecidableEq, Repr

/-- A call a producer is in the middle of. -/
inductive ProducerCall where
  | claiming (stage : Ring.ClaimStage)
  | measuring (stage : LenStage)
  deriving DecidableEq, Repr

/-- A producer thread: its call in progress and the claims it holds, newest first. -/
structure ProducerThread where
  call : Option ProducerCall
  held : List Nat
  deriving DecidableEq, Repr

/-- A call the consumer is in the middle of. -/
inductive ConsumerCall where
  | reading (stage : Ring.ReadStage)
  | measuring (stage : LenStage)
  deriving DecidableEq, Repr

/-- The ring and its threads. -/
structure Threads (kind : Kind) (cap : Capacity) (α : Type) where
  ring : Ring kind cap α
  producers : List ProducerThread
  consumer : Option ConsumerCall

namespace Threads

variable {kind : Kind} {cap : Capacity} {α : Type}

/-- Idle threads around a ring. -/
def init (producers : Nat) (ring : Ring kind cap α) : Threads kind cap α :=
  ⟨ring, List.replicate producers ⟨none, []⟩, none⟩

/-- A step a thread may take. -/
inductive Move (α : Type) where
  /-- Producer `p` starts a claim. -/
  | claim (p : Nat)
  /-- Producer `p` starts to measure the ring. -/
  | measure (p : Nat)
  /-- Producer `p` makes the next access of its call; a compare-and-swap may fail for no
  reason. -/
  | produce (p : Nat) (spurious : Bool)
  /-- Producer `p` writes into the slot of a claim it holds. -/
  | write (p seq : Nat) (message : α)
  /-- Producer `p` commits a claim it holds. -/
  | commit (p seq : Nat)
  /-- Producer `p` gives up a claim it holds. -/
  | abandon (p seq : Nat)
  /-- The consumer starts a read. -/
  | read (limit : Nat)
  /-- The consumer starts to measure the ring. -/
  | measureRead
  /-- The consumer makes the next access of its call; if that calls the callback, the
  callback may fail. -/
  | consume (fails : Bool)

/-- What a step shows to an observer. -/
inductive Signal (α : Type) where
  /-- The thread cannot make the move; nothing happened. -/
  | ignored
  /-- An access that ends nothing. -/
  | quiet
  | claimStarted (p : Nat)
  | claimed (p seq : Nat)
  | refused (p : Nat)
  /-- Producer `p` lost a compare-and-swap. -/
  | lost (p : Nat)
  | measureStarted (p : Nat)
  | measured (p len : Nat)
  | wrote (p seq : Nat) (message : α)
  /-- Producer `p` committed a claim whose slot held the message. -/
  | committed (p seq : Nat) (message : α)
  | abandoned (p seq : Nat)
  | readStarted (limit : Nat)
  /-- The callback took a message and returned. -/
  | handed (seq : Nat) (message : α)
  /-- The callback failed on a message. -/
  | failed (seq : Nat) (message : α)
  | readEnded (count : Nat)
  | measureReadStarted
  | measuredRead (len : Nat)
  deriving Repr

/-- The next access of a measurement: the length, once both counters are loaded. -/
def lenAccess (stage : LenStage) (r : Ring kind cap α) : LenStage ⊕ Nat :=
  match stage with
  | .start => .inl (.loaded r.head)
  | .loaded head => .inr (distance r.tail head)

/-- The next access of a producer's call: what it shows, and the thread after it. -/
def produceAccess (p : Nat) (spurious : Bool) (call : ProducerCall) (held : List Nat)
    (r : Ring kind cap α) : Signal α × ProducerThread × Ring kind cap α :=
  match call with
  | .claiming stage =>
    match r.claimAccess spurious stage with
    | (.going stage, r) => (.quiet, ⟨some (.claiming stage), held⟩, r)
    | (.lost, r) => (.lost p, ⟨some (.claiming .start), held⟩, r)
    | (.refused, r) => (.refused p, ⟨none, held⟩, r)
    | (.taken seq, r) => (.claimed p seq, ⟨none, seq :: held⟩, r)
  | .measuring stage =>
    match lenAccess stage r with
    | .inl stage => (.quiet, ⟨some (.measuring stage), held⟩, r)
    | .inr len => (.measured p len, ⟨none, held⟩, r)

/-- The next access of the consumer's call. -/
def consumeAccess (fails : Bool) (call : ConsumerCall) (r : Ring kind cap α) :
    Signal α × Option ConsumerCall × Ring kind cap α :=
  match call with
  | .reading stage =>
    match r.readAccess fails stage with
    | (.going stage, r) => (.quiet, some (.reading stage), r)
    | (.handed seq message stage, r) => (.handed seq message, some (.reading stage), r)
    | (.failed seq message, r) => (.failed seq message, none, r)
    | (.finished count, r) => (.readEnded count, none, r)
  | .measuring stage =>
    match lenAccess stage r with
    | .inl stage => (.quiet, some (.measuring stage), r)
    | .inr len => (.measuredRead len, none, r)

/-- Takes a step. A call only starts when its thread is in no other, and a slot is only
written or committed by the holder of its claim; any other move is ignored. -/
def step : Threads kind cap α → Move α → Signal α × Threads kind cap α
  | ⟨r, ps, c⟩, .claim p =>
    match ps[p]? with
    | some ⟨none, held⟩ =>
      (.claimStarted p, ⟨r, ps.set p ⟨some (.claiming .start), held⟩, c⟩)
    | _ => (.ignored, ⟨r, ps, c⟩)
  | ⟨r, ps, c⟩, .measure p =>
    match ps[p]? with
    | some ⟨none, held⟩ =>
      (.measureStarted p, ⟨r, ps.set p ⟨some (.measuring .start), held⟩, c⟩)
    | _ => (.ignored, ⟨r, ps, c⟩)
  | ⟨r, ps, c⟩, .produce p spurious =>
    match ps[p]? with
    | some ⟨some call, held⟩ =>
      let (signal, thread, r) := produceAccess p spurious call held r
      (signal, ⟨r, ps.set p thread, c⟩)
    | _ => (.ignored, ⟨r, ps, c⟩)
  | ⟨r, ps, c⟩, .write p seq message =>
    match ps[p]? with
    | some ⟨none, held⟩ =>
      if seq ∈ held then
        (.wrote p seq message, ⟨r.write (cap.indexOf seq) message, ps, c⟩)
      else (.ignored, ⟨r, ps, c⟩)
    | _ => (.ignored, ⟨r, ps, c⟩)
  | ⟨r, ps, c⟩, .commit p seq =>
    match ps[p]? with
    | some ⟨none, held⟩ =>
      if seq ∈ held then
        let message := r.slotOf seq
        (.committed p seq message,
          ⟨r.commit (cap.indexOf seq), ps.set p ⟨none, held.erase seq⟩, c⟩)
      else (.ignored, ⟨r, ps, c⟩)
    | _ => (.ignored, ⟨r, ps, c⟩)
  | ⟨r, ps, c⟩, .abandon p seq =>
    match ps[p]? with
    | some ⟨none, held⟩ =>
      if seq ∈ held then
        (.abandoned p seq, ⟨r, ps.set p ⟨none, held.erase seq⟩, c⟩)
      else (.ignored, ⟨r, ps, c⟩)
    | _ => (.ignored, ⟨r, ps, c⟩)
  | ⟨r, ps, none⟩, .read limit =>
    (.readStarted limit, ⟨r, ps, some (.reading (.start limit))⟩)
  | ⟨r, ps, none⟩, .measureRead =>
    (.measureReadStarted, ⟨r, ps, some (.measuring .start)⟩)
  | ⟨r, ps, some call⟩, .consume fails =>
    let (signal, c, r) := consumeAccess fails call r
    (signal, ⟨r, ps, c⟩)
  | s, _ => (.ignored, s)

/-- A run: one step after another. -/
def run : Threads kind cap α → List (Move α) → List (Signal α) × Threads kind cap α
  | s, [] => ([], s)
  | s, move :: moves =>
    let (signal, s) := s.step move
    let (signals, s) := s.run moves
    (signal :: signals, s)

theorem run_append (s : Threads kind cap α) (first second : List (Move α)) :
    s.run (first ++ second) =
      ((s.run first).1 ++ ((s.run first).2.run second).1, ((s.run first).2.run second).2) := by
  induction first generalizing s with
  | nil => rfl
  | cons move first ih => simp [run, ih]

end Threads

end RingTransport
