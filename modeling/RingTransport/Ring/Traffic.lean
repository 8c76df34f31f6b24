/-
  Publishing workloads: every producer thread publishes its messages 0, 1, 2, … in
  batches, and the consumer thread reads until all have arrived. A producer claims the
  slots of a batch one by one, trying again while the ring is full, writes each slot as
  it claims it, and commits the batch newest first; a batch of one is claim, write,
  commit. The threads take turns in any order; `inTurns` lets them go round in a circle.
-/
import RingTransport.Ring.Threads

namespace RingTransport

/-- A message: its producer, and its number among the messages of that producer. -/
structure Parcel where
  producer : Nat
  number : Nat
  deriving DecidableEq, Repr, Inhabited

/-- What is to be published: messages per producer, and how many are claimed together. -/
structure Workload where
  producers : Nat
  per : Nat
  batch : Nat
  deriving DecidableEq, Repr

/-- How many messages there are in all. -/
def Workload.total (w : Workload) : Nat := w.producers * w.per

/-- How far a producer is: messages of finished batches, a claimed slot still to be
written, and whether the batch is being committed. -/
structure Publisher where
  sent : Nat
  unwritten : Option Nat
  committing : Bool
  deriving DecidableEq, Repr

/-- A workload under way: `missing` messages are still to be read. The lists have the
newest entry first. -/
structure Traffic (kind : Kind) (cap : Capacity) where
  threads : Threads kind cap Parcel
  publishers : List Publisher
  missing : Nat
  claimed : List Nat
  received : List Parcel

namespace Traffic

variable {kind : Kind} {cap : Capacity}

/-- Nothing published yet. -/
def init (w : Workload) : Traffic kind cap where
  threads := .init w.producers (.filled ⟨0, 0⟩)
  publishers := List.replicate w.producers ⟨0, none, false⟩
  missing := w.total
  claimed := []
  received := []

/-- The size of the batch a producer is at; the last one may be short. -/
def batchAt (w : Workload) (pub : Publisher) : Nat := min (max w.batch 1) (w.per - pub.sent)

/-- The next move of producer `p`, if it is not done. -/
def produceNext (w : Workload) (p : Nat) (pub : Publisher) (thread : ProducerThread)
    (spurious : Bool) : Option (Threads.Move Parcel) :=
  match thread.call, pub.unwritten with
  | some _, _ => some (.produce p spurious)
  | none, some seq => some (.write p seq ⟨p, pub.sent + (thread.held.length - 1)⟩)
  | none, none =>
    if pub.committing then thread.held.head?.map (.commit p)
    else if pub.sent < w.per then some (.claim p)
    else none

/-- Where a producer is after a step of its own; `held` is the number of claims it then
holds. -/
def after (w : Workload) (held : Nat) (pub : Publisher) :
    Threads.Signal Parcel → Publisher
  | .claimed _ seq => { pub with unwritten := some seq }
  | .wrote _ _ _ => { pub with unwritten := none, committing := held == batchAt w pub }
  | .committed _ _ _ =>
    if held = 0 then ⟨pub.sent + batchAt w pub, none, false⟩ else pub
  | _ => pub

/-- The next move of the reader, if messages are still missing. -/
def readNext (missing : Nat) (call : Option ConsumerCall) : Option (Threads.Move Parcel) :=
  match call with
  | some _ => some (.consume false)
  | none => if missing = 0 then none else some (.read Ring.noLimit)

/-- Whose turn it is. A compare-and-swap in the turn of a producer may fail for no
reason. -/
inductive Turn where
  | producer (p : Nat) (spurious : Bool)
  | reader
  deriving DecidableEq, Repr

/-- One step of the thread whose turn it is; a thread that is done lets its turn pass. -/
def step (w : Workload) : Traffic kind cap → Turn → Traffic kind cap
  | ⟨threads, pubs, missing, claimed, received⟩, .producer p spurious =>
    match pubs[p]?, threads.producers[p]? with
    | some pub, some thread =>
      match produceNext w p pub thread spurious with
      | none => ⟨threads, pubs, missing, claimed, received⟩
      | some move =>
        let (signal, threads) := threads.step move
        let held := threads.producers[p]?.elim 0 (·.held.length)
        let claimed := match signal with
          | .claimed _ seq => seq :: claimed
          | _ => claimed
        ⟨threads, pubs.set p (after w held pub signal), missing, claimed, received⟩
    | _, _ => ⟨threads, pubs, missing, claimed, received⟩
  | ⟨threads, pubs, missing, claimed, received⟩, .reader =>
    match readNext missing threads.consumer with
    | none => ⟨threads, pubs, missing, claimed, received⟩
    | some move =>
      let (signal, threads) := threads.step move
      match signal with
      | .handed _ parcel => ⟨threads, pubs, missing - 1, claimed, parcel :: received⟩
      | _ => ⟨threads, pubs, missing, claimed, received⟩

/-- Turns one after another, in any order. -/
def run (w : Workload) (t : Traffic kind cap) (turns : List Turn) : Traffic kind cap :=
  turns.foldl (step w) t

/-- All is published and read, and no call is in progress. -/
def isDone (w : Workload) (t : Traffic kind cap) : Bool :=
  t.publishers.all (fun pub => pub.sent == w.per && pub.unwritten.isNone && !pub.committing) &&
  t.threads.producers.all (·.call.isNone) &&
  t.threads.consumer.isNone && t.missing == 0

/-- The turns of one round: each producer, then the reader. -/
def roundTurns (w : Workload) : List Turn :=
  (List.range w.producers).map (.producer · false) ++ [.reader]

/-- At most `fuel` rounds, fewer if all is done before. -/
def rounds (w : Workload) : (fuel : Nat) → Traffic kind cap → Traffic kind cap
  | 0, t => t
  | fuel + 1, t => if t.isDone w then t else rounds w fuel (t.run w (roundTurns w))

/-- The workload carried out, the threads going round in a circle. -/
def inTurns (w : Workload) : Traffic kind cap :=
  rounds w (1000 * (w.total + w.producers + 10)) (init w)

/-! ## What arrived -/

/-- The numbers that arrived from a producer, in order of arrival. -/
def numbersFrom (t : Traffic kind cap) (p : Nat) : List Nat :=
  (t.received.reverse.filter (·.producer == p)).map (·.number)

/-- The messages of every producer came in the order it published them. -/
def inOrder (w : Workload) (t : Traffic kind cap) : Bool :=
  (List.range w.producers).all fun p =>
    let numbers := t.numbersFrom p
    numbers == List.range numbers.length

/-- The slots that were ever claimed, in increasing order. -/
def slotsUsed (t : Traffic kind cap) : List Nat :=
  ((t.claimed.map fun seq => (cap.indexOf seq).val).mergeSort (· ≤ ·)).eraseReps

end Traffic

end RingTransport
