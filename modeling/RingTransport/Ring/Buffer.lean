/-
  A buffer as one thread of control uses it. A whole buffer is used through raw slot
  numbers. A split buffer is used through handles: producers that claim slots, guards
  that hold a claim until it is committed or dropped, and the one consumer. Operations
  may also run inside the callback of a read. Main facts are left to the modules that
  state them; this one only says what each operation does.
-/
import RingTransport.Ring.Claim
import RingTransport.Ring.Read

namespace RingTransport

/-! ## Handles -/

/-- A guard: the claim it holds, and the producer that made the claim. -/
structure Guard where
  id : Nat
  producer : Nat
  seq : Nat
  deriving DecidableEq, Repr

/-- The live handles of a split buffer. Producers and guards are numbered from 0 in the
order they are made, and no number is used twice. The consumer and each producer share the
ring; the ring only keeps the number of its shares, and does not know who has them. -/
structure Handles where
  producers : List Nat
  nextProducer : Nat
  guards : List Guard
  nextGuard : Nat
  shares : Nat
  deriving DecidableEq, Repr

namespace Handles

/-- The handles right after a split: one producer and no guard. The ring is shared between
the producer and the consumer. -/
def fresh : Handles := ⟨[0], 1, [], 0, 2⟩

/-- The live guard of a number. -/
def guard? (h : Handles) (id : Nat) : Option Guard := h.guards.find? (·.id == id)

/-- A guard for a claim made through a producer. -/
def addGuard (h : Handles) (producer seq : Nat) : Guard × Handles :=
  let guard := ⟨h.nextGuard, producer, seq⟩
  (guard, { h with guards := h.guards ++ [guard], nextGuard := h.nextGuard + 1 })

/-- A guard goes; what becomes of its slot is the caller's affair. -/
def dropGuard (h : Handles) (id : Nat) : Handles :=
  { h with guards := h.guards.filter (·.id != id) }

/-- One more producer, and a share for it. -/
def addProducer (h : Handles) : Nat × Handles :=
  (h.nextProducer,
    { h with
      producers := h.producers ++ [h.nextProducer]
      nextProducer := h.nextProducer + 1
      shares := h.shares + 1 })

/-- A producer goes with its share, and before it the guards of its claims. -/
def dropProducer (h : Handles) (producer : Nat) : Handles :=
  { h with
    producers := h.producers.filter (· != producer)
    guards := h.guards.filter (·.producer != producer)
    shares := h.shares - 1 }

end Handles

/-- A ring together with the handles to it; a whole buffer has none. -/
structure Buffer (kind : Kind) (cap : Capacity) (α : Type) where
  ring : Ring kind cap α
  handles : Option Handles

/-! ## Operations -/

/-- Operations that are possible at any time, also inside the callback of a read. -/
inductive Op (α : Type) where
  -- on a whole buffer
  | tryClaim
  | write (index : Nat) (message : α)
  | peek (index : Nat)
  | commitIndex (index : Nat)
  | dump
  -- on a split buffer
  | claim (producer : Nat)
  | set (guard : Nat) (message : α)
  | get (guard : Nat)
  | commit (guard : Nat)
  | abandon (guard : Nat)
  | publish (message : α) (producer : Nat)
  | clone (producer : Nat)
  | dropProducer (producer : Nat)
  | producerInfo (producer : Nat)

/-- What an operation answers. -/
inductive Reply (α : Type) where
  | done
  /-- The ring is full. -/
  | full
  | index (i : Nat)
  | message (x : α)
  | contents (xs : List α)
  /-- A new guard, its slot, and what the slot holds. -/
  | claimed (guard index : Nat) (x : α)
  | producer (number : Nat)
  | info (capacity len : Nat)
  | reunited (ok : Bool)
  /-- There is no slot of that number. -/
  | noSlot
  /-- The operation does not apply: wrong form of the buffer, or a handle that is gone. -/
  | misuse

/-- Whether an operation failed. A failure inside the callback of a read is a failure of
the callback. -/
def Reply.isFailure {α : Type} : Reply α → Bool
  | .noSlot => true
  | _ => false

namespace Buffer

variable {kind : Kind} {cap : Capacity} {α : Type}

/-- A whole buffer. -/
def ofRing (ring : Ring kind cap α) : Buffer kind cap α := ⟨ring, none⟩

/-- An operation on a whole buffer, by raw slot numbers. Any slot may be written or
committed at any time, claimed or not. -/
def performRaw (r : Ring kind cap α) : Op α → Reply α × Ring kind cap α
  | .tryClaim =>
    match r.tryClaim with
    | (none, r) => (.full, r)
    | (some seq, r) => (.index (cap.indexOf seq), r)
  | .write i x =>
    match Ring.index? cap i with
    | none => (.noSlot, r)
    | some i => (.done, r.write i x)
  | .peek i =>
    match Ring.index? cap i with
    | none => (.noSlot, r)
    | some i => (.message (r.slots.get i), r)
  | .commitIndex i =>
    match Ring.index? cap i with
    | none => (.noSlot, r)
    | some i => (.done, r.commit i)
  | .dump => (.contents r.slots.toList, r)
  | _ => (.misuse, r)

/-- An operation on a split buffer, through its handles. -/
def performSplit (h : Handles) (r : Ring kind cap α) :
    Op α → Reply α × Ring kind cap α × Handles
  | .claim p =>
    if p ∈ h.producers then
      match r.tryClaim with
      | (none, r) => (.full, r, h)
      | (some seq, r) =>
        let (guard, h) := h.addGuard p seq
        (.claimed guard.id (cap.indexOf seq) (r.slotOf seq), r, h)
    else (.misuse, r, h)
  | .set id x =>
    match h.guard? id with
    | none => (.misuse, r, h)
    | some guard => (.done, r.write (cap.indexOf guard.seq) x, h)
  | .get id =>
    match h.guard? id with
    | none => (.misuse, r, h)
    | some guard => (.message (r.slotOf guard.seq), r, h)
  | .commit id =>
    match h.guard? id with
    | none => (.misuse, r, h)
    | some guard => (.done, r.commit (cap.indexOf guard.seq), h.dropGuard id)
  | .abandon id =>
    match h.guard? id with
    | none => (.misuse, r, h)
    | some _ => (.done, r, h.dropGuard id)
  | .publish x p =>
    if p ∈ h.producers then
      match r.tryClaim with
      | (none, r) => (.full, r, h)
      | (some seq, r) =>
        let i := cap.indexOf seq
        (.index i, (r.write i x).commit i, h)
    else (.misuse, r, h)
  | .clone p =>
    if kind = .manyProducers ∧ p ∈ h.producers then
      let (number, h) := h.addProducer
      (.producer number, r, h)
    else (.misuse, r, h)
  | .dropProducer p =>
    if p ∈ h.producers then (.done, r, h.dropProducer p) else (.misuse, r, h)
  | .producerInfo p =>
    if p ∈ h.producers then (.info cap.size r.len, r, h) else (.misuse, r, h)
  | _ => (.misuse, r, h)

/-- An operation on a buffer of either form. -/
def perform : Buffer kind cap α → Op α → Reply α × Buffer kind cap α
  | ⟨r, none⟩, op =>
    let (reply, r) := performRaw r op
    (reply, ⟨r, none⟩)
  | ⟨r, some h⟩, op =>
    let (reply, r, h) := performSplit h r op
    (reply, ⟨r, some h⟩)

/-! ## Reads with operations inside -/

/-- One thing a callback does. -/
inductive HookStep (α : Type) where
  | op (o : Op α)
  | fail

/-- What the callbacks of a read do, by the position of their message. -/
abbrev Hooks (α : Type) := List (Nat × List (HookStep α))

/-- The steps for the message at a position. -/
def Hooks.at (hooks : Hooks α) (position : Nat) : List (HookStep α) :=
  (hooks.filter (·.1 == position)).flatMap (·.2)

/-- What is kept of a read as it goes, newest first: the handles, the messages handed
over, and the answers of the operations in the callbacks. -/
structure ReadLog (α : Type) where
  handles : Option Handles
  deliveries : List (Ring.Delivery α)
  replies : List (Nat × Reply α)

/-- Runs the steps of one callback; false when one of them fails. A step that fails gives
no answer, and those after it are not run. -/
def runSteps (position : Nat) : List (HookStep α) → Ring kind cap α → ReadLog α →
    Bool × Ring kind cap α × ReadLog α
  | [], r, log => (true, r, log)
  | .fail :: _, r, log => (false, r, log)
  | .op o :: steps, r, ⟨handles, deliveries, replies⟩ =>
    let (reply, ⟨r, handles⟩) := perform ⟨r, handles⟩ o
    if reply.isFailure then (false, r, ⟨handles, deliveries, replies⟩)
    else runSteps position steps r ⟨handles, deliveries, (position, reply) :: replies⟩

/-- The callback that records its message and then runs its steps. -/
def hooked (hooks : Hooks α) : Ring.Visitor kind cap α (ReadLog α) :=
  fun d r ⟨handles, deliveries, replies⟩ =>
    runSteps d.position (hooks.at d.position) r ⟨handles, d :: deliveries, replies⟩

/-- What a read with hooks answers. -/
structure ReadReport (α : Type) where
  ending : Ring.ReadEnd
  deliveries : List (Ring.Delivery α)
  replies : List (Nat × Reply α)

/-- The messages a read handed over, in order. -/
def ReadReport.messages (report : ReadReport α) : List α := report.deliveries.map (·.message)

/-- A read whose callbacks run the given steps. -/
def readHooked (b : Buffer kind cap α) (limit : Nat) (hooks : Hooks α) :
    ReadReport α × Buffer kind cap α :=
  let ⟨r, handles⟩ := b
  let (ending, r, ⟨handles, deliveries, replies⟩) :=
    r.readLimit (hooked hooks) limit ⟨handles, [], []⟩
  (⟨ending, deliveries.reverse, replies.reverse⟩, ⟨r, handles⟩)

/-! ## Requests -/

/-- Everything the owner of a buffer can ask for. A reunion names a producer of this very
buffer. -/
inductive Request (α : Type) where
  | op (o : Op α)
  | reset
  | split
  | reunite (producer : Nat)
  | info
  | read (limit : Nat) (hooks : Hooks α)

/-- The answer to a request. -/
inductive Answer (α : Type) where
  | reply (r : Reply α)
  | read (report : ReadReport α)

/-- Only a whole buffer can be reset. -/
def reset : Buffer kind cap α → Reply α × Buffer kind cap α
  | ⟨r, none⟩ => (.done, ⟨r.reset, none⟩)
  | b => (.misuse, b)

/-- A whole buffer becomes one producer and the consumer. -/
def split : Buffer kind cap α → Reply α × Buffer kind cap α
  | ⟨r, none⟩ => (.done, ⟨r, some .fresh⟩)
  | b => (.misuse, b)

/-- The consumer and a producer become the whole buffer again, if the consumer has the only
share of the ring once the producer is gone. Otherwise the consumer stays. -/
def reunite (b : Buffer kind cap α) (producer : Nat) : Reply α × Buffer kind cap α :=
  match b with
  | ⟨r, some h⟩ =>
    if producer ∈ h.producers then
      let h := h.dropProducer producer
      if h.shares = 1 then (.reunited true, ⟨r, none⟩)
      else (.reunited false, ⟨r, some h⟩)
    else (.misuse, ⟨r, some h⟩)
  | b => (.misuse, b)

/-- Answers a request. -/
def serve (b : Buffer kind cap α) : Request α → Answer α × Buffer kind cap α
  | .op o =>
    let (reply, b) := b.perform o
    (.reply reply, b)
  | .reset =>
    let (reply, b) := b.reset
    (.reply reply, b)
  | .split =>
    let (reply, b) := b.split
    (.reply reply, b)
  | .reunite p =>
    let (reply, b) := b.reunite p
    (.reply reply, b)
  | .info => (.reply (.info cap.size b.ring.len), b)
  | .read limit hooks =>
    let (report, b) := b.readHooked limit hooks
    (.read report, b)

end Buffer

end RingTransport
