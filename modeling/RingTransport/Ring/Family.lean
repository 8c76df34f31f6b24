/-
  Several buffers of one kind at once, of any capacities. A producer handle belongs to the
  buffer it was split from; a consumer offered the producer of another buffer turns it
  away, and that producer is gone.
-/
import RingTransport.Ring.Buffer

namespace RingTransport

/-- A producer handle: the buffer it belongs to and its number there. -/
structure ProducerRef where
  buffer : Nat
  number : Nat
  deriving DecidableEq, Repr

/-- Buffers, numbered in the order they were made. -/
abbrev Family (kind : Kind) (α : Type) := List ((cap : Capacity) × Buffer kind cap α)

namespace Family

variable {kind : Kind} {α : Type}

/-- What can be asked of a family. -/
inductive Request (α : Type) where
  /-- A request to one buffer. -/
  | to (buffer : Nat) (request : Buffer.Request α)
  /-- The consumer of a buffer is offered a producer of any buffer. -/
  | reunite (consumer : Nat) (producer : ProducerRef)

/-- Answers a request to the buffer of a number. -/
def serveAt : Family kind α → (buffer : Nat) → Buffer.Request α →
    Buffer.Answer α × Family kind α
  | [], _, _ => (.reply .misuse, [])
  | ⟨cap, b⟩ :: rest, 0, request =>
    let (answer, b) := b.serve request
    (answer, ⟨cap, b⟩ :: rest)
  | b :: rest, n + 1, request =>
    let (answer, rest) := serveAt rest n request
    (answer, b :: rest)

/-- The handles of a buffer, if it is there and split. -/
def handlesOf (bs : Family kind α) (buffer : Nat) : Option Handles :=
  bs[buffer]?.bind (·.2.handles)

/-- Answers a request. A consumer that is offered a foreign producer turns it away, and
the producer is dropped. -/
def serve (bs : Family kind α) : Request α → Buffer.Answer α × Family kind α
  | .to n request => bs.serveAt n request
  | .reunite consumer p =>
    if p.buffer = consumer then bs.serveAt consumer (.reunite p.number)
    else if (bs.handlesOf consumer).isNone then (.reply .misuse, bs)
    else
      match bs.serveAt p.buffer (.op (.dropProducer p.number)) with
      | (.reply .done, bs) => (.reply (.reunited false), bs)
      | (answer, bs) => (answer, bs)

/-- Offers a consumer the producer of a buffer made for the purpose, of the same capacity
and with all slots alike. The buffer goes when the offer is answered. -/
def offerStranger (bs : Family kind α) (consumer : Nat) (x : α) :
    Buffer.Answer α × Family kind α :=
  match bs[consumer]? with
  | none => (.reply .misuse, bs)
  | some ⟨cap, _⟩ =>
    let n := bs.length
    let stranger : Buffer kind cap α := ⟨.filled x, some .fresh⟩
    let (answer, bs) := serve (bs ++ [⟨cap, stranger⟩]) (.reunite consumer ⟨n, 0⟩)
    (answer, bs.take n)

end Family

end RingTransport
