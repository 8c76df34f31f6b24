/-
  The memory of a ring: two counters, a mark for every slot, and the slots. Every other
  module reaches the ring through the accesses defined here, each of which reads or
  writes one cell. Main facts: what each access does to the cell it writes and that it
  leaves the other cells alone.
-/
import RingTransport.Capacity
import RingTransport.Word

namespace RingTransport

/-- Who may claim slots: one producer, or any number of them at once. -/
inductive Kind where
  | oneProducer
  | manyProducers
  deriving DecidableEq, Repr

/-- What a slot is marked as. A ring with one producer never uses `claimed`. -/
inductive Mark where
  | empty
  | claimed
  | ready
  deriving DecidableEq, Repr

/-- The distance between two counters. Counters are words that stay far below
their limit, so the distance from an earlier to a later value is their difference, and a
distance taken the wrong way round wraps around to a very large number. -/
def distance (later earlier : Nat) : Nat :=
  if earlier ≤ later then later - earlier else Word.count + later - earlier

@[simp] theorem distance_of_le {later earlier : Nat} (h : earlier ≤ later) :
    distance later earlier = later - earlier := by
  simp [distance, h]

@[simp] theorem distance_self (n : Nat) : distance n n = 0 := by
  simp [distance]

/-- A ring of a given kind and capacity. Messages are numbered from 0 in claim order;
`head` is the number of the next message to read and `tail` that of the next claim. -/
structure Ring (kind : Kind) (cap : Capacity) (α : Type) where
  head : Nat
  tail : Nat
  marks : Vector Mark cap.size
  slots : Vector α cap.size

namespace Ring

variable {kind : Kind} {cap : Capacity} {α σ : Type}

/-! ## Making a ring -/

/-- The empty ring over given slot contents. -/
def ofSlots (slots : Vector α cap.size) : Ring kind cap α :=
  ⟨0, 0, Vector.replicate cap.size .empty, slots⟩

/-- Appends the next `left` results of a factory to an array. -/
def appendMade (make : σ → α × σ) : (left : Nat) → Array α → σ → Array α × σ
  | 0, made, s => (made, s)
  | left + 1, made, s =>
    let (x, s) := make s
    appendMade make left (made.push x) s

theorem size_appendMade (make : σ → α × σ) (left : Nat) (made : Array α) (s : σ) :
    (appendMade make left made s).1.size = made.size + left := by
  induction left generalizing made s with
  | zero => rfl
  | succ left ih => simp only [appendMade, ih, Array.size_push]; omega

/-- Calls a factory once for each slot, in slot order. The factory threads a state. -/
def make (factory : σ → α × σ) (s : σ) : Ring kind cap α × σ :=
  let r := appendMade factory cap.size #[] s
  (ofSlots ⟨r.1, by simp [r, size_appendMade]⟩, r.2)

/-- A ring of a size asked for at run time. A refused size calls the factory not at all. -/
def ofSize (kind : Kind) (size : Nat) (factory : σ → α × σ) (s : σ) :
    Except CapacityError ((cap : Capacity) × Ring kind cap α) × σ :=
  match Capacity.ofNat size with
  | .error e => (.error e, s)
  | .ok cap =>
    let (ring, s) := make factory s
    (.ok ⟨cap, ring⟩, s)

/-- A ring whose slots all start with the same content. -/
def filled (x : α) : Ring kind cap α :=
  ofSlots (Vector.replicate cap.size x)

/-! ## Single accesses -/

/-- The number of claimed and not yet read messages, from the two counters. -/
def len (r : Ring kind cap α) : Nat := distance r.tail r.head

/-- The mark of the slot of a message. -/
def markOf (r : Ring kind cap α) (seq : Nat) : Mark := r.marks[cap.indexOf seq]

/-- The content of the slot of a message. -/
def slotOf (r : Ring kind cap α) (seq : Nat) : α := r.slots[cap.indexOf seq]

/-- Marks a slot. -/
def mark (r : Ring kind cap α) (i : Fin cap.size) (m : Mark) : Ring kind cap α :=
  { r with marks := r.marks.set i m }

/-- Writes the content of a slot. -/
def write (r : Ring kind cap α) (i : Fin cap.size) (x : α) : Ring kind cap α :=
  { r with slots := r.slots.set i x }

/-- Makes the content of a slot visible to the reader. -/
def commit (r : Ring kind cap α) (i : Fin cap.size) : Ring kind cap α := r.mark i .ready

/-- Moves the tail: the claims up to it are taken. -/
def setTail (r : Ring kind cap α) (tail : Nat) : Ring kind cap α := { r with tail }

/-- Moves the head: the slots of the messages below it may be claimed again. -/
def setHead (r : Ring kind cap α) (head : Nat) : Ring kind cap α := { r with head }

/-- Starts over: both counters at 0 and every mark cleared, the contents untouched. -/
def reset (r : Ring kind cap α) : Ring kind cap α :=
  { r with head := 0, tail := 0, marks := r.marks.map fun _ => .empty }

@[simp] theorem head_mark (r : Ring kind cap α) (i m) : (r.mark i m).head = r.head := rfl
@[simp] theorem tail_mark (r : Ring kind cap α) (i m) : (r.mark i m).tail = r.tail := rfl
@[simp] theorem slots_mark (r : Ring kind cap α) (i m) : (r.mark i m).slots = r.slots := rfl
@[simp] theorem head_write (r : Ring kind cap α) (i x) : (r.write i x).head = r.head := rfl
@[simp] theorem tail_write (r : Ring kind cap α) (i x) : (r.write i x).tail = r.tail := rfl
@[simp] theorem marks_write (r : Ring kind cap α) (i x) : (r.write i x).marks = r.marks := rfl
@[simp] theorem head_setTail (r : Ring kind cap α) (n) : (r.setTail n).head = r.head := rfl
@[simp] theorem tail_setTail (r : Ring kind cap α) (n) : (r.setTail n).tail = n := rfl
@[simp] theorem head_setHead (r : Ring kind cap α) (n) : (r.setHead n).head = n := rfl
@[simp] theorem tail_setHead (r : Ring kind cap α) (n) : (r.setHead n).tail = r.tail := rfl
@[simp] theorem head_commit (r : Ring kind cap α) (i) : (r.commit i).head = r.head := rfl
@[simp] theorem tail_commit (r : Ring kind cap α) (i) : (r.commit i).tail = r.tail := rfl

@[simp] theorem markOf_setTail (r : Ring kind cap α) (n seq : Nat) :
    (r.setTail n).markOf seq = r.markOf seq := rfl

@[simp] theorem markOf_setHead (r : Ring kind cap α) (n seq : Nat) :
    (r.setHead n).markOf seq = r.markOf seq := rfl

@[simp] theorem markOf_write (r : Ring kind cap α) (i : Fin cap.size) (x : α) (seq : Nat) :
    (r.write i x).markOf seq = r.markOf seq := rfl

@[simp] theorem slotOf_setTail (r : Ring kind cap α) (n seq : Nat) :
    (r.setTail n).slotOf seq = r.slotOf seq := rfl

@[simp] theorem slotOf_setHead (r : Ring kind cap α) (n seq : Nat) :
    (r.setHead n).slotOf seq = r.slotOf seq := rfl

@[simp] theorem slotOf_mark (r : Ring kind cap α) (i : Fin cap.size) (m : Mark) (seq : Nat) :
    (r.mark i m).slotOf seq = r.slotOf seq := rfl

@[simp] theorem slotOf_commit (r : Ring kind cap α) (i : Fin cap.size) (seq : Nat) :
    (r.commit i).slotOf seq = r.slotOf seq := rfl

theorem markOf_mark (r : Ring kind cap α) (i : Fin cap.size) (m : Mark) (seq : Nat) :
    (r.mark i m).markOf seq = if i = cap.indexOf seq then m else r.markOf seq := by
  simp only [markOf, mark, Fin.getElem_fin, Vector.getElem_set, Fin.ext_iff]

theorem slotOf_write (r : Ring kind cap α) (i : Fin cap.size) (x : α) (seq : Nat) :
    (r.write i x).slotOf seq = if i = cap.indexOf seq then x else r.slotOf seq := by
  simp only [slotOf, write, Fin.getElem_fin, Vector.getElem_set, Fin.ext_iff]

theorem markOf_commit (r : Ring kind cap α) (i : Fin cap.size) (seq : Nat) :
    (r.commit i).markOf seq = if i = cap.indexOf seq then .ready else r.markOf seq :=
  r.markOf_mark i .ready seq

theorem markOf_congr (r : Ring kind cap α) {s t : Nat} (h : cap.indexOf s = cap.indexOf t) :
    r.markOf s = r.markOf t := by
  simp only [markOf, h]

theorem slotOf_congr (r : Ring kind cap α) {s t : Nat} (h : cap.indexOf s = cap.indexOf t) :
    r.slotOf s = r.slotOf t := by
  simp only [slotOf, h]

/-! ## Slots by number, as callers give them -/

/-- The slot of a number, if there is such a slot. -/
def index? (cap : Capacity) (i : Nat) : Option (Fin cap.size) :=
  if h : i < cap.size then some ⟨i, h⟩ else none

end Ring

end RingTransport
