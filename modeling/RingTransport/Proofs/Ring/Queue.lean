/-
  A split buffer as a queue, with no slots and no marks. The queue has a cell for every
  message that was claimed and not yet read, and beside them the last content of every
  position, which is what a new claim finds. `SplitQueue.serve` answers what a split
  buffer can be asked. Main facts: a new cell changes nothing of what the positions show
  (`contentAt_push`), nor does taking one out, one lap later (`contentAt_pop`).

  That a split buffer gives the same answers is the subject of `Refinement`.
-/
import RingTransport.Ring.Buffer

namespace RingTransport

open Buffer (Answer HookStep Hooks ReadReport)

/-! ## Cells -/

/-- A claimed message: what is written of it so far, and whether it was committed. -/
structure Cell (α : Type) where
  value : α
  committed : Bool
  deriving DecidableEq, Repr

/-- The claimed messages that are not yet read, from the number `first` on, and the last
content of each position. -/
structure Queue (cap : Capacity) (α : Type) where
  first : Nat
  cells : List (Cell α)
  last : Vector α cap.size

namespace Queue

variable {cap : Capacity} {α : Type}

/-- The queue without messages over given contents. -/
def ofContents (contents : Vector α cap.size) : Queue cap α := ⟨0, [], contents⟩

/-- The number of the next claim. -/
def stop (q : Queue cap α) : Nat := q.first + q.cells.length

/-- The last content of the position of a number. -/
def lastAt (q : Queue cap α) (seq : Nat) : α := q.last.get (cap.indexOf seq)

/-- The cell of a number. -/
def cell? (q : Queue cap α) (seq : Nat) : Option (Cell α) :=
  if q.first ≤ seq then q.cells[seq - q.first]? else none

/-- What the position of a number shows: its cell, or what it held last. -/
def contentAt (q : Queue cap α) (seq : Nat) : α :=
  ((q.cell? seq).map Cell.value).getD (q.lastAt seq)

/-- Whether a number has a cell that is committed. -/
def committedAt (q : Queue cap α) (seq : Nat) : Bool :=
  ((q.cell? seq).map Cell.committed).getD false

/-- Adds a cell. It shows what its position held last. -/
def push (q : Queue cap α) : Queue cap α :=
  { q with cells := q.cells ++ [⟨q.lastAt q.stop, false⟩] }

/-- Claims the next number, unless there is a cell for every position. -/
def claim (q : Queue cap α) : Option Nat × Queue cap α :=
  if q.cells.length = cap.size then (none, q) else (some q.stop, q.push)

/-- Changes the cell of a number. -/
def alter (q : Queue cap α) (seq : Nat) (f : Cell α → Cell α) : Queue cap α :=
  { q with cells := q.cells.modify (seq - q.first) f }

/-- Writes to the cell of a number. -/
def set (q : Queue cap α) (seq : Nat) (x : α) : Queue cap α :=
  q.alter seq fun c => { c with value := x }

/-- Commits the cell of a number. -/
def commit (q : Queue cap α) (seq : Nat) : Queue cap α :=
  q.alter seq fun c => { c with committed := true }

/-- Takes the first cell out. Its position keeps its content. -/
def pop (q : Queue cap α) : Queue cap α :=
  match q.cells with
  | [] => q
  | c :: cells => ⟨q.first + 1, cells, q.last.set (cap.indexOf q.first) c.value⟩

/-- Takes the first `n` cells out. -/
def drop (q : Queue cap α) : Nat → Queue cap α
  | 0 => q
  | n + 1 => q.pop.drop n

/-- Takes the commits of the first `n` cells back. -/
def spoil (q : Queue cap α) (n : Nat) : Queue cap α :=
  { q with
    cells := q.cells.mapIdx fun i c => { c with committed := c.committed && decide (n ≤ i) } }

/-! ## Cells by number -/

@[simp] theorem first_set (q : Queue cap α) (seq x) : (q.set seq x).first = q.first := rfl
@[simp] theorem first_commit (q : Queue cap α) (seq) : (q.commit seq).first = q.first := rfl
@[simp] theorem first_spoil (q : Queue cap α) (n) : (q.spoil n).first = q.first := rfl

@[simp] theorem stop_set (q : Queue cap α) (seq x) : (q.set seq x).stop = q.stop := by
  simp [stop, set, alter]

@[simp] theorem stop_commit (q : Queue cap α) (seq) : (q.commit seq).stop = q.stop := by
  simp [stop, commit, alter]

@[simp] theorem stop_spoil (q : Queue cap α) (n) : (q.spoil n).stop = q.stop := by
  simp [stop, spoil]

theorem contentAt_first_add {q : Queue cap α} {i : Nat} {c : Cell α} (h : q.cells[i]? = some c) :
    q.contentAt (q.first + i) = c.value := by
  simp [contentAt, cell?, h]

theorem committedAt_first_add {q : Queue cap α} {i : Nat} :
    q.committedAt (q.first + i) = true ↔ ∃ x, q.cells[i]? = some ⟨x, true⟩ := by
  have hcell : q.cell? (q.first + i) = q.cells[i]? := by simp [cell?]
  rw [committedAt, hcell]
  cases h : q.cells[i]? with
  | none => simp
  | some c =>
    obtain ⟨x, b⟩ := c
    constructor
    · intro hb
      have hb' : b = true := hb
      exact ⟨x, by rw [hb']⟩
    · rintro ⟨y, hy⟩
      cases hy
      rfl

theorem exists_cell? {q : Queue cap α} {seq : Nat} (hle : q.first ≤ seq) (hlt : seq < q.stop) :
    ∃ c, q.cell? seq = some c := by
  have hi : seq - q.first < q.cells.length := by unfold stop at hlt; omega
  exact ⟨q.cells[seq - q.first], by rw [cell?, if_pos hle, List.getElem?_eq_getElem hi]⟩

theorem cell?_eq_none {q : Queue cap α} {seq : Nat} (h : q.stop ≤ seq) : q.cell? seq = none := by
  unfold stop at h
  rw [cell?, if_pos (by omega), List.getElem?_eq_none (by omega)]

theorem lt_stop_of_committedAt {q : Queue cap α} {seq : Nat} (h : q.committedAt seq = true) :
    seq < q.stop := by
  rcases Nat.lt_or_ge seq q.stop with hlt | hge
  · exact hlt
  · simp [committedAt, cell?_eq_none hge] at h

@[simp] theorem committedAt_stop (q : Queue cap α) : q.committedAt q.stop = false := by
  simp [committedAt, cell?_eq_none (Nat.le_refl _)]

theorem cell?_alter {q : Queue cap α} {seq : Nat} (h : q.first ≤ seq) (f : Cell α → Cell α)
    (n : Nat) : (q.alter seq f).cell? n = if n = seq then (q.cell? n).map f else q.cell? n := by
  by_cases hn : q.first ≤ n
  · by_cases heq : n = seq
    · subst heq
      simp [cell?, alter, hn]
    · have hne : seq - q.first ≠ n - q.first := by omega
      simp [cell?, alter, hn, heq, hne]
  · have hne : n ≠ seq := by omega
    simp [cell?, alter, hn, hne]

theorem contentAt_set {q : Queue cap α} {seq : Nat} (hle : q.first ≤ seq) (hlt : seq < q.stop)
    (x : α) (n : Nat) : (q.set seq x).contentAt n = if n = seq then x else q.contentAt n := by
  unfold contentAt set
  rw [cell?_alter hle]
  by_cases h : n = seq
  · obtain ⟨c, hc⟩ := exists_cell? hle hlt
    simp [h, hc]
  · rw [if_neg h, if_neg h]
    rfl

theorem committedAt_set {q : Queue cap α} {seq : Nat} (hle : q.first ≤ seq) (x : α) (n : Nat) :
    (q.set seq x).committedAt n = q.committedAt n := by
  unfold committedAt set
  rw [cell?_alter hle]
  split
  · rw [Option.map_map]
    rfl
  · rfl

theorem contentAt_commit {q : Queue cap α} {seq : Nat} (hle : q.first ≤ seq) (n : Nat) :
    (q.commit seq).contentAt n = q.contentAt n := by
  unfold contentAt commit
  rw [cell?_alter hle]
  split
  · rw [Option.map_map]
    rfl
  · rfl

theorem committedAt_commit {q : Queue cap α} {seq : Nat} (hle : q.first ≤ seq)
    (hlt : seq < q.stop) (n : Nat) :
    (q.commit seq).committedAt n = if n = seq then true else q.committedAt n := by
  unfold committedAt commit
  rw [cell?_alter hle]
  by_cases h : n = seq
  · obtain ⟨c, hc⟩ := exists_cell? hle hlt
    simp [h, hc]
  · rw [if_neg h, if_neg h]

theorem cell?_spoil (q : Queue cap α) (n seq : Nat) :
    (q.spoil n).cell? seq = (q.cell? seq).map fun c =>
      { c with committed := c.committed && decide (q.first + n ≤ seq) } := by
  by_cases h : q.first ≤ seq
  · have hiff : (n ≤ seq - q.first) = (q.first + n ≤ seq) := by
      simp only [eq_iff_iff]
      omega
    simp only [cell?, spoil, h, if_true, List.getElem?_mapIdx, hiff]
  · simp [cell?, h]

theorem contentAt_spoil (q : Queue cap α) (n seq : Nat) :
    (q.spoil n).contentAt seq = q.contentAt seq := by
  unfold contentAt
  rw [cell?_spoil, Option.map_map]
  rfl

theorem committedAt_spoil (q : Queue cap α) (n seq : Nat) :
    (q.spoil n).committedAt seq = (q.committedAt seq && decide (q.first + n ≤ seq)) := by
  unfold committedAt
  rw [cell?_spoil]
  cases q.cell? seq <;> simp

@[simp] theorem first_push (q : Queue cap α) : q.push.first = q.first := rfl

@[simp] theorem stop_push (q : Queue cap α) : q.push.stop = q.stop + 1 := by
  simp [stop, push, Nat.add_assoc]

theorem cell?_push (q : Queue cap α) (seq : Nat) :
    q.push.cell? seq = if seq = q.stop then some ⟨q.lastAt seq, false⟩ else q.cell? seq := by
  by_cases heq : seq = q.stop
  · subst heq
    simp [cell?, push, stop]
  · rw [if_neg heq]
    unfold stop at heq
    by_cases h : q.first ≤ seq
    · rw [cell?, cell?, first_push, if_pos h, if_pos h, push]
      rcases Nat.lt_or_ge (seq - q.first) q.cells.length with hlt | hge
      · exact List.getElem?_append_left hlt
      · have hlong : q.cells.length + 1 ≤ seq - q.first := by omega
        rw [List.getElem?_eq_none hge, List.getElem?_eq_none]
        rw [List.length_append, List.length_singleton]
        exact hlong
    · rw [cell?, cell?, first_push, if_neg h, if_neg h]

/-- A new cell changes nothing of what the positions show. -/
theorem contentAt_push (q : Queue cap α) (seq : Nat) : q.push.contentAt seq = q.contentAt seq := by
  unfold contentAt
  rw [cell?_push]
  split
  · next h => rw [cell?_eq_none (Nat.le_of_eq h.symm)]; rfl
  · rfl

theorem committedAt_push (q : Queue cap α) (seq : Nat) :
    q.push.committedAt seq = q.committedAt seq := by
  unfold committedAt
  rw [cell?_push]
  split
  · next h => rw [cell?_eq_none (Nat.le_of_eq h.symm)]; rfl
  · rfl

/-! ## Taking cells out -/

theorem pop_eq {q : Queue cap α} {c : Cell α} {cells : List (Cell α)} (h : q.cells = c :: cells) :
    q.pop = ⟨q.first + 1, cells, q.last.set (cap.indexOf q.first) c.value⟩ := by
  unfold pop
  rw [h]

theorem exists_cons {q : Queue cap α} (h : q.first < q.stop) : ∃ c cells, q.cells = c :: cells := by
  unfold stop at h
  cases hq : q.cells with
  | nil => simp [hq] at h
  | cons c cells => exact ⟨c, cells, rfl⟩

theorem first_pop {q : Queue cap α} (h : q.first < q.stop) : q.pop.first = q.first + 1 := by
  obtain ⟨c, cells, hq⟩ := exists_cons h
  rw [pop_eq hq]

theorem stop_pop {q : Queue cap α} (h : q.first < q.stop) : q.pop.stop = q.stop := by
  obtain ⟨c, cells, hq⟩ := exists_cons h
  simp only [pop_eq hq, stop, hq, List.length_cons]
  omega

theorem cells_pop (q : Queue cap α) : q.pop.cells = q.cells.tail := by
  unfold pop
  split
  · next h => rw [h]; rfl
  · next h => rw [h]; rfl

theorem cells_drop (q : Queue cap α) (n : Nat) : (q.drop n).cells = q.cells.drop n := by
  induction n generalizing q with
  | zero => rfl
  | succ n ih =>
    show (q.pop.drop n).cells = _
    rw [ih, cells_pop, List.drop_tail]

theorem cell?_pop {q : Queue cap α} (h : q.first < q.stop) {seq : Nat} (hseq : q.first < seq) :
    q.pop.cell? seq = q.cell? seq := by
  obtain ⟨c, cells, hq⟩ := exists_cons h
  obtain ⟨i, rfl⟩ := Nat.exists_eq_add_of_lt hseq
  have hi : q.first + i + 1 - q.first = i + 1 := by omega
  have hi' : q.first + i + 1 - (q.first + 1) = i := by omega
  have hle : q.first + 1 ≤ q.first + i + 1 := by omega
  have hle' : q.first ≤ q.first + i + 1 := by omega
  simp only [pop_eq hq, cell?, hq, if_pos hle, if_pos hle', hi, hi', List.getElem?_cons_succ]

theorem lastAt_pop {q : Queue cap α} (h : q.first < q.stop) (seq : Nat) :
    q.pop.lastAt seq =
      if cap.indexOf q.first = cap.indexOf seq then q.contentAt q.first else q.lastAt seq := by
  obtain ⟨c, cells, hq⟩ := exists_cons h
  have hc : q.contentAt q.first = c.value := by simp [contentAt, cell?, hq]
  rw [pop_eq hq, hc]
  show (q.last.set (cap.indexOf q.first) c.value)[(cap.indexOf seq).val] = _
  rw [Vector.getElem_set]
  simp only [Fin.ext_iff]
  rfl

theorem committedAt_pop {q : Queue cap α} (h : q.first < q.stop) {seq : Nat}
    (hseq : q.first < seq) : q.pop.committedAt seq = q.committedAt seq := by
  unfold committedAt
  rw [cell?_pop h hseq]

/-- One lap after the number that goes, its position still shows its content. -/
theorem contentAt_pop {q : Queue cap α} (h : q.first < q.stop)
    (hcells : q.cells.length ≤ cap.size) {seq : Nat} (hseq : q.first < seq)
    (hlap : seq ≤ q.first + cap.size) :
    q.pop.contentAt seq =
      if seq = q.first + cap.size then q.contentAt q.first else q.contentAt seq := by
  have hstop : q.stop ≤ q.first + cap.size := by unfold stop; omega
  have hcontent : q.pop.contentAt seq = ((q.cell? seq).map Cell.value).getD (q.pop.lastAt seq) := by
    unfold contentAt
    rw [cell?_pop h hseq]
  rw [hcontent, lastAt_pop h]
  by_cases hlast : seq = q.first + cap.size
  · rw [if_pos hlast, cell?_eq_none (by omega), hlast, Capacity.indexOf_add_size]
    simp
  · have hne : cap.indexOf q.first ≠ cap.indexOf seq := fun heq => by
      have := cap.eq_of_indexOf_eq (Nat.le_of_lt hseq) (by omega) heq
      omega
    rw [if_neg hlast, if_neg hne]
    rfl

theorem first_drop {q : Queue cap α} {n : Nat} (h : q.first + n ≤ q.stop) :
    (q.drop n).first = q.first + n := by
  induction n generalizing q with
  | zero => rfl
  | succ n ih =>
    have hlt : q.first < q.stop := by omega
    have hfirst := first_pop hlt
    show (q.pop.drop n).first = _
    rw [ih (by rw [hfirst, stop_pop hlt]; omega), hfirst]
    omega

theorem stop_drop {q : Queue cap α} {n : Nat} (h : q.first + n ≤ q.stop) :
    (q.drop n).stop = q.stop := by
  induction n generalizing q with
  | zero => rfl
  | succ n ih =>
    have hlt : q.first < q.stop := by omega
    show (q.pop.drop n).stop = _
    rw [ih (by rw [first_pop hlt, stop_pop hlt]; omega), stop_pop hlt]

theorem committedAt_drop {q : Queue cap α} {n : Nat} (h : q.first + n ≤ q.stop) {seq : Nat}
    (hseq : q.first + n ≤ seq) : (q.drop n).committedAt seq = q.committedAt seq := by
  induction n generalizing q with
  | zero => rfl
  | succ n ih =>
    have hlt : q.first < q.stop := by omega
    have hfirst := first_pop hlt
    show (q.pop.drop n).committedAt seq = _
    rw [ih (by rw [hfirst, stop_pop hlt]; omega) (by omega), committedAt_pop hlt (by omega)]

/-! ## Growth -/

/-- Between the first queue and the second, cells were added, written and committed, and
nothing else. -/
structure Grows (q q' : Queue cap α) : Prop where
  first_eq : q'.first = q.first
  stop_le : q.stop ≤ q'.stop
  committed : ∀ seq, q.committedAt seq = true → q'.committedAt seq = true

theorem Grows.refl (q : Queue cap α) : q.Grows q := ⟨rfl, Nat.le_refl _, fun _ h => h⟩

theorem Grows.trans {q q' q'' : Queue cap α} (h : q.Grows q') (h' : q'.Grows q'') :
    q.Grows q'' where
  first_eq := h'.first_eq.trans h.first_eq
  stop_le := Nat.le_trans h.stop_le h'.stop_le
  committed := fun seq hseq => h'.committed seq (h.committed seq hseq)

theorem grows_push (q : Queue cap α) : q.Grows q.push where
  first_eq := rfl
  stop_le := by simp
  committed := fun seq h => by rwa [committedAt_push]

theorem grows_set {q : Queue cap α} {seq : Nat} (hle : q.first ≤ seq) (x : α) :
    q.Grows (q.set seq x) where
  first_eq := rfl
  stop_le := by simp
  committed := fun n h => by rwa [committedAt_set hle]

theorem grows_commit {q : Queue cap α} {seq : Nat} (hle : q.first ≤ seq) (hlt : seq < q.stop) :
    q.Grows (q.commit seq) where
  first_eq := rfl
  stop_le := by simp
  committed := by
    intro n h
    rw [committedAt_commit hle hlt, h]
    split <;> rfl

end Queue

/-! ## The queue and its handles -/

/-- A queue together with the handles to it. -/
structure SplitQueue (cap : Capacity) (α : Type) where
  queue : Queue cap α
  handles : Handles

/-- What the handles of a split buffer can be used for, a reunion apart. -/
inductive Use (α : Type) where
  | op (o : Op α)
  | info
  | read (limit : Nat) (hooks : Hooks α)

/-- The request to the buffer. -/
def Use.request {α : Type} : Use α → Buffer.Request α
  | .op o => .op o
  | .info => .info
  | .read limit hooks => .read limit hooks

namespace SplitQueue

variable {cap : Capacity} {α : Type}

/-- The queue of a buffer that was just split. -/
def ofContents (contents : Vector α cap.size) : SplitQueue cap α :=
  ⟨.ofContents contents, .fresh⟩

/-- An operation through the handles. Only a queue with many producers lets its producers
be cloned. -/
def perform (kind : Kind) : SplitQueue cap α → Op α → Reply α × SplitQueue cap α
  | ⟨q, h⟩, .claim p =>
    if p ∈ h.producers then
      match q.claim with
      | (none, q) => (.full, ⟨q, h⟩)
      | (some seq, q) =>
        let (guard, h) := h.addGuard p seq
        (.claimed guard.id (cap.indexOf seq) (q.lastAt seq), ⟨q, h⟩)
    else (.misuse, ⟨q, h⟩)
  | ⟨q, h⟩, .set id x =>
    match h.guard? id with
    | none => (.misuse, ⟨q, h⟩)
    | some guard => (.done, ⟨q.set guard.seq x, h⟩)
  | ⟨q, h⟩, .get id =>
    match h.guard? id with
    | none => (.misuse, ⟨q, h⟩)
    | some guard => (.message (q.contentAt guard.seq), ⟨q, h⟩)
  | ⟨q, h⟩, .commit id =>
    match h.guard? id with
    | none => (.misuse, ⟨q, h⟩)
    | some guard => (.done, ⟨q.commit guard.seq, h.dropGuard id⟩)
  | ⟨q, h⟩, .abandon id =>
    match h.guard? id with
    | none => (.misuse, ⟨q, h⟩)
    | some _ => (.done, ⟨q, h.dropGuard id⟩)
  | ⟨q, h⟩, .publish x p =>
    if p ∈ h.producers then
      match q.claim with
      | (none, q) => (.full, ⟨q, h⟩)
      | (some seq, q) => (.index (cap.indexOf seq), ⟨(q.set seq x).commit seq, h⟩)
    else (.misuse, ⟨q, h⟩)
  | ⟨q, h⟩, .clone p =>
    if kind = .manyProducers ∧ p ∈ h.producers then
      let (number, h) := h.addProducer
      (.producer number, ⟨q, h⟩)
    else (.misuse, ⟨q, h⟩)
  | ⟨q, h⟩, .dropProducer p =>
    if p ∈ h.producers then (.done, ⟨q, h.dropProducer p⟩) else (.misuse, ⟨q, h⟩)
  | ⟨q, h⟩, .producerInfo p =>
    if p ∈ h.producers then (.info cap.size q.cells.length, ⟨q, h⟩) else (.misuse, ⟨q, h⟩)
  | s, _ => (.misuse, s)

/-- The steps of one callback: whether it returned, and what its operations answered. -/
def runSteps (kind : Kind) : List (HookStep α) → SplitQueue cap α →
    Bool × List (Reply α) × SplitQueue cap α
  | [], s => (true, [], s)
  | .fail :: _, s => (false, [], s)
  | .op o :: steps, s =>
    let (reply, s) := s.perform kind o
    let (returned, replies, s) := runSteps kind steps s
    (returned, reply :: replies, s)

/-- Visits the cells from position `count` on, at most `left` of them, each only if it is
committed when its turn comes. All cells visited go at the end; if a callback fails they
stay, and no later read gets past them. -/
def readFrom (kind : Kind) (hooks : Hooks α) : (left count : Nat) → SplitQueue cap α →
    ReadReport α × SplitQueue cap α
  | 0, count, ⟨q, h⟩ => (⟨.finished count, [], []⟩, ⟨q.drop count, h⟩)
  | left + 1, count, ⟨q, h⟩ =>
    match q.cells[count]? with
    | some ⟨message, true⟩ =>
      let d := ⟨count, q.first + count, message⟩
      match runSteps kind (hooks.at count) ⟨q, h⟩ with
      | (true, replies, s) =>
        let (report, s) := readFrom kind hooks left (count + 1) s
        (⟨report.ending, d :: report.deliveries, replies.map (count, ·) ++ report.replies⟩, s)
      | (false, replies, ⟨q, h⟩) =>
        (⟨.failed count, [d], replies.map (count, ·)⟩, ⟨q.spoil count, h⟩)
    | _ => (⟨.finished count, [], []⟩, ⟨q.drop count, h⟩)

/-- Answers what a split buffer is used for. -/
def serve (kind : Kind) (s : SplitQueue cap α) : Use α → Answer α × SplitQueue cap α
  | .op o =>
    let (reply, s) := s.perform kind o
    (.reply reply, s)
  | .info => (.reply (.info cap.size s.queue.cells.length), s)
  | .read limit hooks =>
    let (report, s) := readFrom kind hooks (min limit s.queue.cells.length) 0 s
    (.read report, s)

/-- The answers to one use after another. -/
def answers (kind : Kind) : SplitQueue cap α → List (Use α) → List (Answer α)
  | _, [] => []
  | s, use :: uses =>
    let (answer, s) := s.serve kind use
    answer :: answers kind s uses

end SplitQueue

end RingTransport
