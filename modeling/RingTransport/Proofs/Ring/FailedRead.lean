/-
  Reads that are cut short by their callback. Such a read ought to leave the messages that no
  callback took to the reads after it, and give the slots of the messages that were taken
  back (`Recovers`). Main fact: it does so exactly if it failed on its first message; if it
  failed on a later one, the ring is stuck: no read ever delivers anything again, and the
  head never moves (`recovers_iff_failed_first`).

  The reason is that a read unmarks its messages one by one but moves the head only at its
  end. The first number is then claimed, not marked, and held by nobody (`Stalled`).
-/
import RingTransport.Proofs.Ring.Refinement

namespace RingTransport

open Buffer (Answer HookStep Hooks ReadReport)

variable {kind : Kind} {cap : Capacity} {α : Type}

/-! ## What is pending, and what is delivered -/

namespace Ring

/-- The messages that are ready from a number on without a gap, at most `left` of them. -/
def readyFrom (r : Ring kind cap α) : (left seq : Nat) → List (Nat × α)
  | 0, _ => []
  | left + 1, seq =>
    if r.markOf seq = .ready then (seq, r.slotOf seq) :: r.readyFrom left (seq + 1) else []

/-- The messages that are committed and contiguous from the head on, each with its number. -/
def pending (r : Ring kind cap α) : List (Nat × α) := r.readyFrom r.len r.head

end Ring

/-- The messages of a read, each with its number. -/
def Buffer.ReadReport.numbered (report : ReadReport α) : List (Nat × α) :=
  report.deliveries.map fun d => (d.seq, d.message)

/-- The messages that an answer delivers. -/
def Buffer.Answer.delivered : Answer α → List (Nat × α)
  | .reply _ => []
  | .read report => report.numbered

namespace Buffer

/-- A buffer after one request after another. -/
def after (b : Buffer kind cap α) (requests : List (Request α)) : Buffer kind cap α :=
  requests.foldl (fun b request => (b.serve request).2) b

/-- The messages that the reads among some requests deliver, in order. -/
def delivered (b : Buffer kind cap α) (requests : List (Request α)) : List (Nat × α) :=
  (b.answers requests).flatMap Answer.delivered

theorem delivered_cons (b : Buffer kind cap α) (request : Request α)
    (requests : List (Request α)) :
    b.delivered (request :: requests) =
      (b.serve request).1.delivered ++ (b.serve request).2.delivered requests :=
  rfl

end Buffer

/-- No callback of the use fails. -/
def Use.Calm : Use α → Prop
  | .read _ hooks => ∀ position, HookStep.fail ∉ hooks.at position
  | _ => True

/-- What a read that failed when `taken` callbacks had returned ought to leave of a buffer:
whatever the buffer is used for next, as long as no callback fails, then once all is read
again the messages that were pending and not taken are delivered, in claim order, and the
head is past every message that was taken or delivered, so that its slot can be claimed. -/
def Buffer.Recovers (before left : Buffer kind cap α) (taken : Nat) : Prop :=
  ∀ (uses : List (Use α)) (limit : Nat), (∀ use ∈ uses, use.Calm) → cap.size ≤ limit →
    let requests := (uses ++ [Use.read limit []]).map Use.request
    before.ring.pending.drop taken <+: left.delivered requests ∧
      before.ring.head + taken ≤ (left.after requests).ring.head ∧
      ∀ m ∈ left.delivered requests, m.1 < (left.after requests).ring.head

/-! ## Runs of committed cells -/

namespace Queue

/-- The committed cells at the front of a list, numbered from `seq` on. -/
def runFrom (seq : Nat) : List (Cell α) → List (Nat × α)
  | ⟨x, true⟩ :: cells => (seq, x) :: runFrom (seq + 1) cells
  | _ => []

/-- The committed cells at the front of the queue. -/
def pending (q : Queue cap α) : List (Nat × α) := runFrom q.first q.cells

variable {q q' q'' : Queue cap α}

theorem runFrom_eq_nil {cells : List (Cell α)} (h : ∀ x, cells[0]? ≠ some ⟨x, true⟩) (seq : Nat) :
    runFrom seq cells = [] := by
  match cells with
  | [] => rfl
  | ⟨x, true⟩ :: _ => exact absurd rfl (h x)
  | ⟨_, false⟩ :: _ => rfl

/-- The run from a position on starts with the cell there, if that is committed. -/
theorem runFrom_drop {i : Nat} {x : α} {cells : List (Cell α)} (h : cells[i]? = some ⟨x, true⟩)
    (seq : Nat) :
    runFrom seq (cells.drop i) = (seq, x) :: runFrom (seq + 1) (cells.drop (i + 1)) := by
  obtain ⟨hi, hx⟩ := List.getElem?_eq_some_iff.1 h
  rw [List.drop_eq_getElem_cons hi, hx]
  rfl

theorem runFrom_mono {cells cells' : List (Cell α)}
    (h : ∀ (i : Nat) (x : α), cells[i]? = some ⟨x, true⟩ → cells'[i]? = some ⟨x, true⟩)
    (seq : Nat) : runFrom seq cells <+: runFrom seq cells' := by
  induction cells generalizing cells' seq with
  | nil => exact List.nil_prefix
  | cons c cells ih =>
    match c with
    | ⟨_, false⟩ => exact List.nil_prefix
    | ⟨x, true⟩ =>
      obtain ⟨cells', rfl⟩ : ∃ rest, cells' = ⟨x, true⟩ :: rest := by
        have hx := h 0 x rfl
        match cells', hx with
        | _ :: rest, hx => exact ⟨rest, by rw [Option.some.inj hx]⟩
      have hrest : runFrom (seq + 1) cells <+: runFrom (seq + 1) cells' :=
        ih (fun i y hi => h (i + 1) y hi) (seq + 1)
      exact (List.prefix_cons_inj _).2 hrest

/-- Committed cells stay as they are. -/
structure Retains (q q' : Queue cap α) : Prop where
  first_eq : q'.first = q.first
  cell : ∀ (i : Nat) (x : α), q.cells[i]? = some ⟨x, true⟩ → q'.cells[i]? = some ⟨x, true⟩

theorem Retains.refl (q : Queue cap α) : q.Retains q := ⟨rfl, fun _ _ h => h⟩

theorem Retains.trans (h : q.Retains q') (h' : q'.Retains q'') : q.Retains q'' :=
  ⟨h'.first_eq.trans h.first_eq, fun i x hx => h'.cell i x (h.cell i x hx)⟩

theorem Retains.runFrom_mono (h : q.Retains q') (i seq : Nat) :
    runFrom seq (q.cells.drop i) <+: runFrom seq (q'.cells.drop i) := by
  refine Queue.runFrom_mono (fun j x hj => ?_) seq
  rw [List.getElem?_drop] at hj ⊢
  exact h.cell _ x hj

theorem Retains.pending_mono (h : q.Retains q') : q.pending <+: q'.pending := by
  rw [pending, pending, h.first_eq]
  exact Queue.runFrom_mono h.cell q.first

theorem retains_push (q : Queue cap α) : q.Retains q.push where
  first_eq := rfl
  cell := by
    intro i x hx
    obtain ⟨hi, -⟩ := List.getElem?_eq_some_iff.1 hx
    rw [push, List.getElem?_append_left hi]
    exact hx

theorem retains_commit (q : Queue cap α) (seq : Nat) : q.Retains (q.commit seq) where
  first_eq := rfl
  cell := by
    intro i x hx
    rw [commit, alter, List.getElem?_modify, hx]
    split <;> rfl

/-- Writing to a cell that is not committed. -/
theorem retains_set {seq : Nat} (hle : q.first ≤ seq) (hopen : q.committedAt seq = false) (y : α) :
    q.Retains (q.set seq y) where
  first_eq := rfl
  cell := by
    intro i x hx
    have hne : seq - q.first ≠ i := by
      rintro rfl
      have hcommitted := committedAt_first_add.2 ⟨x, hx⟩
      rw [Nat.add_sub_cancel' hle, hopen] at hcommitted
      exact Bool.noConfusion hcommitted
    simp only [set, alter, List.getElem?_modify, if_neg hne, hx]
    rfl

theorem pending_drop {n : Nat} (h : q.first + n ≤ q.stop) :
    (q.drop n).pending = runFrom (q.first + n) (q.cells.drop n) := by
  rw [pending, first_drop h, cells_drop]

theorem spoil_zero (q : Queue cap α) : q.spoil 0 = q := by
  have hsame : q.cells.mapIdx (fun i c => { c with committed := c.committed && decide (0 ≤ i) }) =
      q.cells := by
    refine List.ext_getElem? fun i => ?_
    simp
  rw [spoil, hsame]

/-- Changing a later cell leaves the first one alone. -/
theorem cells_zero_alter {seq : Nat} (h : q.first < seq) (f : Cell α → Cell α) :
    (q.alter seq f).cells[0]? = q.cells[0]? := by
  have hne : seq - q.first ≠ 0 := by omega
  simp only [alter, List.getElem?_modify, if_neg hne]
  exact congrFun Option.map_id _

end Queue

/-- The ring and the queue it holds have the same messages pending. -/
theorem Ring.Holds.pending_eq {r : Ring kind cap α} {q : Queue cap α} (h : r.Holds q.first q) :
    r.pending = q.pending := by
  have hrun : ∀ left i, i + left = q.cells.length →
      r.readyFrom left (q.first + i) = Queue.runFrom (q.first + i) (q.cells.drop i) := by
    intro left
    induction left with
    | zero =>
      intro i hi
      rw [List.drop_of_length_le (by omega)]
      rfl
    | succ left ih =>
      intro i hi
      have hlength := h.length_le
      have hlap : q.first + i < q.first + cap.size := by omega
      have hready := h.ready (q.first + i) (Nat.le_add_right ..) hlap
      rw [Ring.readyFrom]
      by_cases hmark : r.markOf (q.first + i) = .ready
      · obtain ⟨x, hx⟩ := Queue.committedAt_first_add.1 (hready.1 hmark).2
        have hslot : r.slotOf (q.first + i) = x := by
          rw [h.slot _ (Nat.le_add_right ..) hlap, Queue.contentAt_first_add hx]
        rw [if_pos hmark, hslot, Queue.runFrom_drop hx]
        exact congrArg _ (ih (i + 1) (by omega))
      · rw [if_neg hmark, Queue.runFrom_eq_nil]
        intro x hx
        rw [List.getElem?_drop] at hx
        exact hmark (hready.2 ⟨Nat.le_add_right .., Queue.committedAt_first_add.2 ⟨x, hx⟩⟩)
  rw [Ring.pending, Ring.len, h.distance_eq, h.head_eq]
  exact hrun _ 0 (Nat.zero_add _)

namespace SplitQueue

variable {r : Ring kind cap α} {next : Nat} {s s' : SplitQueue cap α} {q : Queue cap α}
  {h : Handles}

/-! ## Operations keep what is committed -/

theorem claim_cases (q : Queue cap α) :
    q.claim = (none, q) ∨ q.claim = (some q.stop, q.push) := by
  unfold Queue.claim
  split
  · exact .inl rfl
  · exact .inr rfl

theorem retains_fill (q : Queue cap α) (x : α) :
    q.Retains ((q.push.set q.stop x).commit q.stop) := by
  have hopen : q.push.committedAt q.stop = false := by
    rw [Queue.committedAt_push, q.committedAt_stop]
  have hset := Queue.retains_set (q := q.push) (Nat.le_add_right ..) hopen x
  exact (q.retains_push.trans hset).trans (Queue.retains_commit _ _)

/-- What an operation does to a queue and its guards. -/
inductive OpEffect (q : Queue cap α) (h : Handles) : SplitQueue cap α → Prop
  | keeps {h' : Handles} (hguards : ∀ g ∈ h'.guards, g ∈ h.guards) : OpEffect q h ⟨q, h'⟩
  | claims (p : Nat) : OpEffect q h ⟨q.push, (h.addGuard p q.stop).2⟩
  | fills (x : α) : OpEffect q h ⟨(q.push.set q.stop x).commit q.stop, h⟩
  | writes {id : Nat} {g : Guard} (hid : h.guard? id = some g) (x : α) :
      OpEffect q h ⟨q.set g.seq x, h⟩
  | commits {id : Nat} {g : Guard} (hid : h.guard? id = some g) :
      OpEffect q h ⟨q.commit g.seq, h.dropGuard id⟩

theorem perform_effect (q : Queue cap α) (h : Handles) (o : Op α) :
    OpEffect q h (SplitQueue.perform kind ⟨q, h⟩ o).2 := by
  have hsame : OpEffect q h ⟨q, h⟩ := .keeps fun _ hg => hg
  cases o with
  | claim p =>
    simp only [SplitQueue.perform]
    split
    · rcases claim_cases q with hclaim | hclaim
      · rw [hclaim]
        exact hsame
      · rw [hclaim]
        exact .claims p
    · exact hsame
  | publish x p =>
    simp only [SplitQueue.perform]
    split
    · rcases claim_cases q with hclaim | hclaim
      · rw [hclaim]
        exact hsame
      · rw [hclaim]
        exact .fills x
    · exact hsame
  | set id x =>
    simp only [SplitQueue.perform]
    split
    · exact hsame
    · next g hid => exact .writes hid x
  | commit id =>
    simp only [SplitQueue.perform]
    split
    · exact hsame
    · next g hid => exact .commits hid
  | abandon id =>
    simp only [SplitQueue.perform]
    split
    · exact hsame
    · exact .keeps fun _ hg => List.mem_of_mem_filter hg
  | dropProducer p =>
    simp only [SplitQueue.perform]
    split
    · exact .keeps fun _ hg => List.mem_of_mem_filter hg
    · exact hsame
  | clone p =>
    simp only [SplitQueue.perform]
    split
    · exact .keeps fun _ hg => hg
    · exact hsame
  | get id | producerInfo p =>
    simp only [SplitQueue.perform]
    split <;> exact hsame
  | tryClaim | write | peek | commitIndex | dump => exact hsame

theorem Agrees.retains_perform (ha : Agrees r next s) (o : Op α) :
    s.queue.Retains (s.perform kind o).2.queue := by
  obtain ⟨q, h⟩ := s
  have heffect : OpEffect q h (SplitQueue.perform kind ⟨q, h⟩ o).2 := perform_effect q h o
  generalize (SplitQueue.perform kind ⟨q, h⟩ o).2 = after at heffect ⊢
  cases heffect with
  | keeps => exact .refl q
  | claims => exact q.retains_push
  | fills x => exact retains_fill q x
  | writes hid x =>
    obtain ⟨hle, -, hopen⟩ := ha.guarded.held _ (Handles.mem_of_guard? hid).1
    exact Queue.retains_set hle hopen x
  | commits => exact q.retains_commit _

theorem Agrees.retains_runSteps (ha : Agrees r next s) (steps : List (HookStep α)) :
    s.queue.Retains (s.runSteps kind steps).2.2.queue := by
  induction steps generalizing r s with
  | nil => exact .refl _
  | cons step steps ih =>
    cases step with
    | fail => exact .refl _
    | op o =>
      obtain ⟨reply, r₁, s₁, -, hqueue, ha₁, -⟩ := ha.perform o
      have hfirst := ha.retains_perform o
      rw [hqueue] at hfirst
      simp only [SplitQueue.runSteps, hqueue]
      exact hfirst.trans (ih ha₁)

/-- A callback leaves the queue as far as the read has come. -/
theorem Agrees.callback {count : Nat} (ha : Agrees r (s.queue.first + count) s)
    (steps : List (HookStep α)) :
    ∃ returned new r₁ s₁, s.runSteps kind steps = (returned, new, s₁) ∧
      s.queue.Retains s₁.queue ∧ s.queue.Grows s₁.queue ∧
      Agrees (r₁ : Ring kind cap α) (s₁.queue.first + count) s₁ := by
  obtain ⟨returned, new, r₁, s₁, hqueue, -, ha₁, hgrows⟩ := ha.runSteps count steps [] []
  have hkeep := ha.retains_runSteps steps
  rw [hqueue] at hkeep
  rw [← hgrows.first_eq] at ha₁
  exact ⟨returned, new, r₁, s₁, hqueue, hkeep, hgrows, ha₁⟩

/-- A callback that is not told to fail returns. -/
theorem runSteps_returns {steps : List (HookStep α)} (hcalm : HookStep.fail ∉ steps)
    (s : SplitQueue cap α) : (s.runSteps kind steps).1 = true := by
  induction steps generalizing s with
  | nil => rfl
  | cons step steps ih =>
    cases step with
    | fail => exact absurd (List.mem_cons_self ..) hcalm
    | op o => exact ih (fun hmem => hcalm (List.mem_cons_of_mem _ hmem)) _

/-! ## Reads that do not fail -/

/-- What a use of a queue does to the messages that are pending: they are delivered or still
pending, and the first number is past all that are delivered. -/
structure Passes (s : SplitQueue cap α) (ms : List (Nat × α)) (s' : SplitQueue cap α) : Prop where
  prefix_eq : s.queue.pending <+: ms ++ s'.queue.pending
  first_le : s.queue.first ≤ s'.queue.first
  lt_first : ∀ m ∈ ms, m.1 < s'.queue.first

theorem Passes.trans {s'' : SplitQueue cap α} {ms ms' : List (Nat × α)} (hp : Passes s ms s')
    (hp' : Passes s' ms' s'') : Passes s (ms ++ ms') s'' where
  prefix_eq := by
    rw [List.append_assoc]
    exact hp.prefix_eq.trans ((List.prefix_append_right_inj ms).2 hp'.prefix_eq)
  first_le := Nat.le_trans hp.first_le hp'.first_le
  lt_first := by
    intro m hm
    rcases List.mem_append.1 hm with hold | hnew
    · exact Nat.lt_of_lt_of_le (hp.lt_first m hold) hp'.first_le
    · exact hp'.lt_first m hnew

theorem passes_of_retains (h : s.queue.Retains s'.queue) : Passes s [] s' where
  prefix_eq := h.pending_mono
  first_le := Nat.le_of_eq h.first_eq.symm
  lt_first := nofun

/-- A read that is at the cell `count` delivers the run of committed cells from there on, and
whatever is committed meanwhile. -/
theorem Agrees.readFrom_calm {hooks : Hooks α}
    (hcalm : ∀ position, HookStep.fail ∉ hooks.at position) (left : Nat) {count : Nat}
    (ha : Agrees r (s.queue.first + count) s) (hcount : s.queue.first + count ≤ s.queue.stop) :
    ∃ report s', s.readFrom kind hooks left count = (report, s') ∧
      Queue.runFrom (s.queue.first + count) (s.queue.cells.drop count) <+:
        report.numbered ++ s'.queue.pending ∧
      s.queue.first + count ≤ s'.queue.first ∧
      ∀ m ∈ report.numbered, m.1 < s'.queue.first := by
  induction left generalizing r s count with
  | zero =>
    refine ⟨_, _, rfl, ?_, ?_, nofun⟩
    · rw [Queue.pending_drop hcount]
      exact List.prefix_rfl
    · exact Nat.le_of_eq (Queue.first_drop hcount).symm
  | succ left ih =>
    obtain ⟨q, h⟩ := s
    by_cases hcommitted : ∃ x, q.cells[count]? = some ⟨x, true⟩
    · obtain ⟨x, hx⟩ := hcommitted
      obtain ⟨returned, new, r₁, ⟨q₁, h₁⟩, hqueue, hkeep, hgrows, ha₁⟩ :=
        ha.callback (hooks.at count)
      obtain rfl : returned = true := by
        have hreturned : (SplitQueue.runSteps kind (hooks.at count) ⟨q, h⟩).1 = true :=
          runSteps_returns (hcalm count) _
        rwa [hqueue] at hreturned
      have hfirst : q₁.first = q.first := hkeep.first_eq
      obtain ⟨hstop, ha₂⟩ := ha₁.pass hgrows (Queue.committedAt_first_add.2 ⟨x, hx⟩)
      obtain ⟨report, s', hrest, hrun, hle, hlt⟩ := ih (s := ⟨q₁, h₁⟩) ha₂ hstop
      have hrest' : Queue.runFrom (q.first + count + 1) (q.cells.drop (count + 1)) <+:
          report.numbered ++ s'.queue.pending := by
        refine (hkeep.runFrom_mono (count + 1) (q.first + count + 1)).trans ?_
        rw [← hfirst]
        exact hrun
      have hle' : q.first + count + 1 ≤ s'.queue.first := by
        rw [← hfirst]
        exact hle
      refine ⟨⟨report.ending, ⟨count, q.first + count, x⟩ :: report.deliveries,
        new.map (count, ·) ++ report.replies⟩, s', ?_, ?_, Nat.le_of_succ_le hle', ?_⟩
      · simp only [SplitQueue.readFrom, hx, hqueue, hrest]
      · rw [Queue.runFrom_drop hx]
        exact (List.prefix_cons_inj _).2 hrest'
      · intro m hm
        rcases List.mem_cons.1 hm with rfl | hm
        · exact hle'
        · exact hlt m hm
    · have hopen : ∀ x, q.cells[count]? ≠ some ⟨x, true⟩ := fun x hx => hcommitted ⟨x, hx⟩
      refine ⟨_, _, readFrom_stop hopen, ?_, ?_, nofun⟩
      · rw [Queue.pending_drop hcount]
        exact List.prefix_rfl
      · exact Nat.le_of_eq (Queue.first_drop hcount).symm

theorem Agrees.passes (ha : Agrees r s.queue.first s) {use : Use α} (hcalm : use.Calm) :
    Passes s (s.serve kind use).1.delivered (s.serve kind use).2 := by
  cases use with
  | op o => exact passes_of_retains (ha.retains_perform o)
  | info => exact passes_of_retains (.refl _)
  | read limit hooks =>
    have ha₀ : Agrees r (s.queue.first + 0) s := ha
    obtain ⟨report, s', hread, hrun, hle, hlt⟩ :=
      ha₀.readFrom_calm hcalm (min limit s.queue.cells.length) (Nat.le_add_right ..)
    simp only [SplitQueue.serve, hread]
    exact ⟨hrun, hle, hlt⟩

/-- A read with nothing in its callbacks, and a limit that all cells fit in, leaves nothing
pending. -/
theorem readFrom_drains (left : Nat) {count : Nat} (s : SplitQueue cap α)
    (hcount : count ≤ s.queue.cells.length) (hleft : s.queue.cells.length ≤ count + left) :
    (s.readFrom kind [] left count).2.queue.pending = [] := by
  obtain ⟨q, h⟩ := s
  have hstop : ∀ n, n ≤ q.cells.length → q.first + n ≤ q.stop := fun n hn =>
    Nat.add_le_add_left hn _
  induction left generalizing count with
  | zero =>
    show (q.drop count).pending = []
    have hall : q.cells.length ≤ count := hleft
    rw [Queue.pending_drop (hstop count hcount), List.drop_of_length_le hall]
    rfl
  | succ left ih =>
    by_cases hcommitted : ∃ x, q.cells[count]? = some ⟨x, true⟩
    · obtain ⟨x, hx⟩ := hcommitted
      obtain ⟨hlt, -⟩ := List.getElem?_eq_some_iff.1 hx
      simp only [SplitQueue.readFrom, hx]
      exact ih hlt (by omega)
    · have hopen : ∀ x, q.cells[count]? ≠ some ⟨x, true⟩ := fun x hx => hcommitted ⟨x, hx⟩
      rw [readFrom_stop hopen, Queue.pending_drop (hstop count hcount), Queue.runFrom_eq_nil]
      intro x hx
      rw [List.getElem?_drop] at hx
      exact hopen x hx

/-! ## Reads that fail -/

/-- What a read that fails at position `k` leaves: the messages before `k` are no longer
committed, though no other cell is. -/
theorem Agrees.readFrom_failed {hooks : Hooks α} (left : Nat) {count k : Nat}
    (ha : Agrees r (s.queue.first + count) s)
    (hfail : (s.readFrom kind hooks left count).1.ending = .failed k) :
    ∃ r₁ q₁ h₁, (s.readFrom kind hooks left count).2 = ⟨q₁.spoil k, h₁⟩ ∧
      s.queue.Retains q₁ ∧ Agrees (r₁ : Ring kind cap α) (q₁.first + k) ⟨q₁, h₁⟩ := by
  induction left generalizing r s count with
  | zero => exact Ring.ReadEnd.noConfusion hfail
  | succ left ih =>
    obtain ⟨q, h⟩ := s
    by_cases hcommitted : ∃ x, q.cells[count]? = some ⟨x, true⟩
    · obtain ⟨x, hx⟩ := hcommitted
      obtain ⟨returned, new, r₁, ⟨q₁, h₁⟩, hqueue, hkeep, hgrows, ha₁⟩ :=
        ha.callback (hooks.at count)
      simp only [SplitQueue.readFrom, hx, hqueue] at hfail ⊢
      cases returned with
      | false =>
        obtain rfl : count = k := Ring.ReadEnd.failed.inj hfail
        exact ⟨r₁, q₁, h₁, rfl, hkeep, ha₁⟩
      | true =>
        obtain ⟨-, ha₂⟩ := ha₁.pass hgrows (Queue.committedAt_first_add.2 ⟨x, hx⟩)
        obtain ⟨r₂, q₂, h₂, hleft, hkeep', ha'⟩ := ih (s := ⟨q₁, h₁⟩) ha₂ hfail
        exact ⟨r₂, q₂, h₂, hleft, hkeep.trans hkeep', ha'⟩
    · rw [readFrom_stop fun x hx => hcommitted ⟨x, hx⟩] at hfail
      exact Ring.ReadEnd.noConfusion hfail

/-- The first cell is not committed, and no guard can commit it. -/
structure Stalled (s : SplitQueue cap α) : Prop where
  uncommitted : ∃ x, s.queue.cells[0]? = some ⟨x, false⟩
  unheld : ∀ g ∈ s.handles.guards, g.seq ≠ s.queue.first

theorem Agrees.stalled_spoil {k : Nat} (ha : Agrees r (q.first + k) ⟨q, h⟩) (hk : 0 < k) :
    Stalled (⟨q.spoil k, h⟩ : SplitQueue cap α) := by
  have hcommitted : q.committedAt (q.first + 0) = true :=
    ha.visited _ (Nat.le_add_right ..) (Nat.add_lt_add_left hk _)
  refine ⟨?_, fun g hg heq => ?_⟩
  · obtain ⟨x, hx⟩ := Queue.committedAt_first_add.1 hcommitted
    have hspoiled : decide (k ≤ 0) = false := decide_eq_false (Nat.not_le_of_lt hk)
    exact ⟨x, by simp only [Queue.spoil, List.getElem?_mapIdx, hx, Option.map_some, hspoiled,
      Bool.and_false]⟩
  · have hopen := (ha.guarded.held g hg).2.2
    rw [show g.seq = q.first + 0 from heq, hcommitted] at hopen
    exact Bool.noConfusion hopen

/-- A stalled queue stays stalled while its guards are forgotten and later cells changed. -/
theorem Stalled.grow {q q' : Queue cap α} {h' : Handles} (hs : Stalled ⟨q, h⟩)
    (hcell : q'.cells[0]? = q.cells[0]?) (hfirst : q'.first = q.first)
    (hguards : ∀ g ∈ h'.guards, g ∈ h.guards ∨ g.seq = q.stop) : Stalled ⟨q', h'⟩ where
  uncommitted := by
    obtain ⟨x, hx⟩ := hs.uncommitted
    exact ⟨x, hcell.trans hx⟩
  unheld := by
    intro g hg
    show g.seq ≠ q'.first
    rw [hfirst]
    rcases hguards g hg with hold | hnew
    · exact hs.unheld g hold
    · obtain ⟨x, hx⟩ := hs.uncommitted
      obtain ⟨hpos, -⟩ := List.getElem?_eq_some_iff.1 hx
      rw [hnew]
      exact Nat.ne_of_gt (Nat.lt_add_of_pos_right hpos)

theorem Agrees.stalled_perform (ha : Agrees r next s) (hs : Stalled s) (o : Op α) :
    Stalled (s.perform kind o).2 := by
  obtain ⟨q, h⟩ := s
  obtain ⟨x₀, hx₀⟩ := hs.uncommitted
  obtain ⟨hpos, -⟩ := List.getElem?_eq_some_iff.1 hx₀
  have hpush : q.push.cells[0]? = q.cells[0]? := List.getElem?_append_left hpos
  have hbehind : q.first < q.stop := Nat.lt_add_of_pos_right hpos
  have hheld : ∀ {id g}, h.guard? id = some g → q.first < g.seq := fun hid => by
    obtain ⟨hmem, -⟩ := Handles.mem_of_guard? hid
    exact Nat.lt_of_le_of_ne (ha.guarded.held _ hmem).1 (hs.unheld _ hmem).symm
  have heffect : OpEffect q h (SplitQueue.perform kind ⟨q, h⟩ o).2 := perform_effect q h o
  generalize (SplitQueue.perform kind ⟨q, h⟩ o).2 = after at heffect ⊢
  cases heffect with
  | keeps hguards => exact hs.grow rfl rfl fun g hg => .inl (hguards g hg)
  | claims p =>
    refine hs.grow hpush rfl fun g hg => ?_
    rcases List.mem_append.1 hg with hold | hnew
    · exact .inl hold
    · rw [List.mem_singleton.1 hnew]
      exact .inr rfl
  | fills x =>
    have hset := Queue.cells_zero_alter (q := q.push) hbehind fun c => { c with value := x }
    have hcommit := Queue.cells_zero_alter (q := q.push.set q.stop x) hbehind
      fun c => { c with committed := true }
    exact hs.grow (hcommit.trans (hset.trans hpush)) rfl fun g hg => .inl hg
  | writes hid x =>
    exact hs.grow (Queue.cells_zero_alter (hheld hid) _) rfl fun g hg => .inl hg
  | commits hid =>
    exact hs.grow (Queue.cells_zero_alter (hheld hid) _) rfl fun g hg =>
      .inl (List.mem_of_mem_filter hg)

/-- Whatever a stalled queue is used for, it stays stalled, nothing is delivered, and the
first number stays. -/
theorem Agrees.stalled_serve (ha : Agrees r next s) (hs : Stalled s) (use : Use α) :
    (s.serve kind use).1.delivered = [] ∧ Stalled (s.serve kind use).2 ∧
      (s.serve kind use).2.queue.first = s.queue.first := by
  cases use with
  | op o => exact ⟨rfl, ha.stalled_perform hs o, (ha.retains_perform o).first_eq⟩
  | info => exact ⟨rfl, hs, rfl⟩
  | read limit hooks =>
    obtain ⟨q, h⟩ := s
    have hread : SplitQueue.readFrom kind hooks (min limit q.cells.length) 0 ⟨q, h⟩ =
        (⟨.finished 0, [], []⟩, ⟨q, h⟩) := by
      cases min limit q.cells.length with
      | zero => rfl
      | succ left =>
        refine readFrom_stop fun x hx => ?_
        obtain ⟨y, hy⟩ := hs.uncommitted
        rw [hy] at hx
        cases hx
    have hserve : SplitQueue.serve kind ⟨q, h⟩ (.read limit hooks) =
        (.read ⟨.finished 0, [], []⟩, ⟨q, h⟩) := by
      simp only [SplitQueue.serve, hread]
    rw [hserve]
    exact ⟨rfl, hs, rfl⟩

/-! ## Uses in a row -/

/-- What uses in a row deliver, and what they leave. -/
def run (kind : Kind) : SplitQueue cap α → List (Use α) → List (Nat × α) × SplitQueue cap α
  | s, [] => ([], s)
  | s, use :: uses =>
    let (answer, s) := s.serve kind use
    let (ms, s) := s.run kind uses
    (answer.delivered ++ ms, s)

theorem run_append (first second : List (Use α)) (s : SplitQueue cap α) :
    s.run kind (first ++ second) =
      ((s.run kind first).1 ++ ((s.run kind first).2.run kind second).1,
        ((s.run kind first).2.run kind second).2) := by
  induction first generalizing s with
  | nil => rfl
  | cons use first ih => simp only [List.cons_append, run, ih, List.append_assoc]

/-- A buffer delivers what its queue does. -/
theorem Agrees.run (ha : Agrees r s.queue.first s) (uses : List (Use α)) :
    let b : Buffer kind cap α := ⟨r, some s.handles⟩
    b.delivered (uses.map Use.request) = (s.run kind uses).1 ∧
      ∃ r', b.after (uses.map Use.request) = ⟨r', some (s.run kind uses).2.handles⟩ ∧
        Agrees r' (s.run kind uses).2.queue.first (s.run kind uses).2 := by
  induction uses generalizing r s with
  | nil => exact ⟨rfl, r, rfl, ha⟩
  | cons use uses ih =>
    obtain ⟨answer, r₁, s₁, hring, hqueue, ha₁⟩ := ha.serve use
    obtain ⟨hdelivered, r', hafter, ha'⟩ := ih ha₁
    simp only [List.map_cons, Buffer.delivered_cons, Buffer.after, List.foldl_cons, hring,
      SplitQueue.run, hqueue]
    exact ⟨congrArg _ hdelivered, r', hafter, ha'⟩

theorem Agrees.passes_run (ha : Agrees r s.queue.first s) {uses : List (Use α)}
    (hcalm : ∀ use ∈ uses, use.Calm) : Passes s (s.run kind uses).1 (s.run kind uses).2 := by
  induction uses generalizing r s with
  | nil => exact passes_of_retains (.refl _)
  | cons use uses ih =>
    obtain ⟨answer, r₁, s₁, -, hqueue, ha₁⟩ := ha.serve use
    have hpass := ha.passes (hcalm use (List.mem_cons_self ..))
    rw [hqueue] at hpass
    simp only [SplitQueue.run, hqueue]
    exact hpass.trans (ih ha₁ fun use hmem => hcalm use (List.mem_cons_of_mem _ hmem))

theorem Agrees.stalled_run (ha : Agrees r s.queue.first s) (hs : Stalled s) (uses : List (Use α)) :
    (s.run kind uses).1 = [] ∧ (s.run kind uses).2.queue.first = s.queue.first := by
  induction uses generalizing r s with
  | nil => exact ⟨rfl, rfl⟩
  | cons use uses ih =>
    obtain ⟨answer, r₁, s₁, -, hqueue, ha₁⟩ := ha.serve use
    obtain ⟨hnothing, hs₁, hfirst⟩ := ha.stalled_serve hs use
    rw [hqueue] at hnothing hs₁ hfirst
    obtain ⟨hrest, hfirst'⟩ := ih ha₁ hs₁
    simp only [SplitQueue.run, hqueue]
    exact ⟨by rw [hnothing, hrest]; rfl, hfirst'.trans hfirst⟩

/-- After a read that takes everything, nothing is pending. -/
theorem Agrees.drained_run (ha : Agrees r s.queue.first s) (uses : List (Use α)) {limit : Nat}
    (hlimit : cap.size ≤ limit) :
    (s.run kind (uses ++ [.read limit []])).2.queue.pending = [] := by
  obtain ⟨-, r', -, ha'⟩ := ha.run uses
  have hlength := ha'.holds.length_le
  rw [run_append]
  refine readFrom_drains _ _ (Nat.zero_le _) ?_
  omega

/-- The buffer right after its split agrees with the queue of its contents. -/
theorem agrees_ofSlots (contents : Vector α cap.size) :
    Agrees (.ofSlots contents : Ring kind cap α) 0 (.ofContents contents) where
  holds := Ring.holds_ofSlots contents
  visited := fun seq _ hlt => absurd hlt (Nat.not_lt_zero seq)
  guarded := ⟨nofun, List.nodup_nil⟩

/-- A read of a buffer, next to its queue. -/
theorem Agrees.readHooked (ha : Agrees r s.queue.first s) (limit : Nat) (hooks : Hooks α) :
    let b : Buffer kind cap α := ⟨r, some s.handles⟩
    let read := s.readFrom kind hooks (min limit s.queue.cells.length) 0
    (b.readHooked limit hooks).1 = read.1 ∧
      ∃ r', (b.readHooked limit hooks).2 = ⟨r', some read.2.handles⟩ ∧
        Agrees r' read.2.queue.first read.2 := by
  intro b read
  obtain ⟨answer, r', s', hring, hqueue, ha'⟩ := ha.serve (.read limit hooks)
  have hreport : Answer.read (b.readHooked limit hooks).1 = answer := congrArg Prod.fst hring
  have hreport' : Answer.read read.1 = answer := congrArg Prod.fst hqueue
  obtain rfl : read.2 = s' := congrArg Prod.snd hqueue
  exact ⟨Answer.read.inj (hreport.trans hreport'.symm), r', congrArg Prod.snd hring, ha'⟩

/-! ## Recovery -/

/-- What failed on its first message is left as if it had not been read. -/
theorem Agrees.recovers (ha : Agrees r s.queue.first s) {limit : Nat} {hooks : Hooks α} :
    let b : Buffer kind cap α := ⟨r, some s.handles⟩
    (b.readHooked limit hooks).1.ending = .failed 0 →
      b.Recovers (b.readHooked limit hooks).2 0 := by
  intro b hfail uses limit' hcalm hlimit
  obtain ⟨hreport, r', hleft, ha'⟩ := ha.readHooked limit hooks
  rw [hreport] at hfail
  have ha₀ : Agrees r (s.queue.first + 0) s := ha
  obtain ⟨-, q₁, h₁, hspoil, hkeep, -⟩ := ha₀.readFrom_failed _ hfail
  rw [Queue.spoil_zero] at hspoil
  rw [hspoil] at hleft ha'
  obtain ⟨hdelivered, r'', hafter, ha''⟩ := ha'.run (uses ++ [.read limit' []])
  have hcalm' : ∀ use ∈ uses ++ [Use.read limit' []], use.Calm := fun use hmem => by
    rcases List.mem_append.1 hmem with huse | hread
    · exact hcalm use huse
    · rw [List.mem_singleton.1 hread]
      exact fun position => List.not_mem_nil
  have hpass := (passes_of_retains hkeep).trans (ha'.passes_run hcalm')
  have hpending := hpass.prefix_eq
  rw [ha'.drained_run uses hlimit, List.append_nil] at hpending
  refine ⟨?_, ?_, ?_⟩
  · rw [hleft, hdelivered, ha.holds.pending_eq]
    exact hpending
  · rw [hleft, hafter, ha''.holds.head_eq, ha.holds.head_eq]
    exact hpass.first_le
  · rw [hleft, hdelivered, hafter, ha''.holds.head_eq]
    exact hpass.lt_first

/-- What failed on a later message is never of use again. -/
theorem Agrees.stuck (ha : Agrees r s.queue.first s) {limit k : Nat} {hooks : Hooks α}
    (hk : 0 < k) (uses : List (Use α)) :
    let b : Buffer kind cap α := ⟨r, some s.handles⟩
    let left := (b.readHooked limit hooks).2
    (b.readHooked limit hooks).1.ending = .failed k →
      left.delivered (uses.map Use.request) = [] ∧
      (left.after (uses.map Use.request)).ring.head = b.ring.head := by
  intro b left hfail
  obtain ⟨hreport, r', hleft, ha'⟩ := ha.readHooked limit hooks
  rw [hreport] at hfail
  have ha₀ : Agrees r (s.queue.first + 0) s := ha
  obtain ⟨r₁, q₁, h₁, hspoil, hkeep, ha₁⟩ := ha₀.readFrom_failed _ hfail
  rw [hspoil] at hleft ha'
  obtain ⟨hdelivered, r'', hafter, ha''⟩ := ha'.run uses
  obtain ⟨hnothing, hfirst⟩ := ha'.stalled_run (ha₁.stalled_spoil hk) uses
  refine ⟨?_, ?_⟩
  · rw [show left = _ from hleft, hdelivered, hnothing]
  · rw [show left = _ from hleft, hafter, ha''.holds.head_eq, hfirst, ha.holds.head_eq]
    exact hkeep.first_eq

end SplitQueue

/-- A read of a split buffer of either kind, in any state it can come to, that fails at
position `k` leaves the messages to the next reads if `k` is 0. Otherwise it leaves a buffer
that delivers nothing whatever it is used for, and whose head never moves. -/
theorem recovers_iff_failed_first (kind : Kind) {cap : Capacity} {α : Type}
    (contents : Vector α cap.size) (before : List (Use α)) (limit : Nat) (hooks : Hooks α)
    (k : Nat) :
    let b := (Buffer.ofRing (.ofSlots contents : Ring kind cap α)).split.2.after
      (before.map Use.request)
    let left := (b.readHooked limit hooks).2
    (b.readHooked limit hooks).1.ending = .failed k →
      (b.Recovers left k ↔ k = 0) ∧
      (0 < k → ∀ uses : List (Use α), left.delivered (uses.map Use.request) = [] ∧
        (left.after (uses.map Use.request)).ring.head = b.ring.head) := by
  intro b left hfail
  have ha₀ : SplitQueue.Agrees (.ofSlots contents : Ring kind cap α)
      (SplitQueue.ofContents contents).queue.first (.ofContents contents) :=
    SplitQueue.agrees_ofSlots contents
  obtain ⟨-, r, hb, ha⟩ := ha₀.run before
  obtain hb : b = _ := hb
  have hstuck (hk : 0 < k) (uses : List (Use α)) :
      left.delivered (uses.map Use.request) = [] ∧
        (left.after (uses.map Use.request)).ring.head = b.ring.head := by
    simp only [left, hb] at hfail ⊢
    exact ha.stuck hk uses hfail
  refine ⟨⟨fun hrecovers => ?_, ?_⟩, hstuck⟩
  · by_contra hk
    obtain ⟨-, hpast, -⟩ := hrecovers [] cap.size nofun (Nat.le_refl _)
    rw [(hstuck (Nat.pos_of_ne_zero hk) _).2] at hpast
    omega
  · rintro rfl
    simp only [left, hb] at hfail ⊢
    exact ha.recovers hfail

/-- A buffer of four slots in which 10 and 11 were published. -/
def twoPublished (kind : Kind) : Buffer kind ⟨4, rfl⟩ Nat :=
  (Buffer.ofRing (.ofSlots (.replicate 4 0))).split.2.after
    ([.op (.publish 10 0), .op (.publish 11 0)].map Use.request)

/-- What is left of it once a read has failed on 11. -/
def secondFailed (kind : Kind) : ReadReport Nat × Buffer kind ⟨4, rfl⟩ Nat :=
  (twoPublished kind).readHooked 4 [(1, [.fail])]

theorem second_failed_not_recovering :
    (secondFailed .manyProducers).1.ending = .failed 1 ∧
      ¬ (twoPublished .manyProducers).Recovers (secondFailed .manyProducers).2 1 := by
  have hfail : (secondFailed .manyProducers).1.ending = .failed 1 := by decide
  obtain ⟨hiff, -⟩ := @recovers_iff_failed_first .manyProducers ⟨4, rfl⟩ Nat (.replicate 4 0)
    [.op (.publish 10 0), .op (.publish 11 0)] 4 [(1, [.fail])] 1 hfail
  exact ⟨hfail, fun hrecovers => absurd (hiff.1 hrecovers) (by decide)⟩

/-- For either kind 11 was pending, no callback that returned had it, and the next read does
not deliver it. -/
theorem second_message_lost :
    ((twoPublished .oneProducer).ring.pending = [(0, 10), (1, 11)] ∧
      (secondFailed .oneProducer).1.ending = .failed 1 ∧
      (secondFailed .oneProducer).2.delivered [.read 4 []] = []) ∧
    ((twoPublished .manyProducers).ring.pending = [(0, 10), (1, 11)] ∧
      (secondFailed .manyProducers).1.ending = .failed 1 ∧
      (secondFailed .manyProducers).2.delivered [.read 4 []] = []) := by
  decide

end RingTransport
