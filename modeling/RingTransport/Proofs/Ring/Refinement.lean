/-
  A split buffer answers as its queue does. `Ring.Holds` says what the counters, the marks
  and the slots of a ring have to do with a queue; while a read is under way the marks
  below a number are cleared already, though the cells are still there. `Agrees` adds the
  guards. Main fact: whatever a split buffer of either kind is used for, and whatever the
  callbacks of its reads do in between, its answers are those of the queue
  (`answers_eq_queue`).
-/
import Mathlib.Data.List.Nodup
import RingTransport.Proofs.Ring.Queue

namespace RingTransport

open Buffer (Answer HookStep Hooks ReadReport)

/-! ## Rings and queues -/

namespace Ring

variable {kind : Kind} {cap : Capacity} {α : Type} {r : Ring kind cap α} {next : Nat}
  {q : Queue cap α}

/-- The ring holds the queue, with the marks below `next` cleared. The numbers from the
head on for one lap fall on all the slots, each on its own. -/
structure Holds (r : Ring kind cap α) (next : Nat) (q : Queue cap α) : Prop where
  head_eq : r.head = q.first
  tail_eq : r.tail = q.stop
  length_le : q.cells.length ≤ cap.size
  slot : ∀ seq, q.first ≤ seq → seq < q.first + cap.size → r.slotOf seq = q.contentAt seq
  ready : ∀ seq, q.first ≤ seq → seq < q.first + cap.size →
    (r.markOf seq = .ready ↔ next ≤ seq ∧ q.committedAt seq = true)

theorem holds_ofSlots (slots : Vector α cap.size) :
    (ofSlots slots : Ring kind cap α).Holds 0 (.ofContents slots) where
  head_eq := rfl
  tail_eq := rfl
  length_le := Nat.zero_le _
  slot := by
    intro seq _ _
    rw [Queue.contentAt, Queue.cell?_eq_none (Nat.zero_le seq)]
    rfl
  ready := by
    intro seq _ _
    simp [markOf, ofSlots, Queue.committedAt, Queue.cell?, Queue.ofContents]

theorem Holds.stop_le (h : r.Holds next q) : q.stop ≤ q.first + cap.size := by
  have := h.length_le
  unfold Queue.stop
  omega

theorem Holds.distance_eq (h : r.Holds next q) : distance r.tail r.head = q.cells.length := by
  have hle : q.first ≤ q.stop := Nat.le_add_right ..
  rw [h.head_eq, h.tail_eq, distance_of_le hle]
  exact Nat.add_sub_cancel_left ..

theorem Holds.tryClaim_full (h : r.Holds next q) (hfull : q.cells.length = cap.size) :
    r.tryClaim = (none, r) := by
  have hle : cap.size ≤ distance r.tail r.head := Nat.le_of_eq (h.distance_eq.trans hfull).symm
  rw [tryClaim, if_pos hle]

/-- Marking a claim makes no slot ready that was not, nor the other way round. -/
theorem markOf_markClaimed {seq : Nat} (hseq : r.markOf seq ≠ .ready) (n : Nat) :
    (r.markClaimed seq).markOf n = .ready ↔ r.markOf n = .ready := by
  cases kind with
  | oneProducer => rfl
  | manyProducers =>
    show (r.mark (cap.indexOf seq) .claimed).markOf n = .ready ↔ _
    rw [markOf_mark]
    split
    · next heq =>
      rw [← markOf_congr r heq]
      exact ⟨fun hclaimed => Mark.noConfusion hclaimed, fun hready => absurd hready hseq⟩
    · rfl

theorem Holds.tryClaim_room (h : r.Holds next q) (hroom : q.cells.length ≠ cap.size) :
    ∃ r', r.tryClaim = (some q.stop, r') ∧ r'.Holds next q.push := by
  have hlength := h.length_le
  have hlt : ¬ cap.size ≤ distance r.tail r.head := by
    rw [h.distance_eq]
    omega
  have hstop : q.stop < q.first + cap.size := by
    unfold Queue.stop
    omega
  have hunmarked : (r.setTail (q.stop + 1)).markOf q.stop ≠ .ready := fun hready => by
    have := Queue.lt_stop_of_committedAt ((h.ready q.stop (Nat.le_add_right ..) hstop).1 hready).2
    omega
  refine ⟨(r.setTail (q.stop + 1)).markClaimed q.stop, ?_, ?_⟩
  · rw [tryClaim, if_neg hlt, h.tail_eq]
  · refine ⟨?_, ?_, ?_, ?_, ?_⟩
    · rw [head_markClaimed, head_setTail, h.head_eq, Queue.first_push]
    · rw [tail_markClaimed, tail_setTail, Queue.stop_push]
    · rw [Queue.push, List.length_append, List.length_singleton]
      omega
    · intro seq hle hlt
      rw [slotOf_markClaimed, slotOf_setTail, Queue.contentAt_push]
      exact h.slot seq hle hlt
    · intro seq hle hlt
      rw [markOf_markClaimed hunmarked, markOf_setTail, Queue.committedAt_push]
      exact h.ready seq hle hlt

/-- A claim succeeds on the ring exactly when it does on the queue, and it finds the same
content. -/
theorem Holds.tryClaim (h : r.Holds next q) :
    (r.tryClaim = (none, r) ∧ q.claim = (none, q)) ∨
    ∃ r', r.tryClaim = (some q.stop, r') ∧ q.claim = (some q.stop, q.push) ∧
      r'.Holds next q.push ∧ r'.slotOf q.stop = q.lastAt q.stop := by
  by_cases hfull : q.cells.length = cap.size
  · exact .inl ⟨h.tryClaim_full hfull, by rw [Queue.claim, if_pos hfull]⟩
  · obtain ⟨r', hclaim, h'⟩ := h.tryClaim_room hfull
    refine .inr ⟨r', hclaim, by rw [Queue.claim, if_neg hfull], h', ?_⟩
    have hlt : q.stop < q.push.first + cap.size := by
      have := h'.stop_le
      rw [Queue.stop_push] at this
      omega
    rw [h'.slot q.stop (Nat.le_add_right ..) hlt, Queue.contentAt_push, Queue.contentAt,
      Queue.cell?_eq_none (Nat.le_refl _)]
    rfl

theorem Holds.write (h : r.Holds next q) {seq : Nat} (hle : q.first ≤ seq) (hlt : seq < q.stop)
    (x : α) : (r.write (cap.indexOf seq) x).Holds next (q.set seq x) where
  head_eq := h.head_eq
  tail_eq := h.tail_eq.trans (Queue.stop_set ..).symm
  length_le := by simpa [Queue.set, Queue.alter] using h.length_le
  slot := by
    intro n hn hn'
    have hiff := cap.indexOf_eq_iff_of_lap hle (Nat.lt_of_lt_of_le hlt h.stop_le) hn hn'
    rw [slotOf_write, Queue.contentAt_set hle hlt]
    simp only [hiff, h.slot n hn hn']
  ready := by
    intro n hn hn'
    rw [markOf_write, Queue.committedAt_set hle]
    exact h.ready n hn hn'

theorem Holds.commit (h : r.Holds next q) {seq : Nat} (hle : q.first ≤ seq) (hlt : seq < q.stop)
    (hnext : next ≤ seq) : (r.commit (cap.indexOf seq)).Holds next (q.commit seq) where
  head_eq := h.head_eq
  tail_eq := h.tail_eq.trans (Queue.stop_commit ..).symm
  length_le := by simpa [Queue.commit, Queue.alter] using h.length_le
  slot := by
    intro n hn hn'
    rw [slotOf_commit, Queue.contentAt_commit hle]
    exact h.slot n hn hn'
  ready := by
    intro n hn hn'
    have hiff := cap.indexOf_eq_iff_of_lap hle (Nat.lt_of_lt_of_le hlt h.stop_le) hn hn'
    rw [markOf_commit, Queue.committedAt_commit hle hlt]
    simp only [hiff]
    by_cases heq : n = seq
    · simp [heq, hnext]
    · simp only [if_neg heq]
      exact h.ready n hn hn'

/-- The reader clears the mark of the cell it just visited. -/
theorem Holds.clear (h : r.Holds next q) (hle : q.first ≤ next) (hlt : next < q.stop) :
    (r.mark (cap.indexOf next) .empty).Holds (next + 1) q where
  head_eq := h.head_eq
  tail_eq := h.tail_eq
  length_le := h.length_le
  slot := h.slot
  ready := by
    intro n hn hn'
    have hiff := cap.indexOf_eq_iff_of_lap hle (Nat.lt_of_lt_of_le hlt h.stop_le) hn hn'
    rw [markOf_mark]
    simp only [hiff]
    by_cases heq : n = next
    · rw [if_pos heq]
      exact ⟨fun hempty => Mark.noConfusion hempty, fun hready => by omega⟩
    · rw [if_neg heq, h.ready n hn hn']
      exact and_congr_left fun _ => by omega

/-- The head moves over one cleared cell. -/
theorem Holds.pop (h : r.Holds next q) (hlt : q.first < q.stop) (hnext : q.first < next) :
    (r.setHead (q.first + 1)).Holds next q.pop where
  head_eq := (Queue.first_pop hlt).symm
  tail_eq := h.tail_eq.trans (Queue.stop_pop hlt).symm
  length_le := by
    obtain ⟨c, cells, hq⟩ := Queue.exists_cons hlt
    have := h.length_le
    rw [hq, List.length_cons] at this
    rw [Queue.pop_eq hq]
    exact Nat.le_of_succ_le this
  slot := by
    intro n hn hn'
    rw [Queue.first_pop hlt] at hn hn'
    rw [slotOf_setHead, Queue.contentAt_pop hlt h.length_le (by omega) (by omega)]
    split
    · next heq =>
      rw [heq, slotOf_congr r (cap.indexOf_add_size q.first)]
      exact h.slot q.first (Nat.le_refl _) (Nat.lt_add_of_pos_right cap.size_pos)
    · exact h.slot n (by omega) (by omega)
  ready := by
    intro n hn hn'
    rw [Queue.first_pop hlt] at hn hn'
    rw [markOf_setHead, Queue.committedAt_pop hlt (by omega)]
    by_cases heq : n = q.first + cap.size
    · have hfirst := h.ready q.first (Nat.le_refl _) (Nat.lt_add_of_pos_right cap.size_pos)
      rw [heq, markOf_congr r (cap.indexOf_add_size q.first), hfirst]
      constructor
      · intro hready
        omega
      · intro hready
        have := Queue.lt_stop_of_committedAt hready.2
        have := h.stop_le
        omega
    · exact h.ready n (by omega) (by omega)

/-- The head moves over the cleared cells at the end of a read. -/
theorem Holds.drop {n : Nat} (h : r.Holds next q) (hn : q.first + n ≤ q.stop)
    (hnext : q.first + n ≤ next) : (r.setHead (q.first + n)).Holds next (q.drop n) := by
  induction n generalizing r q with
  | zero =>
    have hsame : r.setHead q.first = r := by rw [← h.head_eq]; rfl
    show (r.setHead q.first).Holds next q
    rw [hsame]
    exact h
  | succ n ih =>
    have hlt : q.first < q.stop := by omega
    have hfirst := Queue.first_pop hlt
    have hrest := ih (h.pop hlt (by omega)) (by rw [hfirst, Queue.stop_pop hlt]; omega)
      (by omega)
    have hsum : q.pop.first + n = q.first + (n + 1) := by omega
    rw [hsum] at hrest
    exact hrest

/-- A read that was cut short leaves the marks cleared and the cells where they were. -/
theorem Holds.spoil {n : Nat} (h : r.Holds (q.first + n) q) : r.Holds q.first (q.spoil n) where
  head_eq := h.head_eq
  tail_eq := h.tail_eq.trans (Queue.stop_spoil ..).symm
  length_le := by simpa [Queue.spoil] using h.length_le
  slot := by
    intro seq hle hlt
    rw [Queue.contentAt_spoil]
    exact h.slot seq hle hlt
  ready := by
    intro seq hle hlt
    rw [Queue.committedAt_spoil, h.ready seq hle hlt, Bool.and_eq_true, decide_eq_true_eq]
    exact ⟨fun hr => ⟨hle, hr.2, hr.1⟩, fun hr => ⟨hr.2.2, hr.2.1⟩⟩

end Ring

/-! ## Guards -/

theorem Handles.mem_of_guard? {h : Handles} {id : Nat} {g : Guard} (hg : h.guard? id = some g) :
    g ∈ h.guards ∧ g.id = id := by
  refine ⟨List.mem_of_find?_eq_some hg, ?_⟩
  simpa using List.find?_some hg

namespace SplitQueue

variable {kind : Kind} {cap : Capacity} {α : Type} {q q' : Queue cap α} {h h' : Handles}

/-- Every guard holds a cell of its own that is not committed. -/
structure Guarded (q : Queue cap α) (h : Handles) : Prop where
  held : ∀ g ∈ h.guards, q.first ≤ g.seq ∧ g.seq < q.stop ∧ q.committedAt g.seq = false
  nodup : (h.guards.map (·.seq)).Nodup

theorem Guarded.forget (hg : Guarded q h) (hsub : h'.guards.Sublist h.guards) : Guarded q h' where
  held := fun g hmem => hg.held g (hsub.subset hmem)
  nodup := hg.nodup.sublist (hsub.map _)

/-- The guards stay good when cells are added or written, and when a cell that none of
them holds is committed. -/
theorem Guarded.grow (hg : Guarded q h) (hgrows : q.Grows q')
    (hopen : ∀ g ∈ h.guards, q'.committedAt g.seq = q.committedAt g.seq) : Guarded q' h where
  held := by
    intro g hmem
    obtain ⟨hle, hlt, huncommitted⟩ := hg.held g hmem
    rw [hgrows.first_eq, hopen g hmem]
    exact ⟨hle, Nat.lt_of_lt_of_le hlt hgrows.stop_le, huncommitted⟩
  nodup := hg.nodup

theorem Guarded.push (hg : Guarded q h) : Guarded q.push h :=
  hg.grow q.grows_push fun g _ => q.committedAt_push g.seq

theorem Guarded.ne_stop (hg : Guarded q h) {g : Guard} (hmem : g ∈ h.guards) : g.seq ≠ q.stop :=
  Nat.ne_of_lt (hg.held g hmem).2.1

theorem Guarded.addGuard (hg : Guarded q h) (p : Nat) :
    Guarded q.push (h.addGuard p q.stop).2 where
  held := by
    intro g hmem
    rcases List.mem_append.1 hmem with hold | hnew
    · exact hg.push.held g hold
    · obtain rfl := List.mem_singleton.1 hnew
      refine ⟨Nat.le_add_right .., ?_, ?_⟩
      · rw [Queue.stop_push]
        exact Nat.lt_succ_self _
      · rw [Queue.committedAt_push]
        exact q.committedAt_stop
  nodup := by
    show ((h.guards ++ [_]).map _).Nodup
    rw [List.map_append, List.nodup_append]
    refine ⟨hg.nodup, List.nodup_singleton _, ?_⟩
    intro seq hold n hnew
    obtain ⟨g, hmem, rfl⟩ := List.mem_map.1 hold
    obtain rfl := List.mem_singleton.1 hnew
    exact hg.ne_stop hmem

theorem Guarded.set (hg : Guarded q h) {seq : Nat} (hle : q.first ≤ seq) (x : α) :
    Guarded (q.set seq x) h :=
  hg.grow (Queue.grows_set hle x) fun g _ => Queue.committedAt_set hle x g.seq

theorem Guarded.commit (hg : Guarded q h) {seq : Nat} (hle : q.first ≤ seq) (hlt : seq < q.stop)
    (hfree : ∀ g ∈ h.guards, g.seq ≠ seq) : Guarded (q.commit seq) h :=
  hg.grow (Queue.grows_commit hle hlt) fun g hmem => by
    rw [Queue.committedAt_commit hle hlt, if_neg (hfree g hmem)]

theorem Guarded.dropGuard (hg : Guarded q h) (id : Nat) : Guarded q (h.dropGuard id) :=
  hg.forget List.filter_sublist

/-- Once a guard is gone, no guard holds its cell. -/
theorem Guarded.free_of_dropGuard (hg : Guarded q h) {id : Nat} {g : Guard}
    (hid : h.guard? id = some g) : ∀ other ∈ (h.dropGuard id).guards, other.seq ≠ g.seq := by
  intro other hother heq
  obtain ⟨hmem, hne⟩ := List.mem_filter.1 hother
  obtain ⟨hg', hgid⟩ := Handles.mem_of_guard? hid
  have hsame : other = g := List.inj_on_of_nodup_map hg.nodup hmem hg' heq
  rw [hsame, hgid] at hne
  simp at hne

theorem Guarded.drop (hg : Guarded q h) {n : Nat} (hn : q.first + n ≤ q.stop)
    (hvisited : ∀ seq, q.first ≤ seq → seq < q.first + n → q.committedAt seq = true) :
    Guarded (q.drop n) h where
  held := by
    intro g hmem
    obtain ⟨hle, hlt, hopen⟩ := hg.held g hmem
    have hge : q.first + n ≤ g.seq := Nat.le_of_not_lt fun hlt' => by
      rw [hvisited g.seq hle hlt'] at hopen
      exact Bool.noConfusion hopen
    rw [Queue.first_drop hn, Queue.stop_drop hn, Queue.committedAt_drop hn hge]
    exact ⟨hge, hlt, hopen⟩
  nodup := hg.nodup

theorem Guarded.spoil (hg : Guarded q h) (n : Nat) : Guarded (q.spoil n) h where
  held := by
    intro g hmem
    obtain ⟨hle, hlt, hopen⟩ := hg.held g hmem
    refine ⟨hle, ?_, ?_⟩
    · rw [Queue.stop_spoil]
      exact hlt
    · rw [Queue.committedAt_spoil, hopen, Bool.false_and]
  nodup := hg.nodup

/-! ## Operations -/

variable {r r' : Ring kind cap α} {next : Nat} {s : SplitQueue cap α}

/-- A ring and its handles agree with a queue, in the middle of a read that has cleared
the marks below `next`. -/
structure Agrees (r : Ring kind cap α) (next : Nat) (s : SplitQueue cap α) : Prop where
  holds : r.Holds next s.queue
  visited : ∀ seq, s.queue.first ≤ seq → seq < next → s.queue.committedAt seq = true
  guarded : Guarded s.queue s.handles

theorem Agrees.grow (ha : Agrees r next ⟨q, h⟩) (hgrows : q.Grows q') (hholds : r'.Holds next q')
    (hguarded : Guarded q' h') : Agrees r' next ⟨q', h'⟩ where
  holds := hholds
  visited := fun seq hle hlt =>
    hgrows.committed seq (ha.visited seq (hgrows.first_eq ▸ hle) hlt)
  guarded := hguarded

/-- A cell that is not committed has not been visited. -/
theorem Agrees.next_le (ha : Agrees r next s) {seq : Nat} (hle : s.queue.first ≤ seq)
    (hopen : s.queue.committedAt seq = false) : next ≤ seq :=
  Nat.le_of_not_lt fun hlt => by
    rw [ha.visited seq hle hlt] at hopen
    exact Bool.noConfusion hopen

/-- An operation on the ring does what it does on the queue. -/
def Follows (r : Ring kind cap α) (next : Nat) (s : SplitQueue cap α) (o : Op α) : Prop :=
  ∃ reply r' s', Buffer.performSplit s.handles r o = (reply, r', s'.handles) ∧
    s.perform kind o = (reply, s') ∧ Agrees r' next s' ∧ s.queue.Grows s'.queue

theorem Agrees.claim (ha : Agrees r next ⟨q, h⟩) (p : Nat) :
    Follows r next ⟨q, h⟩ (.claim p) := by
  unfold Follows
  by_cases hp : p ∈ h.producers
  · simp only [Buffer.performSplit, SplitQueue.perform, if_pos hp]
    rcases ha.holds.tryClaim with ⟨hring, hqueue⟩ | ⟨r', hring, hqueue, hholds, hslot⟩
    · rw [hring, hqueue]
      exact ⟨_, _, _, rfl, rfl, ha, .refl q⟩
    · have ha' := ha.grow q.grows_push hholds (ha.guarded.addGuard p)
      rw [hring, hqueue]
      refine ⟨_, _, _, rfl, ?_, ha', q.grows_push⟩
      rw [hslot]
      rfl
  · simp only [Buffer.performSplit, SplitQueue.perform, if_neg hp]
    exact ⟨_, _, _, rfl, rfl, ha, .refl q⟩

/-- Writing and committing a cell that was just claimed and that no guard holds. -/
theorem Agrees.fill (ha : Agrees r next ⟨q, h⟩) (hholds : r'.Holds next q.push) (x : α) :
    let i := cap.indexOf q.stop
    let q' := (q.push.set q.stop x).commit q.stop
    Agrees ((r'.write i x).commit i) next ⟨q', h⟩ ∧ q.Grows q' := by
  intro i q'
  have hle : q.push.first ≤ q.stop := Nat.le_add_right ..
  have hlt : q.stop < q.push.stop := by rw [Queue.stop_push]; exact Nat.lt_succ_self _
  have hlt' : q.stop < (q.push.set q.stop x).stop := by rwa [Queue.stop_set]
  have hnext : next ≤ q.stop := ha.next_le hle (Queue.committedAt_stop q)
  have hgrows : q.Grows q' :=
    (q.grows_push.trans (Queue.grows_set hle x)).trans (Queue.grows_commit hle hlt')
  have hguarded : Guarded q' h :=
    (ha.guarded.push.set hle x).commit hle hlt' fun g hmem => ha.guarded.ne_stop hmem
  exact ⟨ha.grow hgrows ((hholds.write hle hlt x).commit hle hlt' hnext) hguarded, hgrows⟩

theorem Agrees.publish (ha : Agrees r next ⟨q, h⟩) (x : α) (p : Nat) :
    Follows r next ⟨q, h⟩ (.publish x p) := by
  unfold Follows
  by_cases hp : p ∈ h.producers
  · simp only [Buffer.performSplit, SplitQueue.perform, if_pos hp]
    rcases ha.holds.tryClaim with ⟨hring, hqueue⟩ | ⟨r', hring, hqueue, hholds, -⟩
    · rw [hring, hqueue]
      exact ⟨_, _, _, rfl, rfl, ha, .refl q⟩
    · obtain ⟨ha', hgrows⟩ := ha.fill hholds x
      rw [hring, hqueue]
      exact ⟨_, _, _, rfl, rfl, ha', hgrows⟩
  · simp only [Buffer.performSplit, SplitQueue.perform, if_neg hp]
    exact ⟨_, _, _, rfl, rfl, ha, .refl q⟩

theorem Agrees.set (ha : Agrees r next ⟨q, h⟩) (id : Nat) (x : α) :
    Follows r next ⟨q, h⟩ (.set id x) := by
  unfold Follows
  simp only [Buffer.performSplit, SplitQueue.perform]
  cases hid : h.guard? id with
  | none => exact ⟨_, _, _, rfl, rfl, ha, .refl q⟩
  | some g =>
    obtain ⟨hle, hlt, -⟩ := ha.guarded.held g (Handles.mem_of_guard? hid).1
    have hgrows := Queue.grows_set hle x
    have ha' := ha.grow hgrows (ha.holds.write hle hlt x) (ha.guarded.set hle x)
    exact ⟨_, _, _, rfl, rfl, ha', hgrows⟩

theorem Agrees.get (ha : Agrees r next ⟨q, h⟩) (id : Nat) :
    Follows r next ⟨q, h⟩ (.get id) := by
  unfold Follows
  simp only [Buffer.performSplit, SplitQueue.perform]
  cases hid : h.guard? id with
  | none => exact ⟨_, _, _, rfl, rfl, ha, .refl q⟩
  | some g =>
    obtain ⟨hle, hlt, -⟩ := ha.guarded.held g (Handles.mem_of_guard? hid).1
    have hlap : g.seq < q.first + cap.size := Nat.lt_of_lt_of_le hlt ha.holds.stop_le
    refine ⟨_, _, _, rfl, ?_, ha, .refl q⟩
    rw [ha.holds.slot g.seq hle hlap]

theorem Agrees.commit (ha : Agrees r next ⟨q, h⟩) (id : Nat) :
    Follows r next ⟨q, h⟩ (.commit id) := by
  unfold Follows
  simp only [Buffer.performSplit, SplitQueue.perform]
  cases hid : h.guard? id with
  | none => exact ⟨_, _, _, rfl, rfl, ha, .refl q⟩
  | some g =>
    obtain ⟨hle, hlt, hopen⟩ := ha.guarded.held g (Handles.mem_of_guard? hid).1
    have hgrows := Queue.grows_commit hle hlt
    have hfree := ha.guarded.free_of_dropGuard hid
    have hguarded := (ha.guarded.dropGuard id).commit hle hlt hfree
    have hholds := ha.holds.commit hle hlt (ha.next_le hle hopen)
    exact ⟨_, _, _, rfl, rfl, ha.grow hgrows hholds hguarded, hgrows⟩

theorem Agrees.abandon (ha : Agrees r next ⟨q, h⟩) (id : Nat) :
    Follows r next ⟨q, h⟩ (.abandon id) := by
  unfold Follows
  simp only [Buffer.performSplit, SplitQueue.perform]
  cases hid : h.guard? id with
  | none => exact ⟨_, _, _, rfl, rfl, ha, .refl q⟩
  | some g =>
    have ha' := ha.grow (.refl q) ha.holds (ha.guarded.dropGuard id)
    exact ⟨_, _, _, rfl, rfl, ha', .refl q⟩

theorem Agrees.perform (ha : Agrees r next s) (o : Op α) : Follows r next s o := by
  obtain ⟨q, h⟩ := s
  cases o with
  | claim p => exact ha.claim p
  | publish x p => exact ha.publish x p
  | set id x => exact ha.set id x
  | get id => exact ha.get id
  | commit id => exact ha.commit id
  | abandon id => exact ha.abandon id
  | clone p =>
    unfold Follows
    by_cases hp : kind = .manyProducers ∧ p ∈ h.producers
    · simp only [Buffer.performSplit, SplitQueue.perform, if_pos hp]
      have hg : Guarded q h.addProducer.2 := ha.guarded.forget (.refl _)
      exact ⟨_, _, _, rfl, rfl, ha.grow (.refl q) ha.holds hg, .refl q⟩
    · simp only [Buffer.performSplit, SplitQueue.perform, if_neg hp]
      exact ⟨_, _, _, rfl, rfl, ha, .refl q⟩
  | dropProducer p =>
    unfold Follows
    by_cases hp : p ∈ h.producers
    · simp only [Buffer.performSplit, SplitQueue.perform, if_pos hp]
      have hg : Guarded q (h.dropProducer p) := ha.guarded.forget List.filter_sublist
      exact ⟨_, _, _, rfl, rfl, ha.grow (.refl q) ha.holds hg, .refl q⟩
    · simp only [Buffer.performSplit, SplitQueue.perform, if_neg hp]
      exact ⟨_, _, _, rfl, rfl, ha, .refl q⟩
  | producerInfo p =>
    unfold Follows
    by_cases hp : p ∈ h.producers
    · simp only [Buffer.performSplit, SplitQueue.perform, if_pos hp]
      refine ⟨_, _, _, rfl, ?_, ha, .refl q⟩
      rw [Ring.len, ha.holds.distance_eq]
    · simp only [Buffer.performSplit, SplitQueue.perform, if_neg hp]
      exact ⟨_, _, _, rfl, rfl, ha, .refl q⟩
  | tryClaim | write | peek | commitIndex | dump => exact ⟨_, _, _, rfl, rfl, ha, .refl q⟩

/-! ## Reads -/

/-- No operation through a handle fails, so a callback only fails of its own accord. -/
theorem isFailure_perform (kind : Kind) (s : SplitQueue cap α) (o : Op α) :
    (s.perform kind o).1.isFailure = false := by
  unfold SplitQueue.perform
  split <;> repeat' split
  all_goals rfl

/-- The steps of a callback do to the ring what they do to the queue. -/
theorem Agrees.runSteps (ha : Agrees r next s) (position : Nat) (steps : List (HookStep α))
    (deliveries : List (Ring.Delivery α)) (replies : List (Nat × Reply α)) :
    ∃ returned new r' s', s.runSteps kind steps = (returned, new, s') ∧
      Buffer.runSteps position steps r ⟨some s.handles, deliveries, replies⟩ =
        (returned, r', ⟨some s'.handles, deliveries,
          (new.map (position, ·)).reverse ++ replies⟩) ∧
      Agrees r' next s' ∧ s.queue.Grows s'.queue := by
  induction steps generalizing r s replies with
  | nil => exact ⟨true, [], r, s, rfl, rfl, ha, .refl _⟩
  | cons step steps ih =>
    cases step with
    | fail => exact ⟨false, [], r, s, rfl, rfl, ha, .refl _⟩
    | op o =>
      obtain ⟨reply, r₁, s₁, hring, hqueue, ha₁, hgrows₁⟩ := ha.perform o
      obtain ⟨returned, new, r', s', hsteps, hring', ha', hgrows⟩ :=
        ih ha₁ ((position, reply) :: replies)
      have hok : reply.isFailure = false := by
        have := isFailure_perform kind s o
        rwa [hqueue] at this
      refine ⟨returned, reply :: new, r', s', ?_, ?_, ha', hgrows₁.trans hgrows⟩
      · simp only [SplitQueue.runSteps, hqueue, hsteps]
      · simp only [Buffer.runSteps, Buffer.perform, hring, hok, Bool.false_eq_true, if_false,
          hring', List.map_cons, List.reverse_cons, List.append_assoc, List.singleton_append]

/-- The cells that a read visited go. -/
theorem Agrees.drop {count : Nat} (ha : Agrees r (q.first + count) ⟨q, h⟩)
    (hcount : q.first + count ≤ q.stop) :
    Agrees (r.setHead (q.first + count)) (q.drop count).first ⟨q.drop count, h⟩ where
  holds := by
    rw [Queue.first_drop hcount]
    exact ha.holds.drop hcount (Nat.le_refl _)
  visited := fun _ hle hlt => absurd hle (Nat.not_le_of_lt hlt)
  guarded := ha.guarded.drop hcount ha.visited

theorem Agrees.spoil {count : Nat} (ha : Agrees r (q.first + count) ⟨q, h⟩) :
    Agrees r q.first ⟨q.spoil count, h⟩ where
  holds := ha.holds.spoil
  visited := fun _ hle hlt => absurd hle (Nat.not_le_of_lt hlt)
  guarded := ha.guarded.spoil count

/-- The mark of the cell that was visited last is cleared. -/
theorem Agrees.clear (ha : Agrees r next s) (hle : s.queue.first ≤ next)
    (hcommitted : s.queue.committedAt next = true) :
    Agrees (r.mark (cap.indexOf next) .empty) (next + 1) s where
  holds := ha.holds.clear hle (Queue.lt_stop_of_committedAt hcommitted)
  visited := by
    intro seq hseq hlt
    rcases Nat.eq_or_lt_of_le (Nat.le_of_lt_succ hlt) with heq | hlt
    · rw [heq]
      exact hcommitted
    · exact ha.visited seq hseq hlt
  guarded := ha.guarded

theorem readFrom_stop {hooks : Hooks α} {left count : Nat}
    (hopen : ∀ x, q.cells[count]? ≠ some ⟨x, true⟩) :
    readFrom kind hooks (left + 1) count ⟨q, h⟩ =
      (⟨.finished count, [], []⟩, ⟨q.drop count, h⟩) := by
  rw [readFrom]
  split
  · next x hx => exact absurd hx (hopen x)
  · rfl

/-- Once its callback has returned, the message is passed by clearing its mark. -/
theorem Agrees.pass {count : Nat} (ha : Agrees r (q'.first + count) ⟨q', h⟩)
    (hgrows : q.Grows q') (hcommitted : q.committedAt (q.first + count) = true) :
    q'.first + (count + 1) ≤ q'.stop ∧
      Agrees (r.mark (cap.indexOf (q'.first + count)) .empty) (q'.first + (count + 1))
        ⟨q', h⟩ := by
  have hcommitted' : q'.committedAt (q'.first + count) = true := by
    rw [hgrows.first_eq]
    exact hgrows.committed _ hcommitted
  exact ⟨Queue.lt_stop_of_committedAt hcommitted', ha.clear (Nat.le_add_right ..) hcommitted'⟩

/-- A read that is at the cell `count` goes on in the ring as it does in the queue. -/
theorem Agrees.readFrom (hooks : Hooks α) (left : Nat) {count : Nat}
    (ha : Agrees r (s.queue.first + count) s) (hcount : s.queue.first + count ≤ s.queue.stop)
    (hlap : count + left ≤ cap.size) (deliveries : List (Ring.Delivery α))
    (replies : List (Nat × Reply α)) :
    ∃ report r' s', s.readFrom kind hooks left count = (report, s') ∧
      Ring.scan (Buffer.hooked hooks) s.queue.first left count r
          ⟨some s.handles, deliveries, replies⟩ =
        (report.ending, r', ⟨some s'.handles, report.deliveries.reverse ++ deliveries,
          report.replies.reverse ++ replies⟩) ∧
      Agrees r' s'.queue.first s' := by
  induction left generalizing r s count deliveries replies with
  | zero => exact ⟨_, _, _, rfl, rfl, ha.drop hcount⟩
  | succ left ih =>
    obtain ⟨q, h⟩ := s
    have hlt : q.first + count < q.first + cap.size := by omega
    have hready := ha.holds.ready (q.first + count) (Nat.le_add_right ..) hlt
    rw [Ring.scan]
    by_cases hmark : r.markOf (q.first + count) = .ready
    · obtain ⟨x, hx⟩ := Queue.committedAt_first_add.1 (hready.1 hmark).2
      have hslot : r.slotOf (q.first + count) = x := by
        rw [ha.holds.slot _ (Nat.le_add_right ..) hlt, Queue.contentAt_first_add hx]
      obtain ⟨returned, new, r₁, ⟨q₁, h₁⟩, hqueue, hring, ha₁, hgrows⟩ :=
        ha.runSteps count (hooks.at count) (⟨count, q.first + count, x⟩ :: deliveries) replies
      have hfirst : q₁.first = q.first := hgrows.first_eq
      rw [← hfirst] at ha₁
      rw [if_pos hmark, hslot]
      simp only [Buffer.hooked, hring]
      cases returned with
      | false =>
        refine ⟨⟨.failed count, [⟨count, q.first + count, x⟩], new.map (count, ·)⟩, r₁,
          ⟨q₁.spoil count, h₁⟩, ?_, rfl, ha₁.spoil⟩
        simp only [SplitQueue.readFrom, hx, hqueue]
      | true =>
        obtain ⟨hstop, ha₂⟩ := ha₁.pass hgrows (hready.1 hmark).2
        obtain ⟨report, r', s', hrest, hscan, ha'⟩ := ih (s := ⟨q₁, h₁⟩) ha₂ hstop (by omega)
          (⟨count, q.first + count, x⟩ :: deliveries) ((new.map (count, ·)).reverse ++ replies)
        refine ⟨⟨report.ending, ⟨count, q.first + count, x⟩ :: report.deliveries,
          new.map (count, ·) ++ report.replies⟩, r', s', ?_, ?_, ha'⟩
        · simp only [SplitQueue.readFrom, hx, hqueue, hrest]
        · rw [hfirst] at hscan
          simp only [hscan, List.reverse_cons, List.reverse_append, List.append_assoc,
            List.singleton_append]
    · rw [if_neg hmark]
      refine ⟨⟨.finished count, [], []⟩, _, ⟨q.drop count, h⟩, ?_, rfl, ha.drop hcount⟩
      refine readFrom_stop fun x hx => hmark (hready.2 ⟨Nat.le_refl _, ?_⟩)
      exact Queue.committedAt_first_add.2 ⟨x, hx⟩

/-! ## Answers -/

/-- A buffer answers a request as the queue does. -/
theorem Agrees.serve (ha : Agrees r s.queue.first s) (use : Use α) :
    ∃ answer r' s', Buffer.serve ⟨r, some s.handles⟩ use.request =
        (answer, ⟨r', some s'.handles⟩) ∧
      s.serve kind use = (answer, s') ∧ Agrees r' s'.queue.first s' := by
  cases use with
  | op o =>
    obtain ⟨reply, r', s', hring, hqueue, ha', hgrows⟩ := ha.perform o
    refine ⟨.reply reply, r', s', ?_, ?_, hgrows.first_eq ▸ ha'⟩
    · simp only [Use.request, Buffer.serve, Buffer.perform, hring]
    · simp only [SplitQueue.serve, hqueue]
  | info =>
    refine ⟨_, r, s, rfl, ?_, ha⟩
    simp only [SplitQueue.serve, Ring.len, ha.holds.distance_eq]
  | read limit hooks =>
    have hlap : 0 + min limit s.queue.cells.length ≤ cap.size := by
      have := ha.holds.length_le
      omega
    obtain ⟨report, r', s', hqueue, hscan, ha'⟩ :=
      ha.readFrom hooks _ (Nat.le_add_right ..) hlap [] []
    have hread : r.readLimit (Buffer.hooked hooks) limit ⟨some s.handles, [], []⟩ =
        (report.ending, r', ⟨some s'.handles, report.deliveries.reverse ++ [],
          report.replies.reverse ++ []⟩) := by
      rw [Ring.readLimit, ha.holds.distance_eq, ha.holds.head_eq, Nat.min_comm]
      exact hscan
    refine ⟨.read report, r', s', ?_, ?_, ha'⟩
    · simp only [Use.request, Buffer.serve, Buffer.readHooked, hread, List.append_nil,
        List.reverse_reverse]
    · simp only [SplitQueue.serve, hqueue]

end SplitQueue

/-- The answers of a buffer to one request after another. -/
def Buffer.answers {kind : Kind} {cap : Capacity} {α : Type} :
    Buffer kind cap α → List (Buffer.Request α) → List (Answer α)
  | _, [] => []
  | b, request :: requests =>
    let (answer, b) := b.serve request
    answer :: b.answers requests

theorem SplitQueue.Agrees.answers {kind : Kind} {cap : Capacity} {α : Type}
    {r : Ring kind cap α} {s : SplitQueue cap α} (ha : Agrees r s.queue.first s)
    (uses : List (Use α)) :
    Buffer.answers ⟨r, some s.handles⟩ (uses.map Use.request) = s.answers kind uses := by
  induction uses generalizing r s with
  | nil => rfl
  | cons use uses ih =>
    obtain ⟨answer, r', s', hring, hqueue, ha'⟩ := ha.serve use
    simp only [List.map_cons, Buffer.answers, SplitQueue.answers, hring, hqueue, ih ha']

/-- Whatever the handles of a split buffer are used for, and whatever the callbacks of its
reads do in between, the buffer answers as the queue does, for either kind, every capacity
and all contents it may start with. -/
theorem answers_eq_queue (kind : Kind) {cap : Capacity} {α : Type}
    (contents : Vector α cap.size) (uses : List (Use α)) :
    (Buffer.ofRing (.ofSlots contents : Ring kind cap α)).split.2.answers
        (uses.map Use.request) =
      (SplitQueue.ofContents contents).answers kind uses := by
  have ha : SplitQueue.Agrees (.ofSlots contents : Ring kind cap α) 0 (.ofContents contents) :=
    ⟨Ring.holds_ofSlots contents, fun seq _ hlt => absurd hlt (Nat.not_lt_zero seq),
      ⟨fun g hg => absurd hg List.not_mem_nil, List.nodup_nil⟩⟩
  exact SplitQueue.Agrees.answers (s := .ofContents contents) ha uses

end RingTransport
