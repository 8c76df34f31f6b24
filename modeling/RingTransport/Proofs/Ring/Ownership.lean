/-
  Who may touch which slot of a ring. A claim is live from the access that moves the tail
  over its number until it is committed or given up, and a live claim owns the slot its
  number falls on. `Owned` says so of the counters, the marks and the live claims, and
  `ReadSound` of a read that is under way; the lemmas here say which accesses keep them.
  Main facts: no two live claims share a slot (`Owned.nodup_indexOf`), and the head may
  move over numbers that are neither ready nor live (`Owned.publish`).

  Which accesses the threads around a ring really make is the subject of `Interleaving`.
-/
import Mathlib.Data.List.Nodup
import RingTransport.Ring.Threads

namespace RingTransport

open scoped List

/-! ## Live claims -/

/-- The claims of a producer thread that moved the tail and are neither committed nor
given up. -/
def ProducerThread.live (t : ProducerThread) : List Nat :=
  match t.call with
  | some (.claiming (.won seq)) => seq :: t.held
  | _ => t.held

/-- The live claims of all producer threads. -/
def liveOf (ps : List ProducerThread) : List Nat := ps.flatMap ProducerThread.live

/-- Replacing one thread replaces its share of the live claims. -/
theorem liveOf_set {ps : List ProducerThread} {p : Nat} {t : ProducerThread}
    (h : ps[p]? = some t) :
    ∃ before after, liveOf ps = before ++ (t.live ++ after) ∧
      ∀ t', liveOf (ps.set p t') = before ++ (t'.live ++ after) := by
  induction ps generalizing p with
  | nil => simp at h
  | cons u ps ih =>
    cases p with
    | zero =>
      obtain rfl : u = t := by simpa using h
      exact ⟨[], liveOf ps, rfl, fun t' => rfl⟩
    | succ p =>
      obtain ⟨before, after, hps, hset⟩ := ih (by simpa using h)
      refine ⟨u.live ++ before, after, ?_, fun t' => ?_⟩
      · rw [List.append_assoc, ← hps]; rfl
      · rw [List.append_assoc, ← hset t']; rfl

theorem liveOf_set_same {ps : List ProducerThread} {p : Nat} {t t' : ProducerThread}
    (h : ps[p]? = some t) (ht : t'.live = t.live) : liveOf (ps.set p t') = liveOf ps := by
  obtain ⟨before, after, hps, hset⟩ := liveOf_set h
  rw [hset, ht, hps]

theorem liveOf_set_cons {ps : List ProducerThread} {p seq : Nat} {t t' : ProducerThread}
    (h : ps[p]? = some t) (ht : t'.live = seq :: t.live) :
    (liveOf (ps.set p t')).Perm (seq :: liveOf ps) := by
  obtain ⟨before, after, hps, hset⟩ := liveOf_set h
  rw [hset, ht, hps]
  exact List.perm_middle

theorem liveOf_set_erase {ps : List ProducerThread} {p seq : Nat} {t t' : ProducerThread}
    (h : ps[p]? = some t) (hseq : seq ∈ t.live) (ht : t'.live = t.live.erase seq) :
    (liveOf (ps.set p t')).Perm ((liveOf ps).erase seq) := by
  obtain ⟨before, after, hps, hset⟩ := liveOf_set h
  have hmem : seq ∈ liveOf ps := by rw [hps]; simp [hseq]
  have htake : t.live.Perm (seq :: t'.live) := ht ▸ List.perm_cons_erase hseq
  refine List.Perm.cons_inv (a := seq) ?_
  calc seq :: liveOf (ps.set p t')
      = seq :: (before ++ (t'.live ++ after)) := by rw [hset]
    _ ~ before ++ (seq :: t'.live ++ after) := List.perm_middle.symm
    _ ~ before ++ (t.live ++ after) := (htake.symm.append_right _).append_left _
    _ = liveOf ps := hps.symm
    _ ~ seq :: (liveOf ps).erase seq := List.perm_cons_erase hmem

theorem mem_liveOf {ps : List ProducerThread} {p seq : Nat} {t : ProducerThread}
    (h : ps[p]? = some t) (hseq : seq ∈ t.live) : seq ∈ liveOf ps :=
  List.mem_flatMap.2 ⟨t, List.mem_of_getElem? h, hseq⟩

namespace Ring

variable {kind : Kind} {cap : Capacity} {α : Type} {r r' : Ring kind cap α} {live live' : List Nat}

/-! ## Slots of live claims -/

/-- What holds of the counters, the marks and the live claims between any two steps. The
numbers from the head on for one lap fall on all the slots, each on its own. -/
structure Owned (r : Ring kind cap α) (live : List Nat) : Prop where
  head_le_tail : r.head ≤ r.tail
  tail_le_lap : r.tail ≤ r.head + cap.size
  nodup : live.Nodup
  head_le : ∀ seq ∈ live, r.head ≤ seq
  lt_tail : ∀ seq ∈ live, seq < r.tail
  /-- Only a slot whose claim was taken and is live no more is ready. -/
  ready : ∀ seq, r.head ≤ seq → seq < r.head + cap.size → r.markOf seq = .ready →
    seq < r.tail ∧ seq ∉ live

theorem Owned.lt_lap (h : Owned r live) {seq : Nat} (hseq : seq ∈ live) :
    seq < r.head + cap.size :=
  Nat.lt_of_lt_of_le (h.lt_tail seq hseq) h.tail_le_lap

/-- A number of the lap that is not a live claim shares its slot with none. -/
theorem Owned.indexOf_ne (h : Owned r live) {seq other : Nat} (hseq : seq ∈ live)
    (hother : other ∉ live) (hle : r.head ≤ other) (hlt : other < r.head + cap.size) :
    cap.indexOf seq ≠ cap.indexOf other := by
  intro heq
  have := cap.eq_of_indexOf_eq_of_lap (h.head_le seq hseq) (h.lt_lap hseq) hle hlt heq
  exact hother (this ▸ hseq)

/-- No two live claims share a slot. -/
theorem Owned.nodup_indexOf (h : Owned r live) : (live.map cap.indexOf).Nodup := by
  refine List.Nodup.map_on ?_ h.nodup
  intro s hs t ht heq
  exact cap.eq_of_indexOf_eq_of_lap (h.head_le s hs) (h.lt_lap hs) (h.head_le t ht)
    (h.lt_lap ht) heq

theorem ready_of_ready_mark {i : Fin cap.size} {m : Mark} {seq : Nat} (hm : m ≠ .ready)
    (h : (r.mark i m).markOf seq = .ready) : r.markOf seq = .ready := by
  rw [markOf_mark] at h
  split at h
  · exact absurd h hm
  · exact h

theorem owned_ofSlots (slots : Vector α cap.size) :
    Owned (ofSlots slots : Ring kind cap α) [] where
  head_le_tail := Nat.le_refl 0
  tail_le_lap := Nat.zero_le _
  nodup := List.nodup_nil
  head_le := by simp
  lt_tail := by simp
  ready := by
    intro seq _ _ hready
    simp [ofSlots, markOf] at hready

theorem Owned.perm (h : Owned r live) (hp : live ~ live') : Owned r live' where
  head_le_tail := h.head_le_tail
  tail_le_lap := h.tail_le_lap
  nodup := hp.nodup_iff.1 h.nodup
  head_le := fun seq hseq => h.head_le seq (hp.mem_iff.2 hseq)
  lt_tail := fun seq hseq => h.lt_tail seq (hp.mem_iff.2 hseq)
  ready := fun seq hle hlt hready =>
    ⟨(h.ready seq hle hlt hready).1, fun hseq => (h.ready seq hle hlt hready).2 (hp.mem_iff.2 hseq)⟩

/-- Taking the next number. -/
theorem Owned.take (h : Owned r live) (hroom : r.tail < r.head + cap.size) :
    Owned (r.setTail (r.tail + 1)) (r.tail :: live) where
  head_le_tail := Nat.le_succ_of_le h.head_le_tail
  tail_le_lap := hroom
  nodup := List.nodup_cons.2 ⟨fun hmem => Nat.lt_irrefl _ (h.lt_tail _ hmem), h.nodup⟩
  head_le := by
    intro seq hseq
    rcases List.mem_cons.1 hseq with rfl | hseq
    · exact h.head_le_tail
    · exact h.head_le seq hseq
  lt_tail := by
    intro seq hseq
    rcases List.mem_cons.1 hseq with rfl | hseq
    · exact Nat.lt_succ_self _
    · exact Nat.lt_succ_of_lt (h.lt_tail seq hseq)
  ready := by
    intro seq hle hlt hready
    obtain ⟨htail, hnot⟩ := h.ready seq hle hlt hready
    refine ⟨Nat.lt_succ_of_lt htail, fun hmem => ?_⟩
    rcases List.mem_cons.1 hmem with rfl | hmem
    · exact Nat.lt_irrefl _ htail
    · exact hnot hmem

/-- Marks that are not ready may be set anywhere. -/
theorem Owned.mark (h : Owned r live) (i : Fin cap.size) {m : Mark} (hm : m ≠ .ready) :
    Owned (r.mark i m) live :=
  { h with ready := fun seq hle hlt hready => h.ready seq hle hlt (ready_of_ready_mark hm hready) }

theorem Owned.write (h : Owned r live) (i : Fin cap.size) (x : α) : Owned (r.write i x) live :=
  { h with }

/-- Giving a claim up. -/
theorem Owned.erase (h : Owned r live) (seq : Nat) : Owned r (live.erase seq) where
  head_le_tail := h.head_le_tail
  tail_le_lap := h.tail_le_lap
  nodup := h.nodup.erase seq
  head_le := fun s hs => h.head_le s (List.mem_of_mem_erase hs)
  lt_tail := fun s hs => h.lt_tail s (List.mem_of_mem_erase hs)
  ready := fun s hle hlt hready =>
    ⟨(h.ready s hle hlt hready).1, fun hs => (h.ready s hle hlt hready).2 (List.mem_of_mem_erase hs)⟩

/-- Committing a live claim. -/
theorem Owned.commit (h : Owned r live) {seq : Nat} (hseq : seq ∈ live) :
    Owned (r.commit (cap.indexOf seq)) (live.erase seq) :=
  { h.erase seq with
    ready := by
      intro s hle hlt hready
      rw [markOf_commit] at hready
      split at hready
      next hindex =>
        obtain rfl := cap.eq_of_indexOf_eq_of_lap (h.head_le seq hseq) (h.lt_lap hseq) hle hlt hindex
        exact ⟨h.lt_tail _ hseq, h.nodup.not_mem_erase⟩
      next => exact (h.erase seq).ready s hle hlt hready }

/-- Moving the head over numbers that are neither ready nor live. -/
theorem Owned.publish (h : Owned r live) {n : Nat} (hle : r.head ≤ n) (hn : n ≤ r.tail)
    (hpassed : ∀ seq, r.head ≤ seq → seq < n → r.markOf seq ≠ .ready ∧ seq ∉ live) :
    Owned (r.setHead n) live where
  head_le_tail := hn
  tail_le_lap := Nat.le_trans h.tail_le_lap (Nat.add_le_add_right hle _)
  nodup := h.nodup
  head_le := by
    intro seq hseq
    refine Nat.le_of_not_lt fun hlt => ?_
    exact (hpassed seq (h.head_le seq hseq) hlt).2 hseq
  lt_tail := h.lt_tail
  ready := by
    intro seq hseq hlt hready
    rw [head_setHead] at hseq hlt
    rw [markOf_setHead] at hready
    by_cases hlap : seq < r.head + cap.size
    · exact h.ready seq (Nat.le_trans hle hseq) hlap hready
    · -- the number is new in the lap: its slot was passed one lap before
      obtain ⟨old, rfl⟩ : ∃ old, seq = old + cap.size := ⟨seq - cap.size, by omega⟩
      have hold := (hpassed old (by omega) (by omega)).1
      rw [r.markOf_congr (cap.indexOf_add_size old)] at hready
      exact absurd hready hold

/-! ## The reader -/

/-- A read that started at `start` has `count` messages behind it: the head is still at
`start`, and the numbers passed are neither ready nor live. -/
structure Passed (r : Ring kind cap α) (live : List Nat) (start count : Nat) : Prop where
  start_eq : start = r.head
  le_tail : start + count ≤ r.tail
  passed : ∀ seq, start ≤ seq → seq < start + count → r.markOf seq ≠ .ready ∧ seq ∉ live

/-- What holds between any two steps of a read. -/
def ReadSound (r : Ring kind cap α) (live : List Nat) : ReadStage → Prop
  | .start _ => True
  | .loaded start _ => start = r.head
  | .looking start count left => Passed r live start count ∧ 0 < left ∧ start + count + left ≤ r.tail
  | .handing start count left | .clearing start count left =>
    Passed r live start count ∧ 0 < left ∧ start + count + left ≤ r.tail ∧ start + count ∉ live
  | .leaving start count => Passed r live start count

theorem readSound_next {start count left : Nat} (h : Passed r live start count)
    (hleft : start + count + left ≤ r.tail) : ReadSound r live (.next start count left) := by
  cases left with
  | zero => exact h
  | succ left => exact ⟨h, Nat.succ_pos _, hleft⟩

/-- What steps of producers do to the numbers that are live no more: nothing. -/
structure Keeps (r : Ring kind cap α) (live : List Nat) (r' : Ring kind cap α)
    (live' : List Nat) : Prop where
  head_eq : r'.head = r.head
  tail_le : r.tail ≤ r'.tail
  not_live : ∀ seq, seq < r.tail → seq ∉ live → seq ∉ live'
  not_ready : ∀ seq, r.head ≤ seq → seq < r.tail → seq ∉ live → r.markOf seq ≠ .ready →
    r'.markOf seq ≠ .ready

theorem keeps_take : Keeps r live (r.setTail (r.tail + 1)) (r.tail :: live) where
  head_eq := rfl
  tail_le := Nat.le_succ _
  not_live := by
    intro seq hlt hnot hmem
    rcases List.mem_cons.1 hmem with rfl | hmem
    · exact Nat.lt_irrefl _ hlt
    · exact hnot hmem
  not_ready := fun _ _ _ _ hmark => hmark

theorem keeps_mark (i : Fin cap.size) {m : Mark} (hm : m ≠ .ready) :
    Keeps r live (r.mark i m) live where
  head_eq := rfl
  tail_le := Nat.le_refl _
  not_live := fun _ _ hnot => hnot
  not_ready := fun _ _ _ _ hmark hready => hmark (ready_of_ready_mark hm hready)

theorem keeps_write (i : Fin cap.size) (x : α) : Keeps r live (r.write i x) live :=
  ⟨rfl, Nat.le_refl _, fun _ _ hnot => hnot, fun _ _ _ _ hmark => hmark⟩

theorem keeps_erase (seq : Nat) : Keeps r live r (live.erase seq) where
  head_eq := rfl
  tail_le := Nat.le_refl _
  not_live := fun _ _ hnot hmem => hnot (List.mem_of_mem_erase hmem)
  not_ready := fun _ _ _ _ hmark => hmark

theorem keeps_commit (h : Owned r live) {seq : Nat} (hseq : seq ∈ live) :
    Keeps r live (r.commit (cap.indexOf seq)) (live.erase seq) where
  head_eq := rfl
  tail_le := Nat.le_refl _
  not_live := fun _ _ hnot hmem => hnot (List.mem_of_mem_erase hmem)
  not_ready := by
    intro other hle hlt hnot hmark
    have hlap : other < r.head + cap.size := Nat.lt_of_lt_of_le hlt h.tail_le_lap
    rw [markOf_commit, if_neg (h.indexOf_ne hseq hnot hle hlap)]
    exact hmark

theorem Passed.keep {start count : Nat} (h : Passed r live start count)
    (hk : Keeps r live r' live') : Passed r' live' start count where
  start_eq := h.start_eq.trans hk.head_eq.symm
  le_tail := Nat.le_trans h.le_tail hk.tail_le
  passed := by
    intro seq hle hlt
    have htail : seq < r.tail := Nat.lt_of_lt_of_le hlt h.le_tail
    obtain ⟨hmark, hnot⟩ := h.passed seq hle hlt
    exact ⟨hk.not_ready seq (h.start_eq ▸ hle) htail hnot hmark, hk.not_live seq htail hnot⟩

theorem ReadSound.keep {stage : ReadStage} (h : ReadSound r live stage)
    (hk : Keeps r live r' live') : ReadSound r' live' stage := by
  have htail := hk.tail_le
  cases stage with
  | start limit => trivial
  | loaded start limit => exact Eq.trans h hk.head_eq.symm
  | looking start count left =>
    obtain ⟨hp, hpos, hle⟩ := h
    exact ⟨hp.keep hk, hpos, by omega⟩
  | handing start count left | clearing start count left =>
    obtain ⟨hp, hpos, hle, hnot⟩ := h
    exact ⟨hp.keep hk, hpos, by omega, hk.not_live _ (by omega) hnot⟩
  | leaving start count => exact Passed.keep h hk

theorem ReadSound.perm {stage : ReadStage} (h : ReadSound r live stage) (hp : live ~ live') :
    ReadSound r live' stage :=
  h.keep ⟨rfl, Nat.le_refl _, fun _ _ hnot hmem => hnot (hp.mem_iff.2 hmem), fun _ _ _ _ hm => hm⟩

/-- What is reached from a stage of a read by its next access. -/
def ReadProgress.stage? : ReadProgress α → Option ReadStage
  | .going stage => some stage
  | .handed _ _ stage => some stage
  | .failed _ _ => none
  | .finished _ => none

@[simp] theorem tail_readAccess (fails : Bool) (stage : ReadStage) (r : Ring kind cap α) :
    (r.readAccess fails stage).2.tail = r.tail := by
  cases stage with
  | looking start count left => simp only [readAccess]; split <;> rfl
  | handing start count left => simp only [readAccess]; split <;> rfl
  | _ => rfl

/-- Only the last access of a read moves the head, and never back. -/
theorem head_le_readAccess {stage : ReadStage} (h : ReadSound r live stage) (fails : Bool) :
    r.head ≤ (r.readAccess fails stage).2.head := by
  cases stage with
  | looking start count left => simp only [readAccess]; split <;> exact Nat.le_refl _
  | handing start count left => simp only [readAccess]; split <;> exact Nat.le_refl _
  | leaving start count => exact Nat.le_trans (Nat.le_of_eq h.start_eq.symm) (Nat.le_add_right _ _)
  | _ => exact Nat.le_refl _

/-- Clearing the mark of the message that comes next passes it. -/
theorem Passed.clear {start count : Nat} (h : Passed r live start count)
    (hlt : start + count < r.tail) (hnot : start + count ∉ live) :
    Passed (r.mark (cap.indexOf (start + count)) .empty) live start (count + 1) where
  start_eq := h.start_eq
  le_tail := hlt
  passed := by
    intro seq hle hseq
    have hk : Keeps r live (r.mark (cap.indexOf (start + count)) .empty) live :=
      keeps_mark _ Mark.noConfusion
    rcases Nat.lt_or_eq_of_le (Nat.le_of_lt_succ hseq) with hbefore | rfl
    · exact (h.keep hk).passed seq hle hbefore
    · refine ⟨?_, hnot⟩
      show (r.mark (cap.indexOf (start + count)) .empty).markOf (start + count) ≠ .ready
      rw [markOf_mark, if_pos rfl]
      exact Mark.noConfusion

/-- The next access of a read keeps the slots of live claims and what holds of the read. -/
theorem Owned.readAccess (h : Owned r live) {stage : ReadStage} (hs : ReadSound r live stage)
    (fails : Bool) :
    Owned (r.readAccess fails stage).2 live ∧
      ∀ stage', (r.readAccess fails stage).1.stage? = some stage' →
        ReadSound (r.readAccess fails stage).2 live stage' := by
  cases stage with
  | start limit =>
    refine ⟨h, fun stage' hstage => ?_⟩
    obtain rfl := Option.some.inj hstage
    rfl
  | loaded start limit =>
    obtain rfl : start = r.head := hs
    refine ⟨h, fun stage' hstage => ?_⟩
    obtain rfl := Option.some.inj hstage
    have hle := h.head_le_tail
    refine readSound_next ⟨rfl, hle, fun seq hle hlt => by omega⟩ ?_
    show r.head + 0 + min (distance r.tail r.head) limit ≤ r.tail
    rw [distance_of_le hle]
    omega
  | looking start count left =>
    obtain ⟨hp, hpos, hle⟩ := hs
    by_cases hready : r.markOf (start + count) = .ready
    · simp only [Ring.readAccess, if_pos hready]
      refine ⟨h, fun stage' hstage => ?_⟩
      obtain rfl := Option.some.inj hstage
      have hlap := h.tail_le_lap
      have hstart := hp.start_eq
      exact ⟨hp, hpos, hle, (h.ready _ (by omega) (by omega) hready).2⟩
    · simp only [Ring.readAccess, if_neg hready]
      refine ⟨h, fun stage' hstage => ?_⟩
      obtain rfl := Option.some.inj hstage
      exact hp
  | handing start count left =>
    cases fails with
    | true => exact ⟨h, fun _ hstage => by cases hstage⟩
    | false =>
      refine ⟨h, fun stage' hstage => ?_⟩
      obtain rfl := Option.some.inj hstage
      exact hs
  | clearing start count left =>
    obtain ⟨hp, hpos, hle, hnot⟩ := hs
    refine ⟨h.mark _ Mark.noConfusion, fun stage' hstage => ?_⟩
    obtain rfl := Option.some.inj hstage
    refine readSound_next (hp.clear (by omega) hnot) ?_
    show start + (count + 1) + (left - 1) ≤ r.tail
    omega
  | leaving start count =>
    have hstart := hs.start_eq
    refine ⟨h.publish (by omega) hs.le_tail fun seq hle hlt => ?_, fun _ hstage => by cases hstage⟩
    exact hs.passed seq (by omega) hlt

end Ring

end RingTransport
