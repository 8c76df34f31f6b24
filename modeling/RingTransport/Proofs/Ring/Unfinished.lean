/-
  Numbers that were claimed and never finished. A number is `Ring.Unfinished` while it is claimed,
  not read, and its slot is not ready. Main facts: no read of a whole buffer gets to such a number,
  unless one of its own callbacks commits the slot (`Ring.Unfinished.blocks`); and a number that
  no guard holds besides stays so through operations, reads, splits and reunions, until the buffer
  is reset or a slot is committed by its number (`Buffer.Left.serve`).

  `DeadSlots` tells what makes such numbers while the buffer is split, and that they stay as long
  as it is; here the buffer may be made whole and split again.
-/
import RingTransport.Proofs.Ring.DeadSlots

namespace RingTransport

open RingTransport.Ring (Delivery ReadEnd)
open Buffer (Always Hooks HookStep Moment Request Lawful noteSteps noting)

variable {kind : Kind} {cap : Capacity} {α : Type}

/-! ## Claims that are left -/

/-- The number was claimed and is not read, and its slot is not ready. -/
structure Ring.Unfinished (r : Ring kind cap α) (seq : Nat) : Prop where
  head_le : r.head ≤ seq
  lt_tail : seq < r.tail
  unready : r.markOf seq ≠ .ready

/-- It is among the numbers from the head on that the length counts. -/
theorem Ring.Unfinished.counts {r : Ring kind cap α} {seq : Nat} (h : r.Unfinished seq) :
    seq < r.head + r.len := by
  have hle := h.head_le
  have hlt := h.lt_tail
  rw [Ring.len, distance_of_le (by omega)]
  omega

/-- Some callback has committed the slot of the number. -/
def CommittedIn (seq : Nat) (ms : List (Moment kind cap α)) : Prop :=
  ∃ before reply after, .op before (.commitIndex (seq % cap.size)) reply after ∈ ms

/-- A whole buffer in a read that has not got past an unfinished number. -/
structure Stopped (start seq next : Nat) (ms : List (Moment kind cap α)) (b : Buffer kind cap α) :
    Prop where
  whole : b.handles = none
  head_eq : b.ring.head = start
  next_le : next ≤ seq
  lt_tail : seq < b.ring.tail
  unready : b.ring.markOf seq ≠ .ready
  before : ∀ d ∈ ms.filterMap Moment.delivery?, d.seq < seq

section Stopped

variable {start seq next : Nat} {ms : List (Moment kind cap α)} {b : Buffer kind cap α}

theorem CommittedIn.append (h : CommittedIn seq ms) (more : List (Moment kind cap α)) :
    CommittedIn seq (ms ++ more) := by
  obtain ⟨before, reply, after, hm⟩ := h
  exact ⟨before, reply, after, List.mem_append_left _ hm⟩

theorem Stopped.hand (h : Stopped start seq next ms b) (hready : b.ring.markOf next = .ready)
    (d : Delivery α) (hd : d.seq = next) :
    next < seq ∧ Stopped start seq next (ms ++ [.handed d b]) b := by
  have hlt : next < seq := Nat.lt_of_le_of_ne h.next_le fun heq => h.unready (heq ▸ hready)
  refine ⟨hlt, h.whole, h.head_eq, h.next_le, h.lt_tail, h.unready, fun other hother => ?_⟩
  rw [List.filterMap_append] at hother
  rcases List.mem_append.1 hother with hold | hnew
  · exact h.before other hold
  · obtain rfl : other = d := List.mem_singleton.1 hnew
    rw [hd]
    exact hlt

theorem Stopped.perform (h : Stopped start seq next ms b) (o : Op α) :
    CommittedIn seq (ms ++ [.op b o (b.perform o).1 (b.perform o).2]) ∨
      Stopped start seq next (ms ++ [.op b o (b.perform o).1 (b.perform o).2]) (b.perform o).2 := by
  obtain ⟨r, handles⟩ := b
  obtain rfl : handles = none := h.whole
  obtain ⟨reply, r', hraw, heffect⟩ := performRaw_effect r o
  simp only [Buffer.perform, hraw]
  have hlt : seq < r.tail := h.lt_tail
  have hunready : r.markOf seq ≠ .ready := h.unready
  have hstill (hhead : r'.head = r.head) (htail : r.tail ≤ r'.tail)
      (hmark : r'.markOf seq ≠ .ready) : Stopped start seq next
        (ms ++ [.op ⟨r, none⟩ o reply ⟨r', none⟩]) ⟨r', none⟩ := by
    refine ⟨rfl, hhead.trans h.head_eq, h.next_le, Nat.lt_of_lt_of_le hlt htail, hmark,
      fun d hd => h.before d ?_⟩
    rw [List.filterMap_append] at hd
    exact (List.mem_append.1 hd).resolve_right List.not_mem_nil
  cases heffect with
  | commits i =>
    by_cases hi : i = cap.indexOf seq
    · have hval : i.val = seq % cap.size := by rw [hi, Capacity.indexOf_val]
      rw [hval]
      exact .inl ⟨_, _, _, List.mem_append_right _ (List.mem_singleton_self _)⟩
    · refine .inr (hstill rfl (Nat.le_refl _) ?_)
      rw [Ring.markOf_commit, if_neg hi]
      exact hunready
  | claims =>
    refine .inr (hstill (Ring.head_claimNext r) ?_
      fun hready => hunready (Ring.ready_of_claimNext hready))
    rw [Ring.tail_claimNext]
    exact Nat.le_succ _
  | full | writes | peeks | misses | dumps | misuses =>
    exact .inr (hstill rfl (Nat.le_refl _) hunready)

end Stopped

/-- No read of a whole buffer gets to an unfinished number, and the number stays unfinished,
unless one of the callbacks commits the slot of that number. -/
theorem Ring.Unfinished.blocks {r : Ring kind cap α} {seq : Nat} (h : r.Unfinished seq)
    (limit : Nat) (hooks : Hooks α) :
    let b := Buffer.ofRing r
    CommittedIn seq (b.insideRead limit hooks) ∨
      (b.readHooked limit hooks).2.ring.Unfinished seq ∧
        ∀ d ∈ (b.readHooked limit hooks).1.deliveries, d.seq < seq := by
  intro b
  have hinv : ReadInvariant r.head (min (distance r.tail r.head) limit)
      (fun count ms (other : Buffer kind cap α) => CommittedIn seq ms ∨
        Stopped r.head seq (r.head + count) ms other)
      (fun count ms other => CommittedIn seq ms ∨
        r.head + count < seq ∧ Stopped r.head seq (r.head + count) ms other) := by
    refine ⟨fun _ hstopped hready => ?_, fun o hstopped => ?_, fun hstopped => ?_⟩
    · rcases hstopped with hcommit | hstopped
      · exact .inl (hcommit.append _)
      · exact .inr (hstopped.hand hready _ rfl)
    · rcases hstopped with hcommit | ⟨hlt, hstopped⟩
      · exact .inl (hcommit.append _)
      · exact (hstopped.perform o).imp_right fun hstopped => ⟨hlt, hstopped⟩
    · rcases hstopped with hcommit | ⟨hlt, hstopped⟩
      · exact .inl hcommit
      · exact .inr ⟨hstopped.whole, hstopped.head_eq, hlt, hstopped.lt_tail,
          fun hready => hstopped.unready (Ring.ready_of_clear hready).2, hstopped.before⟩
  have hends := hinv.read (b := b) hooks
    (.inr ⟨rfl, rfl, h.head_le, h.lt_tail, h.unready, nofun⟩)
  have hdeliveries : (b.insideRead limit hooks).filterMap Moment.delivery? =
    (b.readHooked limit hooks).1.deliveries := (b.read_noting limit hooks).2.1
  generalize b.insideRead limit hooks = inside at hends hdeliveries ⊢
  generalize b.readHooked limit hooks = result at hends hdeliveries ⊢
  obtain ⟨⟨ending, deliveries, replies⟩, after⟩ := result
  rw [← hdeliveries]
  cases ending with
  | finished n =>
    obtain ⟨other, hring, hother⟩ := hends
    refine hother.imp_right fun hstopped => ⟨?_, hstopped.before⟩
    rw [hring]
    exact ⟨hstopped.next_le, hstopped.lt_tail, hstopped.unready⟩
  | failed k =>
    refine hends.imp_right fun ⟨_, hstopped⟩ => ⟨⟨?_, hstopped.lt_tail, hstopped.unready⟩,
      hstopped.before⟩
    rw [hstopped.head_eq]
    exact h.head_le

/-! ## Requests without raw commits -/

namespace Buffer

/-- The request asks for the operation, by itself or in a callback. -/
def Request.Asks (o : Op α) : Request α → Prop
  | .op other => other = o
  | .read _ hooks => ∃ position, .op o ∈ hooks.at position
  | _ => False

variable {before after : Buffer kind cap α} {o : Op α} {reply : Reply α}

theorem mem_noteSteps {steps : List (HookStep α)} {r : Ring kind cap α}
    {diary : Diary kind cap α}
    (hm : .op before o reply after ∈ (noteSteps steps r diary).2.2.moments) :
    .op before o reply after ∈ diary.moments ∨ .op o ∈ steps := by
  induction steps generalizing r diary with
  | nil => exact .inl hm
  | cons step steps ih =>
    cases step with
    | fail => exact .inl hm
    | op other =>
      obtain ⟨handles, moments⟩ := diary
      have hnew {ms : List (Moment kind cap α)} {b b' : Buffer kind cap α} {answer : Reply α}
          (hms : .op before o reply after ∈ ms ++ [.op b other answer b']) :
          .op before o reply after ∈ ms ∨ .op o ∈ HookStep.op other :: steps := by
        refine (List.mem_append.1 hms).imp_right fun hlast => ?_
        cases List.mem_singleton.1 hlast
        exact List.mem_cons_self ..
      simp only [noteSteps] at hm
      split at hm
      · exact hnew hm
      · rcases ih hm with hold | hstep
        · exact hnew hold
        · exact .inr (List.mem_cons_of_mem _ hstep)

theorem mem_scan_noting {hooks : Hooks α} {start left count : Nat} {r : Ring kind cap α}
    {diary : Diary kind cap α}
    (hm : .op before o reply after ∈
      (Ring.scan (noting hooks) start left count r diary).2.2.moments) :
    .op before o reply after ∈ diary.moments ∨ ∃ position, .op o ∈ hooks.at position := by
  induction left generalizing count r diary with
  | zero => exact .inl hm
  | succ left ih =>
    simp only [Ring.scan] at hm
    split at hm
    · have hcallback {returned : Bool} {r₁ : Ring kind cap α} {diary₁ : Diary kind cap α}
          (hnote : noting hooks ⟨count, start + count, r.slotOf (start + count)⟩ r diary =
            (returned, r₁, diary₁)) (hin : .op before o reply after ∈ diary₁.moments) :
          .op before o reply after ∈ diary.moments ∨ ∃ position, .op o ∈ hooks.at position := by
        have hdiary := congrArg (·.2.2.moments) hnote
        obtain ⟨handles, moments⟩ := diary
        rw [← show _ = diary₁.moments from hdiary] at hin
        rcases mem_noteSteps hin with hold | hstep
        · refine .inl ((List.mem_append.1 hold).resolve_right fun hlast => ?_)
          cases List.mem_singleton.1 hlast
        · exact .inr ⟨count, hstep⟩
      split at hm
      · next hnote => exact (ih hm).elim (hcallback hnote) .inr
      · next hnote => exact hcallback hnote hm
    · exact .inl hm

/-- The operations that a request comes to are those that it asks for. -/
theorem asks_of_mem {b : Buffer kind cap α} {request : Request α}
    (hm : .op before o reply after ∈ b.momentsOf request) : request.Asks o := by
  cases request with
  | op other =>
    cases List.mem_singleton.1 hm
    rfl
  | read limit hooks =>
    rcases List.mem_append.1 hm with hm | hlast
    · rcases List.mem_cons.1 hm with hfirst | hm
      · cases hfirst
      · exact (mem_scan_noting hm).resolve_left List.not_mem_nil
    · cases List.mem_singleton.1 hlast
  | reset | split | reunite | info => cases List.mem_singleton.1 hm

/-- Where no slot is committed by its number, all is lawful. -/
theorem always_lawful_of_no_commit {b : Buffer kind cap α} {request : Request α}
    (hno : ∀ i, ¬ request.Asks (.commitIndex i)) : Always Lawful (b.momentsOf request) := by
  intro earlier m later heq
  have hm : m ∈ b.momentsOf request := by
    rw [heq]
    exact List.mem_append_right _ (List.mem_cons_self ..)
  cases m with
  | op before o reply after =>
    obtain ⟨r, _ | h⟩ := before
    · cases o with
      | commitIndex i => exact absurd (asks_of_mem hm) (hno i)
      | _ => trivial
    · trivial
  | _ => trivial

/-! ## Numbers that nobody holds -/

/-- A number that was claimed and is not read, whose slot is not ready and that no guard holds. -/
def Left (b : Buffer kind cap α) (s : Nat) : Prop := b.ring.head ≤ s ∧ Deserted b.ring b.inUse s

variable {b : Buffer kind cap α} {s : Nat}

theorem Left.unfinished (h : b.Left s) : b.ring.Unfinished s := ⟨h.1, h.2.lt_tail, h.2.unready⟩

theorem Left.of_whole (hwhole : b.handles = none) (h : b.ring.Unfinished s) : b.Left s := by
  obtain ⟨r, handles⟩ := b
  obtain rfl : handles = none := hwhole
  exact ⟨h.head_le, h.lt_tail, h.unready, nofun⟩

theorem Left.performRaw {r : Ring kind cap α} (h : Left ⟨r, none⟩ s) (hr : InOrder ⟨r, none⟩)
    {o : Op α} (hno : ∀ i, o ≠ .commitIndex i) : (perform ⟨r, none⟩ o).2.Left s := by
  obtain ⟨reply, r', hraw, heffect⟩ := performRaw_effect r o
  have hafter : (perform ⟨r, none⟩ o).2 = ⟨r', none⟩ := by simp only [perform, hraw]
  rw [hafter]
  cases heffect with
  | claims hroom =>
    refine ⟨?_, (Orderly.deserted_claim hr hroom h.1).2 (.inl h.2)⟩
    show r.claimNext.head ≤ s
    rw [Ring.head_claimNext]
    exact h.1
  | commits i => exact absurd rfl (hno _)
  | writes i x => exact ⟨h.1, h.2.congr rfl rfl rfl⟩
  | full | peeks | misses | dumps | misuses => exact h

theorem Left.reunite (h : b.Left s) (p : Nat) : (b.reunite p).2.Left s := by
  obtain ⟨r, _ | h'⟩ := b
  · exact h
  · simp only [Buffer.reunite]
    split
    · split
      · exact .of_whole rfl h.unfinished
      · exact ⟨h.1, h.2.lt_tail, h.2.unready, fun g hg => h.2.unheld g (List.mem_of_mem_filter hg)⟩
    · exact h

/-- A number that nobody holds stays so, through splits and reunions too, until the buffer is
reset or a slot is committed by its number. -/
theorem Left.serve (h : b.Left s) (hb : b.InOrder) {request : Request α}
    (hreset : request ≠ .reset) (hno : ∀ i, ¬ request.Asks (.commitIndex i)) :
    (b.serve request).2.Left s := by
  cases hwhole : b.handles with
  | some handles =>
    have hsplit : b.handles ≠ none := by
      rw [hwhole]
      exact nofun
    have huse (use : Use α) : (b.serve use.request).2.Left s :=
      have hdead := (hb.dead_serve ((dead_iff hsplit).2 h) use).2.1
      (dead_iff hdead.split).1 hdead
    cases request with
    | op o => exact huse (.op o)
    | info => exact huse .info
    | read limit hooks => exact huse (.read limit hooks)
    | reunite p => exact h.reunite p
    | reset => exact absurd rfl hreset
    | split =>
      obtain ⟨r, _ | _⟩ := b
      · exact absurd rfl hsplit
      · exact h
  | none =>
    obtain ⟨r, handles⟩ := b
    obtain rfl : handles = none := hwhole
    cases request with
    | op o => exact h.performRaw hb fun i heq => hno i heq
    | info => exact h
    | read limit hooks =>
      rcases h.unfinished.blocks limit hooks with ⟨before, reply, after, hm⟩ | ⟨hstill, -⟩
      · have hin : Moment.op before (.commitIndex (s % cap.size)) reply after ∈
            (ofRing r).momentsOf (.read limit hooks) :=
          List.mem_append_left _ (List.mem_cons_of_mem _ hm)
        exact absurd (asks_of_mem hin) (hno _)
      · exact .of_whole ((isNone_readHooked (ofRing r) limit hooks).2 rfl) hstill
    | reunite p => exact h.reunite p
    | reset => exact absurd rfl hreset
    | split => exact ⟨h.1, h.2.lt_tail, h.2.unready, nofun⟩

end Buffer

end RingTransport
