/-
  What calls tell of the two counters. A claim and a measurement load one counter after the
  other, and between the two loads other threads may move both. Main facts: with one producer
  and one reader each counter is moved by one side only, so every answer is exact at an
  instant of its call (`one_producer_calls_exact`). With many producers the head is loaded
  first and may be overtaken: a refusal (`refused_full_or_overtaken`) and a length
  (`len_le_size_or_overtaken`) say what the counters were at two instants of the call, and
  are exact unless a read has ended and a claim has moved the tail between the two.
-/
import RingTransport.Proofs.Ring.Calls

namespace RingTransport

namespace Ring

variable {kind : Kind} {cap : Capacity} {α : Type}

/-- Every slot of the ring is claimed and not yet given back by the reader. -/
def IsFull (r : Ring kind cap α) : Prop := r.tail = r.head + cap.size

instance (r : Ring kind cap α) : Decidable r.IsFull :=
  inferInstanceAs (Decidable (r.tail = r.head + cap.size))

/-- The claimed slots by the counters that a claim compares: it has loaded one of them, the
tail with one producer and the head with many, and takes the other as it is. -/
def seenLen (r : Ring kind cap α) (counter : Nat) : Nat :=
  match kind with
  | .oneProducer => distance counter r.head
  | .manyProducers => distance r.tail counter

end Ring

namespace Threads

open RingTransport.Ring

variable {kind : Kind} {cap : Capacity} {α : Type} {s s' : Threads kind cap α} {p : Nat}
  {call : ProducerCall} {held : List Nat} {move last : Move α} {inside : List (Move α)}
  {signal result : Signal α} {spurious : Bool}

/-! ## The access that ends a claim -/

theorem claimAccess_refused {r : Ring kind cap α} {stage : ClaimStage}
    (h : (r.claimAccess spurious stage).1 = .refused) :
    ∃ counter, stage = .loaded counter ∧ cap.size ≤ r.seenLen counter := by
  cases kind with
  | oneProducer =>
    cases stage with
    | loaded counter =>
      refine ⟨counter, rfl, ?_⟩
      by_contra hroom
      rw [seenLen] at hroom
      simp only [claimAccess, if_neg hroom] at h
      cases h
    | start | room | won => cases h
  | manyProducers =>
    cases stage with
    | loaded counter =>
      refine ⟨counter, rfl, ?_⟩
      by_contra hroom
      rw [seenLen] at hroom
      simp only [claimAccess, if_neg hroom] at h
      cases h
    | start | won => cases h
    | room tail =>
      simp only [claimAccess] at h
      split at h <;> cases h

theorem claimAccess_taken {r : Ring .oneProducer cap α} {stage : ClaimStage} {seq : Nat}
    (h : (r.claimAccess spurious stage).1 = .taken seq) : stage = .room seq ∨ stage = .won seq := by
  cases stage with
  | start => cases h
  | loaded counter =>
    simp only [claimAccess] at h
    split at h <;> cases h
  | room tail => cases h; exact .inl rfl
  | won seq => cases h; exact .inr rfl

/-! ## One producer -/

theorem StepOf.tail_eq_of_alone (hs : StepOf s move signal s') (halone : s.producers.length ≤ 1)
    (hmove : ∀ spurious, move ≠ .produce 0 spurious) : s'.ring.tail = s.ring.tail := by
  cases hs with
  | @produce r ps c q call held hq spurious =>
    obtain ⟨hlt, -⟩ := List.getElem?_eq_some_iff.1 hq
    have halone : ps.length ≤ 1 := halone
    obtain rfl : q = 0 := by omega
    exact absurd rfl (hmove spurious)
  | consume call fails => exact tail_consumeAccess fails call _
  | _ => rfl

/-- The tail stays where it is while the one producer makes no access. -/
theorem tail_run_eq {s : Threads .oneProducer cap α} (h : Inv s) {moves : List (Move α)}
    (haway : ∀ spurious, .produce 0 spurious ∉ moves) :
    (s.run moves).2.ring.tail = s.ring.tail := by
  induction moves generalizing s with
  | nil => rfl
  | cons move moves ih =>
    have hfirst : (s.step move).2.ring.tail = s.ring.tail :=
      (stepOf s move).tail_eq_of_alone (h.alone rfl) fun spurious heq =>
        haway spurious (heq ▸ List.mem_cons_self ..)
    have hrest := ih (inv_step h move) fun spurious hmem =>
      haway spurious (List.mem_cons_of_mem _ hmem)
    exact hrest.trans hfirst

/-- The one producer knows the tail that it has loaded. -/
theorem InCall.eq_tail {s : Threads .oneProducer cap α} {tail : Nat} (h : Inv s)
    (hin : InCall s p (.claiming (.loaded tail))) : tail = s.ring.tail := by
  obtain ⟨held, hp⟩ := hin
  exact h.calls _ (List.mem_of_getElem? hp) _ rfl

theorem Inv.isFull_iff (h : Inv s) :
    s.ring.IsFull ↔ cap.size ≤ distance s.ring.tail s.ring.head := by
  have hle := h.owned.head_le_tail
  have hlap := h.owned.tail_le_lap
  rw [distance_of_le hle, Ring.IsFull]
  omega

/-- A claim of the one producer, just started, returns by its third access. It is refused
if and only if the ring is full at the access that loads the head; otherwise its number is
the tail of that instant, and there is room for its slot. -/
def ClaimIsExact (s : Threads .oneProducer cap α) : Prop :=
  s.ReturnsBy (Signal.endsCall 0) (Move.isAccess 0) 3 ∧
  ∀ inside last result, Finishes (Signal.endsCall 0) s inside last result →
    ∃ done spurious later, inside ++ [last] = done ++ .produce 0 spurious :: later ∧
      let u := (s.run done).2
      InCall u 0 (.claiming (.loaded u.ring.tail)) ∧
      (result = .refused 0 ↔ u.ring.IsFull) ∧
      (result = .refused 0 ∨
        result = .claimed 0 u.ring.tail ∧ u.ring.tail < u.ring.head + cap.size)

theorem claimIsExact {s : Threads .oneProducer cap α} (h : Inv s)
    (hin : InCall s 0 (.claiming .start)) : ClaimIsExact s := by
  refine ⟨hin.returnsBy fun _ => rfl, fun inside last result hf => ?_⟩
  obtain ⟨spurious, stage, rfl, hend, hlatest, ⟨hrefused, rfl⟩ | ⟨seq, htaken, rfl⟩⟩ :=
    claiming_of_finishes hin hf
  · -- the access that ends a refused claim is its head load
    obtain ⟨counter, rfl, hfull⟩ := claimAccess_refused hrefused
    have hu : Inv (s.run inside).2 := inv_run h inside
    obtain rfl := hend.eq_tail hu
    have hfull := hu.isFull_iff.2 hfull
    exact ⟨inside, spurious, [], rfl, hend, ⟨fun _ => hfull, fun _ => rfl⟩, .inl rfl⟩
  · -- a number is taken one access after the head load
    have hstage := claimAccess_taken htaken
    obtain rfl | ⟨done, spurious', later, rfl, hleads⟩ := hlatest
    · rcases hstage with hstage | hstage <;> cases hstage
    obtain ⟨before, hbefore, hgoing⟩ := hleads.claiming
    rcases hstage with rfl | rfl
    · have hgoing := hgoing.resolve_right nofun
      obtain ⟨rfl, hroom⟩ := claimAccess_going_room hgoing
      have hu : Inv (s.run done).2 := inv_run h done
      obtain rfl := hbefore.eq_tail hu
      have hnot : ¬ (s.run done).2.ring.IsFull := fun hfull =>
        absurd (hu.isFull_iff.1 hfull) (Nat.not_le_of_lt hroom)
      rw [distance_of_le hu.owned.head_le_tail] at hroom
      refine ⟨done, spurious', later ++ [.produce 0 spurious], by simp, hbefore,
        ⟨nofun, fun hfull => absurd hfull hnot⟩, .inr ⟨rfl, by omega⟩⟩
    · exact absurd (hgoing.resolve_right nofun) claimAccess_going_ne_won

/-- A measurement, just started, returns by its second access with the difference of the
counters at an instant of the call. -/
def LenIsExact (ends : Signal α → Bool) (access : Move α → Bool) (shown : Nat → Signal α)
    (s : Threads .oneProducer cap α) : Prop :=
  s.ReturnsBy ends access 2 ∧
  ∀ inside last result, Finishes ends s inside last result →
    ∃ u ∈ s.instants inside, result = shown (u.ring.tail - u.ring.head) ∧
      u.ring.head ≤ u.ring.tail ∧ u.ring.tail ≤ u.ring.head + cap.size

theorem lenIsExact_producer {s : Threads .oneProducer cap α} (h : Inv s)
    (hin : InCall s 0 (.measuring .start)) :
    LenIsExact (Signal.endsCall 0) (Move.isAccess 0) (.measured 0) s := by
  refine ⟨hin.returnsBy nofun, fun inside last result hf => ?_⟩
  obtain ⟨done, spurious, later, rfl, haway, hring, -, -, rfl⟩ := measured_of_finishes hin hf
  have hu : Inv (s.run done).2 := inv_run h done
  have hafter : Inv ((s.run done).2.step (.produce 0 spurious)).2 := inv_step hu _
  -- the reader may have moved the head since, but the tail is still that of the head load
  have htail : (s.run (done ++ .produce 0 spurious :: later)).2.ring.tail =
      (s.run done).2.ring.tail := by
    rw [run_append]
    show (((s.run done).2.step (.produce 0 spurious)).2.run later).2.ring.tail = _
    rw [tail_run_eq hafter haway, hring]
  rw [htail, distance_of_le hu.owned.head_le_tail]
  exact ⟨_, mem_instants s done _, rfl, hu.owned.head_le_tail, hu.owned.tail_le_lap⟩

/-! ## The reader -/

/-- The signal shows that a measurement of the reader has ended. -/
def Signal.endsReaderLen : Signal α → Bool
  | .measuredRead _ => true
  | _ => false

/-- The reader is measuring the ring, and what it has loaded of the head is the head. -/
def ReaderMeasures (s : Threads kind cap α) (stage : LenStage) : Prop :=
  s.consumer = some (.measuring stage) ∧ ∀ head, stage = .loaded head → head = s.ring.head

theorem head_claimAccess (spurious : Bool) (stage : ClaimStage) (r : Ring kind cap α) :
    (r.claimAccess spurious stage).2.head = r.head := by
  cases kind <;> cases stage <;> simp only [claimAccess] <;> (try split) <;> rfl

/-- A producer never moves the head. -/
theorem AccessOf.head_eq {r r' : Ring kind cap α} {t : ProducerThread}
    (ha : AccessOf p spurious held r call signal t r') : r'.head = r.head := by
  cases ha with
  | @going stage _ _ hacc | @lost stage _ hacc | @refused stage _ hacc | @taken stage _ _ hacc =>
    have hhead := head_claimAccess spurious stage r
    rw [hacc] at hhead
    exact hhead
  | loaded | measured => rfl

theorem StepOf.readerMeasures {stage : LenStage} (hs : StepOf s move signal s')
    (h : ReaderMeasures s stage) (hmove : ∀ fails, move ≠ .consume fails) :
    ReaderMeasures s' stage := by
  obtain ⟨hc, hhead⟩ := h
  cases hs with
  | produce hp spurious =>
    refine ⟨hc, fun head heq => (hhead head heq).trans ?_⟩
    exact (accessOf _ spurious _ _ _).head_eq.symm
  | consume call fails => exact absurd rfl (hmove fails)
  | read | measureRead => cases hc
  | _ => exact ⟨hc, hhead⟩

theorem AccessOf.endsReaderLen {r r' : Ring kind cap α} {t : ProducerThread}
    (ha : AccessOf p spurious held r call signal t r') : signal.endsReaderLen = false := by
  cases ha <;> rfl

theorem StepOf.consume_of_endsReaderLen (hs : StepOf s move signal s')
    (h : signal.endsReaderLen = true) : ∃ fails, move = .consume fails := by
  cases hs with
  | produce hp spurious =>
    rw [(accessOf _ spurious _ _ _).endsReaderLen] at h
    cases h
  | consume call fails => exact ⟨fails, rfl⟩
  | _ => cases h

/-- The next access of a measurement of the reader loads the head, or ends it. -/
theorem ReaderMeasures.own {stage : LenStage} (h : ReaderMeasures s stage) (fails : Bool) :
    stage = .start ∧ (s.step (.consume fails)).1 = .quiet ∧
        ReaderMeasures (s.step (.consume fails)).2 (.loaded s.ring.head) ∨
      stage = .loaded s.ring.head ∧
        (s.step (.consume fails)).1 = .measuredRead (distance s.ring.tail s.ring.head) := by
  obtain ⟨r, ps, c⟩ := s
  obtain ⟨rfl, hhead⟩ := h
  cases stage with
  | start => exact .inl ⟨rfl, rfl, rfl, fun head heq => (LenStage.loaded.inj heq).symm⟩
  | loaded head =>
    have hhead : head = r.head := hhead head rfl
    subst hhead
    exact .inr ⟨rfl, rfl⟩

/-- Until a measurement of the reader returns, the head it has loaded stays the head. -/
theorem ReaderMeasures.run {stage : LenStage} (h : ReaderMeasures s stage)
    (hquiet : ∀ signal ∈ (s.run inside).1, signal.endsReaderLen = false) :
    ∃ later, ReaderMeasures (s.run inside).2 later ∧
      inside.countP Move.isReaderAccess + later.accessesLeft = stage.accessesLeft := by
  induction inside generalizing s stage with
  | nil => exact ⟨stage, h, Nat.zero_add _⟩
  | cons move inside ih =>
    have hfirst : (s.step move).1.endsReaderLen = false := hquiet _ (List.mem_cons_self ..)
    have hrest : ∀ signal ∈ ((s.step move).2.run inside).1, signal.endsReaderLen = false :=
      fun signal hmem => hquiet signal (List.mem_cons_of_mem _ hmem)
    by_cases hown : move.isReaderAccess = true
    · rw [List.countP_cons_of_pos hown]
      obtain ⟨fails, rfl⟩ := Move.isReaderAccess_iff.1 hown
      rcases h.own fails with ⟨rfl, -, hnext⟩ | ⟨-, hends⟩
      · obtain ⟨later, hlater, hcount⟩ := ih hnext hrest
        refine ⟨later, hlater, ?_⟩
        simp only [LenStage.accessesLeft] at hcount ⊢
        omega
      · rw [hends] at hfirst
        cases hfirst
    · rw [List.countP_cons_of_neg hown]
      have hother : ∀ fails, move ≠ .consume fails := fun fails heq =>
        hown (Move.isReaderAccess_iff.2 ⟨fails, heq⟩)
      exact ih ((stepOf s move).readerMeasures h hother) hrest

theorem lenIsExact_reader {s : Threads .oneProducer cap α} (h : Inv s)
    (hstart : ReaderMeasures s .start) :
    LenIsExact Signal.endsReaderLen Move.isReaderAccess .measuredRead s := by
  refine ⟨fun moves hquiet => ?_, fun inside last result hf => ?_⟩
  · obtain ⟨later, -, hcount⟩ := hstart.run hquiet
    have hpos := later.accessesLeft_pos
    have htwo : LenStage.start.accessesLeft = 2 := rfl
    omega
  · obtain ⟨later, hlater, -⟩ := hstart.run hf.goes_on
    have hu : Inv (s.run inside).2 := inv_run h inside
    have hmem : (s.run inside).2 ∈ s.instants inside := by
      simpa using mem_instants s inside []
    refine ⟨_, hmem, ?_, hu.owned.head_le_tail, hu.owned.tail_le_lap⟩
    have hends : ((s.run inside).2.step last).1.endsReaderLen = true := hf.ends_last
    obtain ⟨fails, rfl⟩ := (stepOf _ last).consume_of_endsReaderLen hends
    rcases hlater.own fails with ⟨-, hquiet, -⟩ | ⟨-, hsignal⟩
    · rw [hquiet] at hends
      cases hends
    · rw [← hf.returns, hsignal, distance_of_le hu.owned.head_le_tail]

theorem readerMeasures_start (h : (s.step .measureRead).1 = .measureReadStarted) :
    ReaderMeasures (s.step .measureRead).2 .start := by
  obtain ⟨r, ps, c⟩ := s
  cases c with
  | none => exact ⟨rfl, nofun⟩
  | some call => cases h

/-! ## Exact calls of one producer and the reader -/

/-- One producer thread and one reader, after any run: a claim of the producer and the
measurements of both return, and are exact at an instant of the call, however the threads
interleave while the call is in progress. -/
theorem one_producer_calls_exact (slots : Vector α cap.size) (before : List (Move α)) :
    let s := ((init 1 (.ofSlots slots) : Threads .oneProducer cap α).run before).2
    ((s.step (.claim 0)).1 = .claimStarted 0 → ClaimIsExact (s.step (.claim 0)).2) ∧
    ((s.step (.measure 0)).1 = .measureStarted 0 →
      LenIsExact (Signal.endsCall 0) (Move.isAccess 0) (.measured 0) (s.step (.measure 0)).2) ∧
    ((s.step .measureRead).1 = .measureReadStarted →
      LenIsExact Signal.endsReaderLen Move.isReaderAccess .measuredRead
        (s.step .measureRead).2) := by
  intro s
  have hs : Inv s := inv_run (Fresh.inv ⟨1, slots, fun _ => Nat.le_refl 1, rfl⟩) before
  refine ⟨fun hstarted => ?_, fun hstarted => ?_, fun hstarted => ?_⟩
  · exact claimIsExact (inv_step hs _) (inCall_claim hstarted)
  · exact lenIsExact_producer (inv_step hs _) (inCall_measure hstarted)
  · exact lenIsExact_reader (inv_step hs _) (readerMeasures_start hstarted)

/-- In a ring of one slot, once it is claimed, a claim is refused and both sides measure 1. -/
theorem one_slot_calls_exact :
    let cap : Capacity := ⟨1, rfl⟩
    let slots : Vector Nat cap.size := Vector.replicate 1 0
    let access : Move Nat := .produce 0 false
    let s := ((init 1 (.ofSlots slots) : Threads .oneProducer cap Nat).run
      [.claim 0, access, access, access]).2
    ((s.step (.claim 0)).1 = .claimStarted 0 ∧
      Finishes (Signal.endsCall 0) (s.step (.claim 0)).2 [access] access (.refused 0) ∧
      ClaimIsExact (s.step (.claim 0)).2) ∧
    ((s.step (.measure 0)).1 = .measureStarted 0 ∧
      Finishes (Signal.endsCall 0) (s.step (.measure 0)).2 [access] access (.measured 0 1) ∧
      LenIsExact (Signal.endsCall 0) (Move.isAccess 0) (.measured 0) (s.step (.measure 0)).2) ∧
    ((s.step .measureRead).1 = .measureReadStarted ∧
      Finishes Signal.endsReaderLen (s.step .measureRead).2 [.consume false] (.consume false)
        (.measuredRead 1) ∧
      LenIsExact Signal.endsReaderLen Move.isReaderAccess .measuredRead
        (s.step .measureRead).2) := by
  intro cap slots access s
  obtain ⟨hclaim, hmeasure, hread⟩ :=
    one_producer_calls_exact slots [.claim 0, access, access, access]
  have hquiet : ∀ signal ∈ ((s.step (.claim 0)).2.run [access]).1,
      signal.endsCall 0 = false := by decide +kernel
  have hquiet' : ∀ signal ∈ ((s.step (.measure 0)).2.run [access]).1,
      signal.endsCall 0 = false := by decide +kernel
  have hquiet'' : ∀ signal ∈ ((s.step .measureRead).2.run [.consume false]).1,
      signal.endsReaderLen = false := by decide +kernel
  exact ⟨⟨rfl, ⟨hquiet, rfl, rfl⟩, hclaim rfl⟩, ⟨rfl, ⟨hquiet', rfl, rfl⟩, hmeasure rfl⟩,
    rfl, ⟨hquiet'', rfl, rfl⟩, hread rfl⟩

/-! ## Many producers -/

/-- Producer 1 claims a number. -/
def claimingOther : List (Move Nat) := .claim 1 :: List.replicate 4 (.produce 1 false)

/-- Producer 1 claims a number and commits it. -/
def publishingOther (seq : Nat) : List (Move Nat) := claimingOther ++ [.commit 1 seq]

/-- The reader takes one message. -/
def readingOne : List (Move Nat) := .read 1 :: List.replicate 6 (.consume false)

/-- Producer 0 loads the head; then a message is read, and producer 1 claims. -/
def overtakenClaim : List (Move Nat) := .produce 0 false :: (readingOne ++ claimingOther)

/-- Producer 0 loads the head; then producer 1 publishes, the message is read, and producer
1 claims again. -/
def overtakenLen : List (Move Nat) :=
  .produce 0 false :: (publishingOther 0 ++ readingOne ++ claimingOther)

/-- Two producers around a ring of two slots, once producer 1 has published. -/
def onePublished : Threads .manyProducers ⟨2, rfl⟩ Nat :=
  ((init 2 (.ofSlots (.replicate 2 0))).run (publishingOther 0)).2

theorem finishes_overtakenClaim :
    Finishes (Signal.endsCall 0) (onePublished.step (.claim 0)).2 overtakenClaim
      (.produce 0 false) (.refused 0) := by
  have hquiet : ∀ signal ∈ ((onePublished.step (.claim 0)).2.run overtakenClaim).1,
      signal.endsCall 0 = false := by decide +kernel
  exact ⟨hquiet, rfl, rfl⟩

/-- With many producers a refused claim has loaded the head at one instant of the call and
the tail at its last, and the tail was then a whole lap or more ahead of that head. So the
ring was full at one of these instants, or both counters have moved between them. -/
theorem refused_full_or_overtaken (producers : Nat) (slots : Vector α cap.size)
    (before : List (Move α)) (p : Nat) :
    let s := ((init producers (.ofSlots slots) : Threads .manyProducers cap α).run before).2
    (s.step (.claim p)).1 = .claimStarted p →
      let t := (s.step (.claim p)).2
      ∀ inside last, Finishes (Signal.endsCall p) t inside last (.refused p) →
        ∃ done later, inside = done ++ later ∧
          let u := (t.run done).2
          let v := (u.run later).2
          InCall u p (.claiming .start) ∧ InCall v p (.claiming (.loaded u.ring.head)) ∧
          u.ring.head + cap.size ≤ v.ring.tail ∧
          (u.ring.IsFull ∨ v.ring.IsFull ∨
            u.ring.head < v.ring.head ∧ u.ring.tail < v.ring.tail) := by
  intro s hstarted t inside last hf
  have hs : Inv s := inv_run (Fresh.inv ⟨producers, slots, Kind.noConfusion, rfl⟩) before
  have ht : Inv t := inv_step hs _
  obtain ⟨spurious, stage, -, hcall, hlatest, ⟨hrefused, -⟩ | ⟨seq, -, hresult⟩⟩ :=
    claiming_of_finishes (inCall_claim hstarted) hf
  · obtain ⟨head, rfl, hseen⟩ := claimAccess_refused hrefused
    obtain ⟨done, spurious', later, rfl, hleads⟩ := hlatest.resolve_left nofun
    obtain ⟨_, hload, hgoing⟩ := hleads.claiming
    obtain ⟨rfl, rfl⟩ := claimAccess_going_loaded (hgoing.resolve_right nofun)
    refine ⟨done, .produce p spurious' :: later, rfl, ?_⟩
    intro u v
    have hu : Inv u := inv_run ht done
    have hv : Inv v := inv_run hu _
    have hhead : u.ring.head ≤ v.ring.head := head_le_run hu _
    rw [run_append] at hcall hseen
    have hseen : cap.size ≤ distance v.ring.tail u.ring.head := hseen
    have hule := hu.owned.head_le_tail
    have hulap := hu.owned.tail_le_lap
    have hvle := hv.owned.head_le_tail
    have hvlap := hv.owned.tail_le_lap
    rw [distance_of_le (Nat.le_trans hhead hvle)] at hseen
    have hpast : u.ring.head + cap.size ≤ v.ring.tail := by omega
    refine ⟨hload, hcall, hpast, ?_⟩
    simp only [Ring.IsFull]
    omega
  · cases hresult

theorem refused_by_overtaken_head :
    let t := (onePublished.step (.claim 0)).2
    (onePublished.step (.claim 0)).1 = .claimStarted 0 ∧
      Finishes (Signal.endsCall 0) t overtakenClaim (.produce 0 false) (.refused 0) ∧
      ∃ done later, overtakenClaim = done ++ later ∧
        let u := (t.run done).2
        let v := (u.run later).2
        InCall u 0 (.claiming .start) ∧ InCall v 0 (.claiming (.loaded u.ring.head)) ∧
        u.ring.head + 2 ≤ v.ring.tail ∧
        (u.ring.IsFull ∨ v.ring.IsFull ∨
          u.ring.head < v.ring.head ∧ u.ring.tail < v.ring.tail) := by
  intro t
  have hstarted : (onePublished.step (.claim 0)).1 = .claimStarted 0 := rfl
  exact ⟨hstarted, finishes_overtakenClaim,
    @refused_full_or_overtaken ⟨2, rfl⟩ Nat 2 (.replicate 2 0) (publishingOther 0) 0 hstarted
      overtakenClaim (.produce 0 false) finishes_overtakenClaim⟩

/-- The ring of two slots has a free slot all along, and the claim is refused. -/
theorem refused_never_full :
    let moves := .claim 0 :: (overtakenClaim ++ [.produce 0 false])
    (onePublished.step (.claim 0)).1 = .claimStarted 0 ∧
      Finishes (Signal.endsCall 0) (onePublished.step (.claim 0)).2 overtakenClaim
        (.produce 0 false) (.refused 0) ∧
      ∀ u ∈ onePublished.instants moves, ¬ u.ring.IsFull := by
  intro moves
  have hroom : ∀ u ∈ onePublished.instants moves, ¬ u.ring.IsFull := by decide +kernel
  exact ⟨rfl, finishes_overtakenClaim, hroom⟩

/-- With many producers a length is never less than the number of claimed slots at the
instants of the two loads. It is more than the capacity only if both counters have moved
between them, and by no more than the head has moved. -/
theorem len_le_size_or_overtaken (producers : Nat) (slots : Vector α cap.size)
    (before : List (Move α)) (p : Nat) :
    let s := ((init producers (.ofSlots slots) : Threads .manyProducers cap α).run before).2
    (s.step (.measure p)).1 = .measureStarted p →
      let t := (s.step (.measure p)).2
      t.ReturnsBy (Signal.endsCall p) (Move.isAccess p) 2 ∧
      ∀ inside last result, Finishes (Signal.endsCall p) t inside last result →
        ∃ done later, inside = done ++ later ∧
          let u := (t.run done).2
          let v := (u.run later).2
          let len := v.ring.tail - u.ring.head
          InCall u p (.measuring .start) ∧ InCall v p (.measuring (.loaded u.ring.head)) ∧
          result = .measured p len ∧ u.ring.head + len = v.ring.tail ∧
          u.ring.tail - u.ring.head ≤ len ∧ v.ring.tail - v.ring.head ≤ len ∧
          len ≤ cap.size + (v.ring.head - u.ring.head) ∧
          (len ≤ cap.size ∨ u.ring.head < v.ring.head ∧ u.ring.tail < v.ring.tail) := by
  intro s hstarted t
  have hs : Inv s := inv_run (Fresh.inv ⟨producers, slots, Kind.noConfusion, rfl⟩) before
  have ht : Inv t := inv_step hs _
  have hin : InCall t p (.measuring .start) := inCall_measure hstarted
  refine ⟨hin.returnsBy nofun, fun inside last result hf => ?_⟩
  obtain ⟨done, spurious, later, rfl, -, -, hload, hcall, hresult⟩ := measured_of_finishes hin hf
  refine ⟨done, .produce p spurious :: later, rfl, ?_⟩
  intro u v len
  have hu : Inv u := inv_run ht done
  have hv : Inv v := inv_run hu _
  have hhead : u.ring.head ≤ v.ring.head := head_le_run hu _
  have htail : u.ring.tail ≤ v.ring.tail := tail_le_run hu _
  have hvle := hv.owned.head_le_tail
  have hulap := hu.owned.tail_le_lap
  have hvlap := hv.owned.tail_le_lap
  rw [run_append] at hcall hresult
  have hresult : result = .measured p (distance v.ring.tail u.ring.head) := hresult
  rw [distance_of_le (Nat.le_trans hhead hvle)] at hresult
  have hlen : len = v.ring.tail - u.ring.head := rfl
  exact ⟨hload, hcall, hresult, by omega, by omega, by omega, by omega, by omega⟩

/-- Two producers around an empty ring of one slot. -/
def oneSlot : Threads .manyProducers ⟨1, rfl⟩ Nat := init 2 (.ofSlots (.replicate 1 0))

theorem finishes_overtakenLen :
    Finishes (Signal.endsCall 0) (oneSlot.step (.measure 0)).2 overtakenLen
      (.produce 0 false) (.measured 0 2) := by
  have hquiet : ∀ signal ∈ ((oneSlot.step (.measure 0)).2.run overtakenLen).1,
      signal.endsCall 0 = false := by decide +kernel
  exact ⟨hquiet, rfl, rfl⟩

theorem len_by_overtaken_head :
    let t := (oneSlot.step (.measure 0)).2
    (oneSlot.step (.measure 0)).1 = .measureStarted 0 ∧
      Finishes (Signal.endsCall 0) t overtakenLen (.produce 0 false) (.measured 0 2) ∧
      t.ReturnsBy (Signal.endsCall 0) (Move.isAccess 0) 2 ∧
      ∃ done later, overtakenLen = done ++ later ∧
        let u := (t.run done).2
        let v := (u.run later).2
        u.ring.head + 2 = v.ring.tail ∧ u.ring.head < v.ring.head := by
  intro t
  have hstarted : (oneSlot.step (.measure 0)).1 = .measureStarted 0 := rfl
  obtain ⟨hreturns, hexact⟩ :=
    @len_le_size_or_overtaken ⟨1, rfl⟩ Nat 2 (.replicate 1 0) [] 0 hstarted
  obtain ⟨done, later, hsplit, -, -, hresult, hlen, -, -, -, hbound⟩ :=
    hexact overtakenLen (.produce 0 false) (.measured 0 2) finishes_overtakenLen
  have htwo := (Signal.measured.inj hresult).2
  rw [← htwo] at hlen hbound
  exact ⟨hstarted, finishes_overtakenLen, hreturns, done, later, hsplit, hlen,
    (hbound.resolve_left (by decide)).1⟩

/-- A length of 2 in a ring of one slot. -/
theorem len_above_size :
    ¬ ∀ moves len, .measured 0 len ∈ (oneSlot.run moves).1 → len ≤ 1 := by
  intro hle
  have hmem : .measured 0 2 ∈
      (oneSlot.run (.measure 0 :: (overtakenLen ++ [.produce 0 false]))).1 :=
    List.mem_of_getElem? (i := 20) rfl
  exact absurd (hle _ 2 hmem) (by decide)

end Threads

end RingTransport
