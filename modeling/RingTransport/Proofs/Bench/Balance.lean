/-
  What the agent of the pipeline has counted. Messages that were taken off the ring are in the
  counter and in the checksum, or the `doWork` in progress has still to add them (`Accounted`);
  every turn keeps this (`Balanced.turned`). Main facts: what is counted and what is in the ring
  is never more than there is to publish (`Balanced.le_total`), it is all of it once the producers
  are done and no `doWork` is in progress (`Balanced.eq_total`), and the checksum of all messages
  is one and the same sum, in whatever order they came (`Balanced.checksum_eq`).
-/
import RingTransport.Proofs.Bench.Turns
import RingTransport.Proofs.Ring.Publishing

namespace RingTransport.Bench

open Threads Traffic

/-! ## Weights -/

/-- The weight of a message as a number. -/
def worth (parcel : Parcel) : Nat :=
  parcel.number + price parcel + parcel.producer % producerNumbers

theorem weight_eq (parcel : Parcel) : weight parcel = UInt64.ofNat (worth parcel) := by
  rw [weight, worth, UInt64.ofNat_add, UInt64.ofNat_add]

/-- The weights of all messages handed over. -/
def worthOf (log : List (Threads.Signal Parcel)) : Nat := ((handedOf log).map (worth ·.2)).sum

theorem worthOf_handed (log : List (Threads.Signal Parcel)) (seq : Nat) (parcel : Parcel) :
    worthOf (log ++ [.handed seq parcel]) = worthOf log + worth parcel := by
  rw [worthOf, handedOf_handed, List.map_append, List.sum_append]
  rfl

/-- The weights of everything that is published. -/
def checksumOf (w : Workload) : Nat :=
  ∑ p ∈ Finset.range w.producers, ∑ i ∈ Finset.range w.per,
    (i + (10000 + i % 50) + p % producerNumbers)

variable {cap : Capacity} {w : Workload} {wins : List (Nat × Nat)}
  {log : List (Threads.Signal Parcel)} {threads : Threads .manyProducers cap Parcel}
  {pubs : List Publisher} {p : Nat}

/-- The messages of a producer that are handed over are worth this. -/
theorem worth_handedFrom (h : Publishing w wins log threads pubs) (p : Nat) :
    ((handedFrom log p).map (worth ·.2)).sum =
      ∑ i ∈ Finset.range (handedFrom log p).length,
        (i + (10000 + i % 50) + p % producerNumbers) := by
  have hworth : (handedFrom log p).map (worth ·.2) =
      ((handedFrom log p).map (·.2.number)).map
        fun i => i + (10000 + i % 50) + p % producerNumbers := by
    rw [List.map_map]
    refine List.map_congr_left fun x hmem => ?_
    have hproducer : x.2.producer = p := eq_of_beq (List.mem_filter.1 hmem).2
    rw [worth, price, hproducer]
    rfl
  rw [hworth, h.numbers]
  rfl

/-- Once everything is handed over, the weights do not depend on the order. -/
theorem worthOf_eq (h : Publishing w wins log threads pubs)
    (hall : (handedOf log).length = w.total) : worthOf log = checksumOf w := by
  have hproducer : ∀ x ∈ handedOf log, x.2.producer < w.producers :=
    fun x hmem => (h.handed hmem).1
  have hsum := sum_map_by_key (fun x : Nat × Parcel => x.2.producer) (worth ·.2) hproducer
  refine hsum.trans (Finset.sum_congr rfl fun p hp => ?_)
  rw [← h.length_handedFrom hall (Finset.mem_range.1 hp)]
  exact worth_handedFrom h p

/-! ## Accesses of the reader -/

/-- An access of a read of the agent. -/
inductive Accessed (s : Threads .manyProducers cap Parcel) :
    Threads.Signal Parcel → Threads .manyProducers cap Parcel → Prop
  | goes {stage ring} (hhead : ring.head = s.ring.head) :
      Accessed s .quiet ⟨ring, s.producers, some (.reading stage)⟩
  | hands {seq parcel count left} :
      Accessed s (.handed seq parcel)
        ⟨s.ring, s.producers, some (.reading (.clearing s.ring.head count left))⟩
  | ends {count} (hcall : s.consumer = some (.reading (.leaving s.ring.head count))) :
      Accessed s (.readEnded count) ⟨s.ring.setHead (s.ring.head + count), s.producers, none⟩

theorem step_read (hidle : threads.consumer = none) (limit : Nat) :
    threads.step (.read limit) =
      (.readStarted limit, ⟨threads.ring, threads.producers, some (.reading (.start limit))⟩) := by
  obtain ⟨ring, producers, consumer⟩ := threads
  obtain rfl : consumer = none := hidle
  rfl

theorem accessed {s : Threads .manyProducers cap Parcel} {stage : Ring.ReadStage} (h : Inv s)
    (hcall : s.consumer = some (.reading stage)) :
    Accessed s (s.step (.consume false)).1 (s.step (.consume false)).2 := by
  have hsound := h.reader stage hcall
  obtain ⟨r, ps, c⟩ := s
  obtain rfl : c = some (.reading stage) := hcall
  cases stage with
  | start | loaded | clearing => exact .goes rfl
  | looking start count left =>
    by_cases hready : r.markOf (start + count) = .ready
    · simp only [Threads.step, consumeAccess, Ring.readAccess, if_pos hready]
      exact .goes rfl
    · simp only [Threads.step, consumeAccess, Ring.readAccess, if_neg hready]
      exact .goes rfl
  | handing start count left =>
    have hstart : start = r.head := hsound.1.start_eq
    subst hstart
    exact .hands
  | leaving start count =>
    have hstart : start = r.head := hsound.start_eq
    subst hstart
    exact .ends rfl

/-! ## What is counted -/

/-- How many messages a job has taken off the ring and has still to count. -/
def Job.uncounted : Job → Nat
  | .count read _ => read
  | _ => 0

/-- The sum that a job has still to add to the checksum. -/
def Job.unsummed : Job → UInt64
  | .reading x | .count _ x | .sum _ x => x
  | _ => 0

/-- A job reads when its thread is in a read. -/
def Job.CallIs : Job → Option ConsumerCall → Prop
  | .reading _, call => ∃ stage, call = some (.reading stage)
  | _, call => call = none

namespace Pipeline

variable {s s' : Pipeline cap} {closer server closer' server' : List Runner.Frame} {turn : Turn}

/-- How the counters of the agent stand to the ring and to the messages handed over. -/
structure Accounted (log : List (Threads.Signal Parcel)) (s : Pipeline cap) : Prop where
  call : s.job.CallIs s.threads.consumer
  count : s.consumed + s.job.uncounted = s.threads.ring.head
  sum : s.checksum + s.job.unsummed = UInt64.ofNat (worthOf log)
  /-- A read that has taken nothing off the ring has summed nothing. -/
  fresh : ∀ sum, s.job = .reading sum → (handedOf log).length = s.threads.ring.head → sum = 0

/-- The publishers and the agent, as they stand to the claims won and the signals so far. -/
structure Balanced (w : Workload) (wins : List (Nat × Nat)) (log : List (Threads.Signal Parcel))
    (s : Pipeline cap) : Prop where
  publishing : Publishing w wins log s.threads s.publishers
  accounted : Accounted log s

theorem balanced_init (w : Workload) : Balanced w [] [] (init w : Pipeline cap) where
  publishing := publishing_init nofun
  accounted := ⟨rfl, rfl, UInt64.add_zero 0, nofun⟩

/-- An access of the read in progress. -/
theorem Balanced.access {sum : UInt64} (h : Balanced w wins log s) (hjob : s.job = .reading sum) :
    Balanced w wins (log ++ [(s.threads.step (.consume false)).1])
      { s with
        threads := (s.threads.step (.consume false)).2
        job := readOn sum (s.threads.step (.consume false)).1 } := by
  obtain ⟨hpublishing, hcall, hcount, hsum, hfresh⟩ := h
  rw [hjob] at hcall hcount hsum
  obtain ⟨stage, hstage⟩ := hcall
  have hlevel := hpublishing.sound.level
  have hnext := hpublishing.read (.inr rfl : IsReading (.consume false))
  have hlevel' := hnext.sound.level
  refine ⟨hnext, ?_⟩
  have hacc := accessed hpublishing.sound.inv hstage
  generalize s.threads.step (.consume false) = out at hacc hlevel' ⊢
  obtain ⟨signal, threads⟩ := out
  cases hacc with
  | goes hhead =>
    have hquiet : handedOf (log ++ [.quiet]) = handedOf log := handedOf_plain log rfl
    refine ⟨⟨_, rfl⟩, hcount.trans hhead.symm, ?_, ?_⟩
    · rw [worthOf, hquiet]
      exact hsum
    · rintro _ ⟨⟩ hlength
      rw [hquiet] at hlength
      exact hfresh sum hjob (hlength.trans hhead)
  | @hands seq parcel count left =>
    refine ⟨⟨_, rfl⟩, hcount, ?_, ?_⟩
    · rw [worthOf_handed, UInt64.ofNat_add, ← hsum, ← weight_eq]
      exact (UInt64.add_assoc s.checksum sum (weight parcel)).symm
    · rintro _ ⟨⟩ hlength
      have hmore : (handedOf (log ++ [.handed seq parcel])).length =
        s.threads.ring.head + count + 1 := hlevel'
      simp only at hlength
      omega
  | @ends count hleaving =>
    have hended : handedOf (log ++ [.readEnded count]) = handedOf log := handedOf_plain log rfl
    rw [hleaving] at hlevel
    have hlength : (handedOf log).length = s.threads.ring.head + count := hlevel
    by_cases hnone : count = 0
    · subst hnone
      have hzero : sum = 0 := hfresh sum hjob hlength
      subst hzero
      refine ⟨rfl, hcount, ?_, nofun⟩
      rw [worthOf, hended]
      exact hsum
    · have hafter : readOn sum (.readEnded count) = .count count sum := if_neg hnone
      simp only [hafter]
      refine ⟨rfl, ?_, ?_, nofun⟩
      · exact congrArg (· + count) hcount
      · rw [worthOf, hended]
        exact hsum

/-- A step of the worker inside `doWork`. -/
theorem Balanced.worked (h : Balanced w wins log s) (hwork : Working s s') :
    ∃ log', Balanced w wins log' s' := by
  cases hwork with
  | started hjob =>
    obtain ⟨hpublishing, hcall, hcount, hsum, -⟩ := h
    rw [hjob] at hcall hcount hsum
    have hnext := hpublishing.read (.inl ⟨readLimit, rfl⟩)
    rw [step_read hcall] at hnext ⊢
    have hquiet : handedOf (log ++ [.readStarted readLimit]) = handedOf log :=
      handedOf_plain log rfl
    refine ⟨_, hnext, ⟨_, rfl⟩, hcount, ?_, ?_⟩
    · rw [worthOf, hquiet]
      exact hsum
    · rintro _ ⟨⟩ -
      rfl
  | accessed hjob => exact ⟨_, h.access hjob⟩
  | @counted read sum hjob =>
    obtain ⟨hpublishing, hcall, hcount, hsum, -⟩ := h
    rw [hjob] at hcall hcount hsum
    exact ⟨log, hpublishing, hcall, hcount, hsum, nofun⟩
  | @summed read sum hjob =>
    obtain ⟨hpublishing, hcall, hcount, hsum, -⟩ := h
    rw [hjob] at hcall hcount hsum
    refine ⟨log, hpublishing, hcall, hcount, ?_, nofun⟩
    exact (UInt64.add_zero _).trans hsum

/-- Every turn keeps this. -/
theorem Balanced.turned (h : Balanced w wins log s)
    (ht : Turned w s closer server turn s' closer' server') :
    ∃ wins' log', Balanced w wins' log' s' := by
  cases ht with
  | passed => exact ⟨wins, log, h⟩
  | @produced p spurious pub thread move hpub hthread hnext =>
    obtain ⟨hpublishing, hcall, hcount, hsum, hfresh⟩ := h
    obtain ⟨signal, thread', ring, new, hstep, ha, hafter⟩ :=
      hpublishing.produce hpub hthread hnext
    have hlt := (List.getElem?_eq_some_iff.1 hthread).1
    have hthread' : (s.threads.producers.set p thread')[p]?.elim 0 (·.held.length) =
        thread'.held.length := by
      rw [List.getElem?_set_self hlt]
      rfl
    have hhead := ha.head_eq
    have hhanded : handedOf (log ++ [signal]) = handedOf log := ha.handedOf_eq
    simp only [hstep, hthread']
    refine ⟨_, _, hafter, hcall, hcount.trans hhead.symm, ?_, fun sum hjob hlength => ?_⟩
    · rw [worthOf, hhanded]
      exact hsum
    · rw [hhanded] at hlength
      exact hfresh sum hjob (hlength.trans hhead)
  | worked hin hwork =>
    obtain ⟨log', h'⟩ := h.worked hwork
    exact ⟨wins, log', h'⟩
  | finished hin hjob =>
    obtain ⟨hpublishing, hcall, hcount, hsum, -⟩ := h
    rw [hjob] at hcall hcount hsum
    exact ⟨wins, log, hpublishing, hcall, hcount, hsum, nofun⟩
  | _ =>
    obtain ⟨hpublishing, hcall, hcount, hsum, hfresh⟩ := h
    exact ⟨wins, log, hpublishing, hcall, hcount, hsum, hfresh⟩

/-! ## Producers that are done -/

/-- A producer that is done has published its share and is in no call. -/
theorem producerDone_iff {pub : Publisher} {thread : ProducerThread}
    (hpub : s.publishers[p]? = some pub) (hthread : s.threads.producers[p]? = some thread) :
    s.producerDone w p = true ↔ pub = ⟨w.per, none, false⟩ ∧ thread.call = none := by
  obtain ⟨sent, unwritten, committing⟩ := pub
  simp only [producerDone, hpub, hthread, Option.all_some, Bool.and_eq_true, beq_iff_eq,
    Option.isNone_iff_eq_none, Bool.not_eq_true', Publisher.mk.injEq, and_assoc]

/-- It takes no more turns. -/
theorem produceNext_of_done {pub : Publisher} {thread : ProducerThread}
    (hpub : s.publishers[p]? = some pub) (hthread : s.threads.producers[p]? = some thread)
    (hdone : s.producerDone w p = true) (spurious : Bool) :
    produceNext w p pub thread spurious = none := by
  obtain ⟨rfl, hcall⟩ := (producerDone_iff hpub hthread).1 hdone
  simp [produceNext, hcall]

/-- How many producers the main thread has joined. -/
def joinedOf (w : Workload) : MainStage → Nat
  | .joining p => p
  | _ => w.producers

/-- The producers that are joined are done. -/
def Joined (w : Workload) (s : Pipeline cap) : Prop :=
  ∀ p < joinedOf w s.main, s.producerDone w p = true

theorem joined_init (w : Workload) : Joined w (init w : Pipeline cap) := nofun

theorem Joined.turned (h : Joined w s) (hbalanced : Balanced w wins log s)
    (ht : Turned w s closer server turn s' closer' server') : Joined w s' := by
  cases ht with
  | @produced q spurious pub thread move hpub hthread hnext =>
    intro p hp
    have hdone := h p hp
    have hne : q ≠ p := by
      rintro rfl
      cases hnext.symm.trans (produceNext_of_done hpub hthread hdone spurious)
    obtain ⟨signal, thread', ring, new, hstep, -, -⟩ :=
      hbalanced.publishing.produce hpub hthread hnext
    simp only [producerDone, hstep, List.getElem?_set_ne hne]
    exact hdone
  | worked hin hwork =>
    cases hwork with
    | started =>
      have hproducers := (reading_step (stepOf s.threads _) (.inl ⟨readLimit, rfl⟩)).1
      intro p hp
      simp only [producerDone, hproducers]
      exact h p hp
    | accessed =>
      have hproducers := (reading_step (stepOf s.threads (.consume false)) (.inr rfl)).1
      intro p hp
      simp only [producerDone, hproducers]
      exact h p hp
    | counted | summed => exact h
  | called hmain =>
    unfold Joined at h
    rw [hmain] at h
    exact h
  | @advanced deadline main hadvance =>
    unfold Joined at h
    generalize s.main = stage at h hadvance
    cases hadvance with
    | @joined p hdone =>
      intro q hq
      rcases Nat.lt_succ_iff_lt_or_eq.1 hq with hlt | rfl
      · exact h q hlt
      · exact hdone
    | _ => exact h
  | _ => exact h

/-! ## The balance -/

/-- Every claim is counted, or about to be counted, or in the ring. -/
theorem Balanced.count_tail (h : Balanced w wins log s) :
    s.consumed + s.job.uncounted + s.threads.ring.len = s.threads.ring.tail := by
  have hle := h.publishing.sound.inv.owned.head_le_tail
  rw [h.accounted.count, Ring.len, distance_of_le hle]
  omega

/-- No more is counted or in the ring than there is to publish. -/
theorem Balanced.le_total (h : Balanced w wins log s) :
    s.consumed + s.threads.ring.len ≤ w.total := by
  have hcount := h.count_tail
  have htail := h.publishing.tail_le
  omega

/-- Everything is counted or in the ring once the producers are done, between two `doWork`s. -/
theorem Balanced.eq_total (h : Balanced w wins log s)
    (hdone : ∀ p < w.producers, s.producerDone w p = true) (hjob : s.job = .start) :
    s.consumed + s.threads.ring.len = w.total := by
  have hwon : ∀ p < w.producers, (wonBy wins p).length = w.per := by
    intro p hp
    obtain ⟨pub, thread, hpub, hthread, hmine⟩ := h.publishing.exists_at hp
    obtain ⟨rfl, -⟩ := (producerDone_iff hpub hthread).1 (hdone p hp)
    exact hmine.length_eq rfl
  have hcount := h.count_tail
  rw [hjob, h.publishing.tail_eq_total hwon] at hcount
  exact hcount

/-- When everything is counted, the checksum is the same whatever the turns were. -/
theorem Balanced.checksum_eq (h : Balanced w wins log s) (hall : s.consumed = w.total)
    (hjob : s.job = .start) : s.checksum = UInt64.ofNat (checksumOf w) := by
  obtain ⟨hcall, hcount, hsum, -⟩ := h.accounted
  rw [hjob] at hcall hcount hsum
  have hlevel := h.publishing.sound.level
  rw [show s.threads.consumer = none from hcall] at hlevel
  have hhanded : (handedOf log).length = w.total :=
    hlevel.trans (hcount.symm.trans hall)
  rw [← worthOf_eq h.publishing hhanded, ← hsum]
  exact (UInt64.add_zero _).symm

/-- The counter never goes back. -/
theorem Turned.consumed_le (ht : Turned w s closer server turn s' closer' server') :
    s.consumed ≤ s'.consumed := by
  cases ht with
  | worked hin hwork =>
    cases hwork with
    | counted => exact Nat.le_add_right _ _
    | _ => exact Nat.le_refl _
  | _ => exact Nat.le_refl _

end Pipeline

end RingTransport.Bench
