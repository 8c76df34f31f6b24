/-
  Threads around a ring, step by step. Every step of every thread has one of few effects
  on the ring, the live claims and the reader (`effect_step`), and each of them keeps the
  invariant `Inv`. So it holds in every state that a ring and its threads reach, for one
  producer thread or for any number of them, whatever the callbacks of the reader do
  (`inv_run`). Main fact: the number of claimed slots stays between zero and the capacity,
  no two live claims share a slot, and a slot that the reader has found ready belongs to
  no live claim until the head has moved past it (`exclusive_slots`).
-/
import RingTransport.Proofs.Ring.Ownership
import RingTransport.Proofs.Ring.Steps

namespace RingTransport.Threads

open RingTransport.Ring
open scoped List

variable {kind : Kind} {cap : Capacity} {α : Type}

/-- The live claims of all producer threads. -/
def live (s : Threads kind cap α) : List Nat := liveOf s.producers

/-! ## The effects of steps -/

/-- A signal that shows neither a commit nor a message handed over. -/
def Signal.isPlain : Signal α → Bool
  | .committed _ _ _ => false
  | .handed _ _ => false
  | _ => true

/-- What a step does to the ring, the live claims and the reader. What it does to the
stages of producers is left out. -/
inductive Effect : Ring kind cap α → List Nat → Option ConsumerCall → Signal α →
    Ring kind cap α → List Nat → Option ConsumerCall → Prop where
  /-- Only the stage of a producer moves, or nothing at all. -/
  | still {r live c signal} (hplain : signal.isPlain = true) : Effect r live c signal r live c
  /-- The tail moves over a number, whose claim is live from now on. -/
  | take {r live c signal} (hroom : r.tail < r.head + cap.size) (hplain : signal.isPlain = true) :
    Effect r live c signal (r.setTail (r.tail + 1)) (r.tail :: live) c
  | tag {r live c p seq} (hseq : seq ∈ live) :
    Effect r live c (.claimed p seq) (r.mark (cap.indexOf seq) .claimed) live c
  | write {r live c p seq message} (hseq : seq ∈ live) :
    Effect r live c (.wrote p seq message) (r.write (cap.indexOf seq) message) live c
  | commit {r live c p seq} (hseq : seq ∈ live) :
    Effect r live c (.committed p seq (r.slotOf seq)) (r.commit (cap.indexOf seq))
      (live.erase seq) c
  | abandon {r live c p seq} (hseq : seq ∈ live) :
    Effect r live c (.abandoned p seq) r (live.erase seq) c
  | startRead {r live} (limit : Nat) :
    Effect r live none (.readStarted limit) r live (some (.reading (.start limit)))
  | startMeasure {r live} :
    Effect r live none .measureReadStarted r live (some (.measuring .start))
  /-- The reader makes the next access of its call. -/
  | consume {r live} (fails : Bool) (call : ConsumerCall) :
    Effect r live (some call) (consumeAccess fails call r).1 (consumeAccess fails call r).2.2 live
      (consumeAccess fails call r).2.1

/-- What a producer knows of the counters in the middle of a claim. With one producer the
tail moves by its own steps only; with many, all that is known is that the head never goes
back. -/
def CallSound (r : Ring kind cap α) : ProducerCall → Prop
  | .claiming (.loaded counter) =>
    match kind with
    | .oneProducer => counter = r.tail
    | .manyProducers => counter ≤ r.head
  | .claiming (.room tail) =>
    tail < r.head + cap.size ∧ (kind = .oneProducer → tail = r.tail)
  | _ => True

/-- What holds between any two steps. -/
structure Inv (s : Threads kind cap α) : Prop where
  alone : kind = .oneProducer → s.producers.length ≤ 1
  owned : s.ring.Owned s.live
  calls : ∀ t ∈ s.producers, ∀ call, t.call = some call → CallSound s.ring call
  reader : ∀ stage, s.consumer = some (.reading stage) → s.ring.ReadSound s.live stage

theorem claimAccess_start (spurious : Bool) (r : Ring kind cap α) :
    ∃ counter, r.claimAccess spurious .start = (.going (.loaded counter), r) ∧
      CallSound r (.claiming (.loaded counter)) := by
  cases kind with
  | oneProducer => exact ⟨r.tail, rfl, rfl⟩
  | manyProducers => exact ⟨r.head, rfl, Nat.le_refl _⟩

/-- The comparison of the counters: a claim goes on only if there is room below the tail
it is going to move. -/
theorem claimAccess_loaded {r : Ring kind cap α} {counter : Nat} (hle : r.head ≤ r.tail)
    (h : CallSound r (.claiming (.loaded counter))) (spurious : Bool) :
    r.claimAccess spurious (.loaded counter) = (.refused, r) ∨
      ∃ tail, r.claimAccess spurious (.loaded counter) = (.going (.room tail), r) ∧
        CallSound r (.claiming (.room tail)) := by
  cases kind with
  | oneProducer =>
    obtain rfl : counter = r.tail := h
    by_cases hfull : cap.size ≤ distance r.tail r.head
    · exact .inl (by simp only [claimAccess, if_pos hfull])
    · refine .inr ⟨r.tail, by simp only [claimAccess, if_neg hfull], ?_, fun _ => rfl⟩
      rw [distance_of_le hle] at hfull
      omega
  | manyProducers =>
    have hhead : counter ≤ r.head := h
    by_cases hfull : cap.size ≤ distance r.tail counter
    · exact .inl (by simp only [claimAccess, if_pos hfull])
    · refine .inr ⟨r.tail, by simp only [claimAccess, if_neg hfull], ?_, Kind.noConfusion⟩
      rw [distance_of_le (Nat.le_trans hhead hle)] at hfull
      omega

/-- Moving the tail. With many producers the claim may be lost to another thread, or for no
reason. -/
theorem claimAccess_room {r : Ring kind cap α} {tail : Nat}
    (h : CallSound r (.claiming (.room tail))) (spurious : Bool) :
    (kind = .manyProducers ∧ r.claimAccess spurious (.room tail) = (.lost, r)) ∨
      (r.tail < r.head + cap.size ∧
        ((kind = .oneProducer ∧
            r.claimAccess spurious (.room tail) = (.taken r.tail, r.setTail (r.tail + 1))) ∨
          (kind = .manyProducers ∧
            r.claimAccess spurious (.room tail) =
              (.going (.won r.tail), r.setTail (r.tail + 1))))) := by
  obtain ⟨hroom, htail⟩ := h
  cases kind with
  | oneProducer =>
    obtain rfl := htail rfl
    exact .inr ⟨hroom, .inl ⟨rfl, rfl⟩⟩
  | manyProducers =>
    by_cases hwon : r.tail = tail ∧ spurious = false
    · obtain ⟨rfl, rfl⟩ := hwon
      exact .inr ⟨hroom, .inr ⟨rfl, by simp only [claimAccess, and_self, if_true]⟩⟩
    · exact .inl ⟨rfl, by simp only [claimAccess, if_neg hwon]⟩

theorem claimAccess_won (spurious : Bool) (seq : Nat) (r : Ring kind cap α) :
    (kind = .oneProducer ∧ r.claimAccess spurious (.won seq) = (.taken seq, r)) ∨
      (kind = .manyProducers ∧
        r.claimAccess spurious (.won seq) = (.taken seq, r.mark (cap.indexOf seq) .claimed)) := by
  cases kind with
  | oneProducer => exact .inl ⟨rfl, rfl⟩
  | manyProducers => exact .inr ⟨rfl, rfl⟩

/-- What the next access of a producer's call does to its thread and to the ring. -/
inductive Produced (p : Nat) (r : Ring kind cap α) (t : ProducerThread) :
    Signal α → ProducerThread → Ring kind cap α → Prop where
  | still {signal t'} (hplain : signal.isPlain = true) (hlive : t'.live = t.live)
    (hcall : ∀ call, t'.call = some call → CallSound r call) : Produced p r t signal t' r
  | take {signal t'} (hroom : r.tail < r.head + cap.size) (hplain : signal.isPlain = true)
    (hlive : t'.live = r.tail :: t.live)
    (hcall : ∀ call, t'.call = some call → CallSound (r.setTail (r.tail + 1)) call) :
    Produced p r t signal t' (r.setTail (r.tail + 1))
  | tag {seq t'} (hlive : t'.live = t.live) (hseq : seq ∈ t.live) (hcall : t'.call = none) :
    Produced p r t (.claimed p seq) t' (r.mark (cap.indexOf seq) .claimed)

theorem produced_measuring (p : Nat) (spurious : Bool) (stage : LenStage) (held : List Nat)
    (r : Ring kind cap α) :
    Produced p r ⟨some (.measuring stage), held⟩
      (produceAccess p spurious (.measuring stage) held r).1
      (produceAccess p spurious (.measuring stage) held r).2.1
      (produceAccess p spurious (.measuring stage) held r).2.2 := by
  cases stage with
  | start =>
    refine .still rfl rfl fun call hcall => ?_
    obtain rfl : .measuring (.loaded r.head) = call := Option.some.inj hcall
    trivial
  | loaded head => exact .still rfl rfl nofun

theorem produced_claiming (p : Nat) (spurious : Bool) {stage : ClaimStage} (held : List Nat)
    {r : Ring kind cap α} (hle : r.head ≤ r.tail) (h : CallSound r (.claiming stage)) :
    Produced p r ⟨some (.claiming stage), held⟩
      (produceAccess p spurious (.claiming stage) held r).1
      (produceAccess p spurious (.claiming stage) held r).2.1
      (produceAccess p spurious (.claiming stage) held r).2.2 := by
  cases stage with
  | start =>
    obtain ⟨counter, hacc, hsound⟩ := claimAccess_start spurious r
    simp only [produceAccess, hacc]
    refine .still rfl rfl fun call hcall => ?_
    obtain rfl := Option.some.inj hcall
    exact hsound
  | loaded counter =>
    rcases claimAccess_loaded hle h spurious with hacc | ⟨tail, hacc, hsound⟩
    · simp only [produceAccess, hacc]
      exact .still rfl rfl nofun
    · simp only [produceAccess, hacc]
      refine .still rfl rfl fun call hcall => ?_
      obtain rfl := Option.some.inj hcall
      exact hsound
  | room tail =>
    rcases claimAccess_room h spurious with ⟨-, hacc⟩ | ⟨hroom, ⟨-, hacc⟩ | ⟨-, hacc⟩⟩
    · simp only [produceAccess, hacc]
      refine .still rfl rfl fun call hcall => ?_
      obtain rfl := Option.some.inj hcall
      trivial
    · simp only [produceAccess, hacc]
      exact .take hroom rfl rfl nofun
    · simp only [produceAccess, hacc]
      refine .take hroom rfl rfl fun call hcall => ?_
      obtain rfl := Option.some.inj hcall
      trivial
  | won seq =>
    rcases claimAccess_won spurious seq r with ⟨-, hacc⟩ | ⟨-, hacc⟩
    · simp only [produceAccess, hacc]
      exact .still rfl rfl nofun
    · simp only [produceAccess, hacc]
      exact .tag rfl (List.mem_cons_self ..) rfl

theorem produced (p : Nat) (spurious : Bool) {call : ProducerCall} (held : List Nat)
    {r : Ring kind cap α} (hle : r.head ≤ r.tail) (h : CallSound r call) :
    Produced p r ⟨some call, held⟩ (produceAccess p spurious call held r).1
      (produceAccess p spurious call held r).2.1 (produceAccess p spurious call held r).2.2 := by
  cases call with
  | claiming stage => exact produced_claiming p spurious held hle h
  | measuring stage => exact produced_measuring p spurious stage held r

/-! ## Every step has an effect -/

theorem effect_produced {p : Nat} {r r' : Ring kind cap α} {ps : List ProducerThread}
    {t t' : ProducerThread} {signal : Signal α} (ht : ps[p]? = some t)
    (h : Produced p r t signal t' r') (c : Option ConsumerCall) :
    ∃ live', liveOf (ps.set p t') ~ live' ∧ Effect r (liveOf ps) c signal r' live' c := by
  cases h with
  | still hplain hlive _ =>
    exact ⟨_, .of_eq (liveOf_set_same ht hlive), .still hplain⟩
  | take hroom hplain hlive _ =>
    exact ⟨_, liveOf_set_cons ht hlive, .take hroom hplain⟩
  | tag hlive hseq _ =>
    exact ⟨_, .of_eq (liveOf_set_same ht hlive), .tag (mem_liveOf ht hseq)⟩

theorem StepOf.effect {s s' : Threads kind cap α} {move : Move α} {signal : Signal α}
    (hs : StepOf s move signal s') (h : Inv s) :
    ∃ live', s'.live ~ live' ∧
      Effect s.ring s.live s.consumer signal s'.ring live' s'.consumer := by
  cases hs with
  | ignored => exact ⟨_, .refl _, .still rfl⟩
  | claim hp | measure hp => exact ⟨_, .of_eq (liveOf_set_same hp rfl), .still rfl⟩
  | produce hp spurious =>
    have hcall := h.calls _ (List.mem_of_getElem? hp) _ rfl
    exact effect_produced hp (produced _ spurious _ h.owned.head_le_tail hcall) _
  | write hp hseq message => exact ⟨_, .refl _, .write (mem_liveOf hp hseq)⟩
  | commit hp hseq => exact ⟨_, liveOf_set_erase hp hseq rfl, .commit (mem_liveOf hp hseq)⟩
  | abandon hp hseq => exact ⟨_, liveOf_set_erase hp hseq rfl, .abandon (mem_liveOf hp hseq)⟩
  | read limit => exact ⟨_, .refl _, .startRead limit⟩
  | measureRead => exact ⟨_, .refl _, .startMeasure⟩
  | consume call fails => exact ⟨_, .refl _, .consume fails call⟩

theorem effect_step {s : Threads kind cap α} (h : Inv s) (move : Move α) :
    ∃ live', (s.step move).2.live ~ live' ∧
      Effect s.ring s.live s.consumer (s.step move).1 (s.step move).2.ring live'
        (s.step move).2.consumer :=
  (stepOf s move).effect h

/-! ## Effects keep the invariant -/

theorem consumeAccess_reading (fails : Bool) (stage : ReadStage) (r : Ring kind cap α) :
    (consumeAccess fails (.reading stage) r).2 =
      ((r.readAccess fails stage).1.stage?.map .reading, (r.readAccess fails stage).2) := by
  simp only [consumeAccess]
  generalize r.readAccess fails stage = acc
  obtain ⟨progress, r'⟩ := acc
  cases progress <;> rfl

/-- Measuring the ring is no reading, and leaves the ring alone. -/
theorem consumeAccess_measuring (fails : Bool) (stage : LenStage) (r : Ring kind cap α) :
    (consumeAccess fails (.measuring stage) r).2.2 = r ∧
      ∀ stage', (consumeAccess fails (.measuring stage) r).2.1 ≠ some (.reading stage') := by
  cases stage <;> exact ⟨rfl, nofun⟩

/-- The reader never moves the tail. -/
@[simp] theorem tail_consumeAccess (fails : Bool) (call : ConsumerCall) (r : Ring kind cap α) :
    (consumeAccess fails call r).2.2.tail = r.tail := by
  cases call with
  | reading stage => rw [consumeAccess_reading, tail_readAccess]
  | measuring stage => rw [(consumeAccess_measuring fails stage r).1]

/-- Only an access of a producer moves the tail. -/
theorem StepOf.produce_of_tail {s s' : Threads kind cap α} {move : Move α} {signal : Signal α}
    (hs : StepOf s move signal s') (htail : s'.ring.tail ≠ s.ring.tail) :
    ∃ p spurious, move = .produce p spurious := by
  cases hs with
  | produce hp spurious => exact ⟨_, spurious, rfl⟩
  | consume call fails => exact absurd (tail_consumeAccess fails call _) htail
  | _ => exact absurd rfl htail

theorem Effect.keep {r r' : Ring kind cap α} {live live' : List Nat}
    {c c' : Option ConsumerCall} {signal : Signal α} (he : Effect r live c signal r' live' c')
    (ho : r.Owned live) (hr : ∀ stage, c = some (.reading stage) → r.ReadSound live stage) :
    r'.Owned live' ∧ ∀ stage, c' = some (.reading stage) → r'.ReadSound live' stage := by
  cases he with
  | still => exact ⟨ho, hr⟩
  | take hroom => exact ⟨ho.take hroom, fun stage hc => (hr stage hc).keep keeps_take⟩
  | tag hseq => exact ⟨ho.mark _ nofun, fun stage hc => (hr stage hc).keep (keeps_mark _ nofun)⟩
  | write hseq => exact ⟨ho.write _ _, fun stage hc => (hr stage hc).keep (keeps_write _ _)⟩
  | commit hseq => exact ⟨ho.commit hseq, fun stage hc => (hr stage hc).keep (keeps_commit ho hseq)⟩
  | abandon hseq => exact ⟨ho.erase _, fun stage hc => (hr stage hc).keep (keeps_erase _)⟩
  | startRead limit =>
    refine ⟨ho, fun stage hc => ?_⟩
    obtain rfl : .start limit = stage := by simpa using hc
    trivial
  | startMeasure => exact ⟨ho, nofun⟩
  | consume fails call =>
    cases call with
    | reading stage =>
      obtain ⟨ho', hr'⟩ := ho.readAccess (hr stage rfl) fails
      rw [consumeAccess_reading]
      refine ⟨ho', fun stage' hc => ?_⟩
      obtain ⟨stage'', hstage, heq⟩ := Option.map_eq_some_iff.1 hc
      obtain rfl : stage'' = stage' := by simpa using heq
      exact hr' stage'' hstage
    | measuring stage =>
      obtain ⟨hring, hno⟩ := consumeAccess_measuring fails stage r
      rw [hring]
      exact ⟨ho, fun stage' hc => absurd hc (hno stage')⟩

/-- The counters never go back. -/
theorem Effect.counters_le {r r' : Ring kind cap α} {live live' : List Nat}
    {c c' : Option ConsumerCall} {signal : Signal α} (he : Effect r live c signal r' live' c')
    (hr : ∀ stage, c = some (.reading stage) → r.ReadSound live stage) :
    r.head ≤ r'.head ∧ r.tail ≤ r'.tail := by
  cases he with
  | take => exact ⟨Nat.le_refl _, Nat.le_succ _⟩
  | consume fails call =>
    cases call with
    | reading stage =>
      rw [consumeAccess_reading, tail_readAccess]
      exact ⟨head_le_readAccess (hr stage rfl) fails, Nat.le_refl _⟩
    | measuring stage =>
      rw [(consumeAccess_measuring fails stage r).1]
      exact ⟨Nat.le_refl _, Nat.le_refl _⟩
  | _ => exact ⟨Nat.le_refl _, Nat.le_refl _⟩

/-- The tail moves by single numbers. -/
theorem Effect.tail_eq {r r' : Ring kind cap α} {live live' : List Nat}
    {c c' : Option ConsumerCall} {signal : Signal α} (he : Effect r live c signal r' live' c') :
    r'.tail = r.tail ∨ r'.tail = r.tail + 1 := by
  cases he with
  | take => exact .inr rfl
  | consume fails call => exact .inl (tail_consumeAccess fails call r)
  | _ => exact .inl rfl

/-- A claim that is live no more never becomes live again. -/
theorem Effect.not_live {r r' : Ring kind cap α} {live live' : List Nat}
    {c c' : Option ConsumerCall} {signal : Signal α} (he : Effect r live c signal r' live' c')
    {seq : Nat} (hlt : seq < r.tail) (hnot : seq ∉ live) : seq ∉ live' := by
  cases he with
  | take => exact keeps_take.not_live seq hlt hnot
  | commit | abandon => exact (keeps_erase _).not_live seq hlt hnot
  | _ => exact hnot

/-- Only the end of a read moves the head. -/
theorem Effect.head_eq {r r' : Ring kind cap α} {live live' : List Nat}
    {c c' : Option ConsumerCall} {signal : Signal α} (he : Effect r live c signal r' live' c')
    (hend : ∀ n, signal ≠ .readEnded n) : r'.head = r.head := by
  cases he with
  | consume fails call =>
    cases call with
    | reading stage =>
      rw [consumeAccess_reading]
      cases stage with
      | looking start count left => simp only [Ring.readAccess]; split <;> rfl
      | handing start count left => cases fails <;> rfl
      | leaving start count => exact absurd rfl (hend count)
      | _ => rfl
    | measuring stage => rw [(consumeAccess_measuring fails stage r).1]
  | _ => rfl

/-- The slot of a number of the lap that is no live claim keeps its content. -/
theorem Effect.slotOf_eq {r r' : Ring kind cap α} {live live' : List Nat}
    {c c' : Option ConsumerCall} {signal : Signal α} (he : Effect r live c signal r' live' c')
    (ho : r.Owned live) {seq : Nat} (hle : r.head ≤ seq) (hlt : seq < r.head + cap.size)
    (hnot : seq ∉ live) : r'.slotOf seq = r.slotOf seq := by
  cases he with
  | write hclaim => rw [slotOf_write, if_neg (ho.indexOf_ne hclaim hnot hle hlt)]
  | consume fails call =>
    cases call with
    | reading stage =>
      rw [consumeAccess_reading]
      cases stage with
      | looking start count left => simp only [Ring.readAccess]; split <;> rfl
      | handing start count left => cases fails <;> rfl
      | _ => rfl
    | measuring stage => rw [(consumeAccess_measuring fails stage r).1]
  | _ => rfl

/-! ## Calls of producers -/

theorem CallSound.mono {r r' : Ring kind cap α} {call : ProducerCall} (h : CallSound r call)
    (hhead : r.head ≤ r'.head) (htail : kind = .oneProducer → r'.tail = r.tail) :
    CallSound r' call := by
  cases call with
  | measuring stage => trivial
  | claiming stage =>
    cases stage with
    | start | won seq => trivial
    | loaded counter =>
      cases kind with
      | oneProducer => exact Eq.trans h (htail rfl).symm
      | manyProducers => exact Nat.le_trans h hhead
    | room tail =>
      obtain ⟨hroom, hone⟩ := h
      exact ⟨by omega, fun hkind => (hone hkind).trans (htail hkind).symm⟩

theorem mem_set_of_length_le_one {ps : List ProducerThread} {p : Nat} {t t' u : ProducerThread}
    (hlen : ps.length ≤ 1) (ht : ps[p]? = some t) (hu : u ∈ ps.set p t') : u = t' := by
  obtain ⟨hp, -⟩ := List.getElem?_eq_some_iff.1 ht
  match ps, hlen with
  | [v], _ =>
    obtain rfl : p = 0 := by simpa using hp
    simpa using hu

theorem calls_set {r r' : Ring kind cap α} {ps : List ProducerThread} {p : Nat}
    {t t' : ProducerThread} (ht : ps[p]? = some t) (hhead : r.head ≤ r'.head)
    (htail : kind = .oneProducer → ps.length ≤ 1 ∨ r'.tail = r.tail)
    (hcalls : ∀ u ∈ ps, ∀ call, u.call = some call → CallSound r call)
    (hcall : ∀ call, t'.call = some call → CallSound r' call) :
    ∀ u ∈ ps.set p t', ∀ call, u.call = some call → CallSound r' call := by
  intro u hu call huc
  rcases List.mem_or_eq_of_mem_set hu with hold | rfl
  · by_cases hkind : kind = .oneProducer ∧ r'.tail ≠ r.tail
    · -- the one producer is the thread that took the step
      have hlen := (htail hkind.1).resolve_right hkind.2
      obtain rfl := mem_set_of_length_le_one hlen ht hu
      exact hcall call huc
    · refine (hcalls u hold call huc).mono hhead fun hone => ?_
      by_contra hne
      exact hkind ⟨hone, hne⟩
  · exact hcall call huc

theorem calls_produced {p : Nat} {r r' : Ring kind cap α} {ps : List ProducerThread}
    {t t' : ProducerThread} {signal : Signal α} (halone : kind = .oneProducer → ps.length ≤ 1)
    (ht : ps[p]? = some t) (h : Produced p r t signal t' r')
    (hcalls : ∀ u ∈ ps, ∀ call, u.call = some call → CallSound r call) :
    ∀ u ∈ ps.set p t', ∀ call, u.call = some call → CallSound r' call := by
  refine calls_set ht ?_ (fun hone => .inl (halone hone)) hcalls ?_
  · cases h <;> exact Nat.le_refl _
  · cases h with
    | still _ _ hcall => exact hcall
    | take _ _ _ hcall => exact hcall
    | tag _ _ hnone => exact fun call hc => by rw [hnone] at hc; cases hc

theorem StepOf.calls {s s' : Threads kind cap α} {move : Move α} {signal : Signal α}
    (hs : StepOf s move signal s') (h : Inv s) :
    ∀ t ∈ s'.producers, ∀ call, t.call = some call → CallSound s'.ring call := by
  cases hs with
  | claim hp | measure hp =>
    refine calls_set hp (Nat.le_refl _) (fun _ => .inr rfl) h.calls fun call hc => ?_
    obtain rfl := Option.some.inj hc
    trivial
  | @produce r ps c p call held hp spurious =>
    have hcall := h.calls _ (List.mem_of_getElem? hp) call rfl
    have hprod := produced p spurious held h.owned.head_le_tail hcall
    exact calls_produced h.alone hp hprod h.calls
  | write hp hseq message =>
    exact fun t hmem call hc => (h.calls t hmem call hc).mono (Nat.le_refl _) fun _ => rfl
  | @commit r ps c p held seq hp hseq =>
    exact calls_set (r := r) hp (Nat.le_refl _) (fun _ => .inr rfl) h.calls nofun
  | @abandon r ps c p held seq hp hseq =>
    exact calls_set (r := r) hp (Nat.le_refl _) (fun _ => .inr rfl) h.calls nofun
  | consume call fails =>
    intro t hmem call' hc
    obtain ⟨_, _, he⟩ := (StepOf.consume call fails).effect h
    have hle := he.counters_le h.reader
    exact (h.calls t hmem call' hc).mono hle.1 fun _ => tail_consumeAccess fails call _
  | ignored | read | measureRead => exact h.calls

/-! ## Runs -/

/-- Idle threads around an empty ring; only one producer if the ring is made for one. -/
def Fresh (s : Threads kind cap α) : Prop :=
  ∃ producers slots, (kind = .oneProducer → producers ≤ 1) ∧ s = init producers (.ofSlots slots)

theorem Fresh.live_eq {s : Threads kind cap α} (h : s.Fresh) : s.live = [] := by
  obtain ⟨producers, slots, -, rfl⟩ := h
  simp [live, liveOf, init, ProducerThread.live]

theorem Fresh.inv {s : Threads kind cap α} (h : s.Fresh) : Inv s := by
  have hlive := h.live_eq
  obtain ⟨producers, slots, hone, rfl⟩ := h
  refine ⟨?_, ?_, ?_, nofun⟩
  · simpa [init] using hone
  · rw [hlive]
    exact owned_ofSlots slots
  · intro t ht call hcall
    obtain rfl := List.eq_of_mem_replicate ht
    cases hcall

theorem inv_step {s : Threads kind cap α} (h : Inv s) (move : Move α) : Inv (s.step move).2 := by
  obtain ⟨live', hlive, he⟩ := effect_step h move
  obtain ⟨howned, hreader⟩ := he.keep h.owned h.reader
  have hs := stepOf s move
  refine ⟨fun hone => ?_, howned.perm hlive.symm, hs.calls h, fun stage hstage => ?_⟩
  · rw [hs.length_eq]
    exact h.alone hone
  · exact (hreader stage hstage).perm hlive.symm

theorem inv_run {s : Threads kind cap α} (h : Inv s) (moves : List (Move α)) :
    Inv (s.run moves).2 := by
  induction moves generalizing s with
  | nil => exact h
  | cons move moves ih => exact ih (inv_step h move)

theorem head_le_run {s : Threads kind cap α} (h : Inv s) (moves : List (Move α)) :
    s.ring.head ≤ (s.run moves).2.ring.head := by
  induction moves generalizing s with
  | nil => exact Nat.le_refl _
  | cons move moves ih =>
    obtain ⟨_, _, he⟩ := effect_step h move
    exact Nat.le_trans (he.counters_le h.reader).1 (ih (inv_step h move))

/-- The head stays where it is until a read ends. -/
theorem head_run_eq {s : Threads kind cap α} (h : Inv s) {moves : List (Move α)}
    (hend : ∀ n, .readEnded n ∉ (s.run moves).1) : (s.run moves).2.ring.head = s.ring.head := by
  induction moves generalizing s with
  | nil => rfl
  | cons move moves ih =>
    obtain ⟨_, _, he⟩ := effect_step h move
    have hfirst := he.head_eq fun n hn => hend n (hn ▸ List.mem_cons_self ..)
    have hrest := ih (inv_step h move) fun n hn => hend n (List.mem_cons_of_mem _ hn)
    exact hrest.trans hfirst

/-- A taken number that is no live claim stays so, and until the head is past it its slot
keeps its content. -/
theorem retired_run {s : Threads kind cap α} (h : Inv s) (moves : List (Move α)) {seq : Nat}
    (hlt : seq < s.ring.tail) (hnot : seq ∉ s.live) (hle : (s.run moves).2.ring.head ≤ seq) :
    seq < (s.run moves).2.ring.tail ∧ seq ∉ (s.run moves).2.live ∧
      (s.run moves).2.ring.slotOf seq = s.ring.slotOf seq := by
  induction moves generalizing s with
  | nil => exact ⟨hlt, hnot, rfl⟩
  | cons move moves ih =>
    obtain ⟨live', hlive, he⟩ := effect_step h move
    have hcounters := he.counters_le h.reader
    have hhead : s.ring.head ≤ seq :=
      Nat.le_trans hcounters.1 (Nat.le_trans (head_le_run (inv_step h move) moves) hle)
    have hlap : seq < s.ring.head + cap.size := Nat.lt_of_lt_of_le hlt h.owned.tail_le_lap
    have hnot' : seq ∉ (s.step move).2.live := fun hmem =>
      he.not_live hlt hnot (hlive.mem_iff.1 hmem)
    obtain ⟨htail, hgone, hslot⟩ :=
      ih (inv_step h move) (Nat.lt_of_lt_of_le hlt hcounters.2) hnot' hle
    exact ⟨htail, hgone, hslot.trans (he.slotOf_eq h.owned hhead hlap hnot)⟩

/-! ## Exclusive slots -/

/-- The reader has found the slot of a number ready and hands its message over next. -/
def Sees (s : Threads kind cap α) (seq : Nat) : Prop :=
  ∃ start count left,
    s.consumer = some (.reading (.handing start count left)) ∧ seq = start + count

theorem retired_of_sees {s : Threads kind cap α} (h : Inv s) {seq : Nat} (hsees : s.Sees seq) :
    s.ring.head ≤ seq ∧ seq < s.ring.tail ∧ seq ∉ s.live := by
  obtain ⟨start, count, left, hstage, rfl⟩ := hsees
  obtain ⟨hp, hpos, hle, hnot⟩ := h.reader _ hstage
  have hstart := hp.start_eq
  exact ⟨by omega, by omega, hnot⟩

/-- Exclusive slots, for one producer thread or many, at the end of any run: the claimed
slots are never fewer than none nor more than the capacity; no two live claims share a
slot; and from the moment the reader has found a slot ready until the head has moved past
it, no live claim has that slot and nothing is written to it. The head stays at or before
the slot at least until a read has ended. -/
theorem exclusive_slots (producers : Nat) (hone : kind = .oneProducer → producers ≤ 1)
    (slots : Vector α cap.size) (moves : List (Move α)) :
    let start : Threads kind cap α := init producers (.ofSlots slots)
    let s := (start.run moves).2
    (s.ring.head ≤ s.ring.tail ∧ s.ring.tail ≤ s.ring.head + cap.size) ∧
    (s.live.map cap.indexOf).Nodup ∧
    ∀ before after seq, moves = before ++ after → (start.run before).2.Sees seq →
      ((∀ n, .readEnded n ∉ ((start.run before).2.run after).1) → s.ring.head ≤ seq) ∧
      (s.ring.head ≤ seq →
        (∀ claim ∈ s.live, cap.indexOf claim ≠ cap.indexOf seq) ∧
        s.ring.slotOf seq = (start.run before).2.ring.slotOf seq) := by
  intro start s
  have hstart : Inv start := Fresh.inv ⟨producers, slots, hone, rfl⟩
  have hs : Inv s := inv_run hstart moves
  refine ⟨⟨hs.owned.head_le_tail, hs.owned.tail_le_lap⟩, hs.owned.nodup_indexOf, ?_⟩
  rintro before after seq rfl hsees
  have hu : Inv (start.run before).2 := inv_run hstart before
  have hrun : s = ((start.run before).2.run after).2 := by
    show (start.run (before ++ after)).2 = _
    rw [run_append]
  obtain ⟨hle, hlt, hnot⟩ := retired_of_sees hu hsees
  refine ⟨fun hend => ?_, fun hhead => ?_⟩
  · rw [hrun, head_run_eq hu hend]
    exact hle
  · obtain ⟨htail, hgone, hslot⟩ := retired_run hu after hlt hnot (hrun ▸ hhead)
    rw [← hrun] at htail hgone hslot
    refine ⟨fun claim hclaim => ?_, hslot⟩
    exact hs.owned.indexOf_ne hclaim hgone hhead
      (Nat.lt_of_lt_of_le htail hs.owned.tail_le_lap)

/-- One producer commits message 0, claims message 1 and writes to it while message 0 is
being handed over. -/
theorem exclusive_slots_while_handing :
    let cap : Capacity := ⟨2, rfl⟩
    let slots : Vector Nat cap.size := Vector.replicate 2 0
    let start : Threads .oneProducer cap Nat := init 1 (.ofSlots slots)
    let claim : List (Move Nat) :=
      [.claim 0, .produce 0 false, .produce 0 false, .produce 0 false]
    let before := claim ++ [.write 0 0 7, .commit 0 0] ++ claim ++
      [.read 9, .consume false, .consume false, .consume false]
    let after : List (Move Nat) := [.write 0 1 8]
    let s := (start.run (before ++ after)).2
    (Kind.oneProducer = .oneProducer → 1 ≤ 1) ∧ (start.run before).2.Sees 0 ∧ s.live = [1] ∧
      (∀ claim ∈ s.live, cap.indexOf claim ≠ cap.indexOf 0) ∧ s.ring.slotOf 0 = 7 := by
  intro cap slots start claim before after s
  have hone : Kind.oneProducer = .oneProducer → 1 ≤ 1 := fun _ => Nat.le_refl 1
  have hsees : (start.run before).2.Sees 0 := ⟨0, 0, 2, by decide +kernel, rfl⟩
  obtain ⟨-, -, hslots⟩ := exclusive_slots 1 hone slots (before ++ after)
  have hhead : s.ring.head ≤ 0 := by decide +kernel
  obtain ⟨hapart, hkept⟩ := (hslots before after 0 rfl hsees).2 hhead
  have hlive : s.live = [1] := by decide +kernel
  have hseen : (start.run before).2.ring.slotOf 0 = 7 := by decide +kernel
  exact ⟨hone, hsees, hlive, hapart, hkept.trans hseen⟩

end RingTransport.Threads
