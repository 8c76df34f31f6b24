/-
  Producer threads that publish a workload, with a reader that never fails. A producer that is
  not done is in one of four phases (`Phase`), and each of its turns is one of ten
  (`Advance`). `Publishes` relates its place in the workload to the claims it has won, what it
  has written into them and which of them it has committed; every step of every thread keeps
  it (`Publishing.produce`, `Publishing.read`). Main facts: no more is claimed than there is
  to publish (`Publishing.tail_le`), and the messages of a producer come out in the order in
  which it publishes them (`Publishing.numbers`).
-/
import Mathlib.Algebra.BigOperators.Group.Finset.Piecewise
import Mathlib.Algebra.GroupWithZero.Nat
import Mathlib.Algebra.Order.BigOperators.Group.Finset
import RingTransport.Proofs.Ring.ReadRange
import RingTransport.Ring.Traffic

namespace RingTransport

open scoped List

/-! ## Runs in which no callback fails -/

namespace Threads

variable {kind : Kind} {cap : Capacity} {α : Type} {s : Threads kind cap α}
  {wins : List (Nat × Nat)} {log : List (Signal α)}

/-- What the claims won and the signals of a run say of the state it leads to. -/
structure Sound (wins : List (Nat × Nat)) (log : List (Signal α)) (s : Threads kind cap α) :
    Prop where
  inv : Inv s
  recorded : Recorded log s.ring s.live s.consumer
  kept : Kept log s.ring
  won : Won wins log s
  level : Level log s.ring s.consumer

theorem Fresh.sound (h : s.Fresh) : Sound [] [] s where
  inv := h.inv
  recorded := h.recorded []
  kept := nofun
  won := h.won
  level := by
    obtain ⟨producers, slots, -, rfl⟩ := h
    exact rfl

theorem Sound.step (h : Sound wins log s) (move : Move α)
    (hnot : ∀ seq message, (s.step move).1 ≠ .failed seq message) :
    Sound (wins ++ winOf s move) (log ++ [(s.step move).1]) (s.step move).2 := by
  obtain ⟨live', hlive, he⟩ := effect_step h.inv move
  exact {
    inv := inv_step h.inv move
    recorded := (recorded_effect h.recorded he h.inv.owned h.inv.reader).perm hlive.symm
    kept := kept_effect h.kept h.recorded he h.inv.owned h.inv.reader
    won := won_step h.won h.inv move
    level := level_effect h.level he h.inv.reader hnot }

end Threads

namespace Traffic

open Threads

/-- The counter that a claim loads first. -/
def firstLoad {kind : Kind} {cap : Capacity} (r : Ring kind cap Parcel) : Nat :=
  match kind with
  | .oneProducer => r.tail
  | .manyProducers => r.head

variable {kind : Kind} {cap : Capacity} {w : Workload} {p : Nat} {r r' : Ring kind cap Parcel}
  {pub pub' : Publisher} {t t' : ProducerThread} {signal : Signal Parcel} {won new : List Nat}
  {spurious : Bool}

/-! ## Phases of a producer -/

/-- Where a producer stands, by its place in the workload and its thread. -/
inductive Phase (w : Workload) : Publisher → ProducerThread → Prop
  /-- The batch is not claimed in full yet, or there is nothing left to publish. -/
  | idle {sent held}
      (hheld : held.length < batchAt w ⟨sent, none, false⟩ ∨ sent = w.per ∧ held = []) :
      Phase w ⟨sent, none, false⟩ ⟨none, held⟩
  | claiming {sent stage held} (hheld : held.length < batchAt w ⟨sent, none, false⟩) :
      Phase w ⟨sent, none, false⟩ ⟨some (.claiming stage), held⟩
  | writing {sent seq rest} (hrest : rest.length < batchAt w ⟨sent, none, false⟩) :
      Phase w ⟨sent, some seq, false⟩ ⟨none, seq :: rest⟩
  | committing {sent seq rest} (hrest : rest.length < batchAt w ⟨sent, none, false⟩) :
      Phase w ⟨sent, none, true⟩ ⟨none, seq :: rest⟩

/-- What a turn of a producer that is not done shows, and how it leaves its place in the
workload, its thread and the ring. The list has the claim it has won, if it has. -/
inductive Advance (w : Workload) (p : Nat) (spurious : Bool) (r : Ring kind cap Parcel) :
    Publisher → ProducerThread → Signal Parcel →
      Publisher → ProducerThread → Ring kind cap Parcel → List Nat → Prop
  | start {sent held} (hsent : sent < w.per) :
      Advance w p spurious r ⟨sent, none, false⟩ ⟨none, held⟩ (.claimStarted p)
        ⟨sent, none, false⟩ ⟨some (.claiming .start), held⟩ r []
  | load {sent held} :
      Advance w p spurious r ⟨sent, none, false⟩ ⟨some (.claiming .start), held⟩ .quiet
        ⟨sent, none, false⟩ ⟨some (.claiming (.loaded (firstLoad r))), held⟩ r []
  /-- There is room, by the counters as they were loaded. -/
  | check {sent counter held} :
      Advance w p spurious r ⟨sent, none, false⟩ ⟨some (.claiming (.loaded counter)), held⟩ .quiet
        ⟨sent, none, false⟩ ⟨some (.claiming (.room r.tail)), held⟩ r []
  /-- A claim that is refused by a counter that has not changed finds the ring full. -/
  | refused {sent counter held} (hfull : counter = firstLoad r → r.head + cap.size ≤ r.tail) :
      Advance w p spurious r ⟨sent, none, false⟩ ⟨some (.claiming (.loaded counter)), held⟩
        (.refused p) ⟨sent, none, false⟩ ⟨none, held⟩ r []
  | lost {sent tail held} (hlost : tail = r.tail → spurious = true) :
      Advance w p spurious r ⟨sent, none, false⟩ ⟨some (.claiming (.room tail)), held⟩ (.lost p)
        ⟨sent, none, false⟩ ⟨some (.claiming .start), held⟩ r []
  | win {sent tail held} :
      Advance w p spurious r ⟨sent, none, false⟩ ⟨some (.claiming (.room tail)), held⟩ .quiet
        ⟨sent, none, false⟩ ⟨some (.claiming (.won r.tail)), held⟩ (r.setTail (r.tail + 1))
        [r.tail]
  | take {sent tail held} :
      Advance w p spurious r ⟨sent, none, false⟩ ⟨some (.claiming (.room tail)), held⟩
        (.claimed p r.tail) ⟨sent, some r.tail, false⟩ ⟨none, r.tail :: held⟩
        (r.setTail (r.tail + 1)) [r.tail]
  | tag {sent seq held r'} (htail : r'.tail = r.tail) (hhead : r'.head = r.head)
      (hslot : r'.slotOf = r.slotOf) :
      Advance w p spurious r ⟨sent, none, false⟩ ⟨some (.claiming (.won seq)), held⟩
        (.claimed p seq)
        ⟨sent, some seq, false⟩ ⟨none, seq :: held⟩ r' []
  | write {sent seq rest} :
      Advance w p spurious r ⟨sent, some seq, false⟩ ⟨none, seq :: rest⟩
        (.wrote p seq ⟨p, sent + rest.length⟩)
        ⟨sent, none, rest.length + 1 == batchAt w ⟨sent, none, false⟩⟩ ⟨none, seq :: rest⟩
        (r.write (cap.indexOf seq) ⟨p, sent + rest.length⟩) []
  | commit {sent seq rest} :
      Advance w p spurious r ⟨sent, none, true⟩ ⟨none, seq :: rest⟩
        (.committed p seq (r.slotOf seq))
        (if rest.length = 0 then ⟨sent + batchAt w ⟨sent, none, false⟩, none, false⟩
          else ⟨sent, none, true⟩)
        ⟨none, rest⟩ (r.commit (cap.indexOf seq)) []

theorem batchAt_le (w : Workload) (pub : Publisher) : batchAt w pub ≤ w.per - pub.sent :=
  Nat.min_le_right _ _

theorem batchAt_pos (hsent : pub.sent < w.per) : 0 < batchAt w pub := by
  unfold batchAt
  omega

/-- A producer that claims, or has claims to write or to commit, is not done. -/
theorem sent_lt_of_lt_batchAt {n : Nat} (h : n < batchAt w pub) : pub.sent < w.per := by
  have := batchAt_le w pub
  omega

theorem Phase.sent_le (h : Phase w pub t) : pub.sent ≤ w.per := by
  cases h with
  | idle hheld =>
    rcases hheld with hheld | ⟨rfl, -⟩
    · exact Nat.le_of_lt (sent_lt_of_lt_batchAt hheld)
    · exact Nat.le_refl _
  | claiming hheld | writing hheld => exact Nat.le_of_lt (sent_lt_of_lt_batchAt hheld)
  | committing hrest => exact Nat.le_of_lt (sent_lt_of_lt_batchAt hrest)

/-- Each turn leads from a phase to a phase. -/
theorem Advance.phase (h : Advance w p spurious r pub t signal pub' t' r' new)
    (hphase : Phase w pub t) : Phase w pub' t' := by
  cases h with
  | start hsent =>
    cases hphase with
    | idle hheld => exact .claiming (hheld.resolve_right fun hdone => by omega)
  | load | check | lost | win =>
    cases hphase with
    | claiming hheld => exact .claiming hheld
  | refused =>
    cases hphase with
    | claiming hheld => exact .idle (.inl hheld)
  | take | tag =>
    cases hphase with
    | claiming hheld => exact .writing hheld
  | @write sent seq rest =>
    cases hphase with
    | writing hrest =>
      by_cases hfull : rest.length + 1 = batchAt w ⟨sent, none, false⟩
      · rw [beq_iff_eq.2 hfull]
        exact .committing hrest
      · rw [beq_eq_false_iff_ne.2 hfull]
        refine .idle (.inl ?_)
        rw [List.length_cons]
        omega
  | @commit sent seq rest =>
    cases hphase with
    | committing hrest =>
      cases rest with
      | nil =>
        have hle := batchAt_le w ⟨sent, none, false⟩
        have hsent := sent_lt_of_lt_batchAt hrest
        refine .idle ?_
        rcases Nat.lt_or_ge (sent + batchAt w ⟨sent, none, false⟩) w.per with hlt | hge
        · exact .inl (batchAt_pos hlt)
        · exact .inr ⟨by simp only at hle hsent; omega, rfl⟩
      | cons seq' rest =>
        rw [List.length_cons] at hrest
        exact .committing (by omega)

/-! ## Turns of a producer -/

theorem set_of_getElem? {α : Type} {l : List α} {i : Nat} {x : α} (h : l[i]? = some x) :
    l.set i x = l := by
  obtain ⟨hi, rfl⟩ := List.getElem?_eq_some_iff.1 h
  exact List.set_getElem_self hi

/-- An access of a claim is one of the turns. -/
theorem advance_claiming {sent : Nat} {held : List Nat} {stage : Ring.ClaimStage}
    (spurious : Bool) (hle : r.head ≤ r.tail) (h : CallSound r (.claiming stage)) :
    ∃ new, (new = [] ∧ (produceAccess p spurious (.claiming stage) held r).2.2.tail = r.tail ∨
        new = [r.tail] ∧
          (produceAccess p spurious (.claiming stage) held r).2.2.tail = r.tail + 1) ∧
      Advance w p spurious r ⟨sent, none, false⟩ ⟨some (.claiming stage), held⟩
        (produceAccess p spurious (.claiming stage) held r).1
        (after w (produceAccess p spurious (.claiming stage) held r).2.1.held.length
          ⟨sent, none, false⟩ (produceAccess p spurious (.claiming stage) held r).1)
        (produceAccess p spurious (.claiming stage) held r).2.1
        (produceAccess p spurious (.claiming stage) held r).2.2 new := by
  cases stage with
  | start =>
    have hload : r.claimAccess spurious .start = (.going (.loaded (firstLoad r)), r) := by
      cases kind <;> rfl
    simp only [produceAccess, hload]
    exact ⟨[], .inl ⟨rfl, trivial⟩, .load⟩
  | loaded counter =>
    have hcheck : (r.claimAccess spurious (.loaded counter) = (.refused, r) ∧
        (counter = firstLoad r → r.head + cap.size ≤ r.tail)) ∨
          r.claimAccess spurious (.loaded counter) = (.going (.room r.tail), r) := by
      cases kind with
      | oneProducer =>
        obtain rfl : counter = r.tail := h
        by_cases hfull : cap.size ≤ distance r.tail r.head
        · refine .inl ⟨by simp only [Ring.claimAccess, if_pos hfull], fun _ => ?_⟩
          rw [distance_of_le hle] at hfull
          omega
        · exact .inr (by simp only [Ring.claimAccess, if_neg hfull])
      | manyProducers =>
        by_cases hfull : cap.size ≤ distance r.tail counter
        · refine .inl ⟨by simp only [Ring.claimAccess, if_pos hfull], ?_⟩
          rintro rfl
          rw [firstLoad, distance_of_le hle] at hfull
          omega
        · exact .inr (by simp only [Ring.claimAccess, if_neg hfull])
    rcases hcheck with ⟨hacc, hfull⟩ | hacc
    · simp only [produceAccess, hacc]
      exact ⟨[], .inl ⟨rfl, trivial⟩, .refused hfull⟩
    · simp only [produceAccess, hacc]
      exact ⟨[], .inl ⟨rfl, trivial⟩, .check⟩
  | room tail =>
    rcases claimAccess_room h spurious with ⟨hmany, hacc⟩ | ⟨-, ⟨-, hacc⟩ | ⟨-, hacc⟩⟩
    · have hlost : tail = r.tail → spurious = true := by
        subst hmany
        rintro rfl
        cases spurious with
        | true => rfl
        | false => simp [Ring.claimAccess] at hacc
      simp only [produceAccess, hacc]
      exact ⟨[], .inl ⟨rfl, trivial⟩, .lost hlost⟩
    · simp only [produceAccess, hacc]
      exact ⟨[r.tail], .inr ⟨rfl, rfl⟩, .take⟩
    · simp only [produceAccess, hacc]
      exact ⟨[r.tail], .inr ⟨rfl, rfl⟩, .win⟩
  | won seq =>
    rcases claimAccess_won spurious seq r with ⟨-, hacc⟩ | ⟨-, hacc⟩
    · simp only [produceAccess, hacc]
      exact ⟨[], .inl ⟨rfl, trivial⟩, .tag rfl rfl rfl⟩
    · simp only [produceAccess, hacc]
      exact ⟨[], .inl ⟨rfl, rfl⟩, .tag rfl rfl rfl⟩

/-- The next move of a producer is one of the turns. -/
theorem exists_advance {s : Threads kind cap Parcel} {move : Move Parcel} {spurious : Bool}
    (h : Inv s) (ht : s.producers[p]? = some t) (hphase : Phase w pub t)
    (hnext : produceNext w p pub t spurious = some move) :
    ∃ signal t' r' new, s.step move = (signal, ⟨r', s.producers.set p t', s.consumer⟩) ∧
      winOf s move = new.map (p, ·) ∧
      Advance w p spurious s.ring pub t signal (after w t'.held.length pub signal) t' r' new := by
  obtain ⟨r, ps, c⟩ := s
  have hp : ps[p]? = some t := ht
  cases hphase with
  | idle hheld =>
    simp only [produceNext, Bool.false_eq_true, if_false] at hnext
    split at hnext
    · next hsent =>
      obtain rfl := Option.some.inj hnext
      exact ⟨_, _, _, [], by simp only [Threads.step, hp], rfl, .start hsent⟩
    · cases hnext
  | @claiming sent stage held hheld =>
    obtain rfl : .produce p spurious = move := Option.some.inj hnext
    have hcall : CallSound r (.claiming stage) := h.calls _ (List.mem_of_getElem? hp) _ rfl
    obtain ⟨new, htail, hadvance⟩ := advance_claiming spurious h.owned.head_le_tail hcall
    have hstep := step_produce (s := ⟨r, ps, c⟩) hp spurious
    refine ⟨_, _, _, new, hstep, ?_, hadvance⟩
    rw [winOf, hstep]
    rcases htail with ⟨rfl, htail⟩ | ⟨rfl, htail⟩
    · exact if_pos htail
    · refine if_neg ?_
      show _ ≠ _
      rw [htail]
      exact Nat.succ_ne_self _
  | @writing sent seq rest hrest =>
    obtain rfl := Option.some.inj hnext
    refine ⟨_, ⟨none, seq :: rest⟩, _, [], ?_, rfl, .write⟩
    simp only [Threads.step, hp, List.mem_cons_self, if_true, set_of_getElem? hp]
    rfl
  | @committing sent seq rest hrest =>
    obtain rfl : .commit p seq = move := Option.some.inj hnext
    refine ⟨_, ⟨none, rest⟩, _, [], ?_, rfl, .commit⟩
    simp only [Threads.step, hp, List.mem_cons_self, if_true, List.erase_cons_head]

/-! ## What a producer has published -/

theorem mem_live_of_mem_held {seq : Nat} (h : seq ∈ t.held) : seq ∈ t.live := by
  unfold ProducerThread.live
  split
  · exact List.mem_cons_of_mem _ h
  · exact h

/-- How a producer's place in the workload stands to the claims it has won, to its slots and
to its commits. -/
structure Publishes (w : Workload) (p : Nat) (won : List Nat) (log : List (Signal Parcel))
    (r : Ring kind cap Parcel) (pub : Publisher) (t : ProducerThread) : Prop where
  phase : Phase w pub t
  /-- The live claims are the oldest ones of the batch. -/
  live : t.live.reverse <+: won.drop pub.sent
  /-- All of the batch is live until it is committed. -/
  length : won.length = pub.sent + if pub.committing then batchAt w pub else t.live.length
  /-- A claim holds the message of its place among the claims, once that is written. -/
  written : ∀ k seq, won[k]? = some seq → seq ∈ t.held → pub.unwritten ≠ some seq →
    r.slotOf seq = ⟨p, k⟩
  parcel : ∀ seq message, (p, seq, message) ∈ commitsOf log →
    ∃ k, won[k]? = some seq ∧ message = ⟨p, k⟩
  settled : ∀ seq ∈ won, seq ∈ t.live ∨ ∃ message, (p, seq, message) ∈ commitsOf log

variable {log log' : List (Signal Parcel)}

theorem Publishes.mem_won (h : Publishes w p won log r pub t) {seq : Nat} (hseq : seq ∈ t.live) :
    seq ∈ won :=
  List.mem_of_mem_drop (h.live.subset (List.mem_reverse.2 hseq))

/-- What others do leaves a producer alone. -/
theorem Publishes.frame (h : Publishes w p won log r pub t)
    (hslot : ∀ seq ∈ t.live, r'.slotOf seq = r.slotOf seq)
    (hcommits : ∀ seq message, (p, seq, message) ∈ commitsOf log' ↔
      (p, seq, message) ∈ commitsOf log) : Publishes w p won log' r' pub t :=
  { h with
    written := fun k seq hk hheld hunwritten =>
      (hslot seq (mem_live_of_mem_held hheld)).trans (h.written k seq hk hheld hunwritten)
    parcel := fun seq message hmem => h.parcel seq message ((hcommits seq message).1 hmem)
    settled := fun seq hseq => (h.settled seq hseq).imp_right fun ⟨message, hmem⟩ =>
      ⟨message, (hcommits seq message).2 hmem⟩ }

/-- A turn that neither wins a claim nor writes nor commits. -/
theorem Publishes.still (h : Publishes w p won log r pub t) (hphase : Phase w pub' t')
    (hsent : pub'.sent = pub.sent) (hcommitting : pub'.committing = pub.committing)
    (hunwritten : ∀ seq, pub.unwritten = some seq → pub'.unwritten = some seq)
    (hlive : t'.live = t.live) (hheld : ∀ seq ∈ t'.held, pub'.unwritten ≠ some seq → seq ∈ t.held)
    (hslot : r'.slotOf = r.slotOf) (hplain : signal.isPlain = true) :
    Publishes w p won (log ++ [signal]) r' pub' t' where
  phase := hphase
  live := by
    rw [hlive, hsent]
    exact h.live
  length := by
    rw [hlive, hsent, hcommitting, show batchAt w pub' = batchAt w pub by rw [batchAt, hsent]; rfl]
    exact h.length
  written := by
    intro k seq hk hmem hnot
    rw [hslot]
    exact h.written k seq hk (hheld seq hmem hnot) fun heq => hnot (hunwritten seq heq)
  parcel := by
    rw [commitsOf_plain log hplain]
    exact h.parcel
  settled := by
    rw [commitsOf_plain log hplain, hlive]
    exact h.settled

theorem getElem?_of_nodup {l l' : List Nat} {k x : Nat} (h : (l ++ l').Nodup)
    (hk : (l ++ l')[k]? = some x) (hx : x ∈ l) : l[k]? = some x := by
  rcases Nat.lt_or_ge k l.length with hlt | hge
  · rwa [List.getElem?_append_left hlt] at hk
  · rw [List.getElem?_append_right hge] at hk
    exact absurd (List.mem_of_getElem? hk) (List.disjoint_of_nodup_append h hx)

/-- A turn that wins a claim. -/
theorem Publishes.win {seq : Nat} (h : Publishes w p won log r pub t) (hphase : Phase w pub' t')
    (hnodup : (won ++ [seq]).Nodup) (hsent : pub'.sent = pub.sent)
    (hgoes : pub.committing = false) (hgoes' : pub'.committing = false)
    (hunwritten : pub.unwritten = none) (hlive : t'.live = seq :: t.live)
    (hheld : ∀ seq' ∈ t'.held, pub'.unwritten ≠ some seq' → seq' ∈ t.held)
    (hslot : r'.slotOf = r.slotOf) (hplain : signal.isPlain = true) :
    Publishes w p (won ++ [seq]) (log ++ [signal]) r' pub' t' where
  phase := hphase
  live := by
    have hlength := h.length
    rw [hgoes, if_neg Bool.false_ne_true] at hlength
    have hall : t.live.reverse = won.drop pub.sent := h.live.eq_of_length (by simp [hlength])
    rw [hlive, hsent, List.reverse_cons, hall, List.drop_append_of_le_length (by omega)]
  length := by
    have hlength := h.length
    rw [hgoes, if_neg Bool.false_ne_true] at hlength
    rw [hgoes', if_neg Bool.false_ne_true, List.length_append, hlength, hlive, hsent]
    rfl
  written := by
    intro k seq' hk hmem hnot
    have hold : seq' ∈ t.held := hheld seq' hmem hnot
    have hk' := getElem?_of_nodup hnodup hk (h.mem_won (mem_live_of_mem_held hold))
    rw [hslot]
    exact h.written k seq' hk' hold (by rw [hunwritten]; nofun)
  parcel := by
    intro seq' message hmem
    rw [commitsOf_plain log hplain] at hmem
    obtain ⟨k, hk, hmessage⟩ := h.parcel seq' message hmem
    have hlt : k < won.length := (List.getElem?_eq_some_iff.1 hk).1
    exact ⟨k, by rw [List.getElem?_append_left hlt, hk], hmessage⟩
  settled := by
    intro seq' hmem
    rw [commitsOf_plain log hplain, hlive]
    rcases List.mem_append.1 hmem with hold | hnew
    · exact (h.settled seq' hold).imp_left (List.mem_cons_of_mem _)
    · exact .inl (List.mem_singleton.1 hnew ▸ List.mem_cons_self)

/-- The newest claim is written: its place among the claims is the number of the message. -/
theorem Publishes.write {sent seq : Nat} {rest live : List Nat}
    (h : Publishes w p won log r ⟨sent, some seq, false⟩ ⟨none, seq :: rest⟩)
    (hphase : Phase w pub' ⟨none, seq :: rest⟩)
    (hpub : pub' = ⟨sent, none, rest.length + 1 == batchAt w ⟨sent, none, false⟩⟩)
    (hnodup : won.Nodup) (ho : r.Owned live) (hown : ∀ seq' ∈ seq :: rest, seq' ∈ live)
    (hplain : signal.isPlain = true) :
    Publishes w p won (log ++ [signal]) (r.write (cap.indexOf seq) ⟨p, sent + rest.length⟩) pub'
      ⟨none, seq :: rest⟩ where
  phase := hphase
  live := by
    subst hpub
    exact h.live
  length := by
    have hlength : won.length = sent + (rest.length + 1) := h.length
    subst hpub
    rw [hlength]
    split
    · next hfull => exact congrArg (sent + ·) (eq_of_beq hfull)
    · rfl
  written := by
    intro k seq' hk hmem hnot
    rw [Ring.slotOf_write]
    split
    · next hindex =>
      -- no two live claims share a slot
      have hsame := cap.eq_of_indexOf_eq_of_lap (ho.head_le _ (hown seq List.mem_cons_self))
        (ho.lt_lap (hown seq List.mem_cons_self)) (ho.head_le _ (hown seq' hmem))
        (ho.lt_lap (hown seq' hmem)) hindex
      subst hsame
      have hlast : (won.drop sent)[rest.length]? = some seq := by
        obtain ⟨later, hlater⟩ := h.live
        rw [← hlater]
        simp [ProducerThread.live]
      rw [List.getElem?_drop] at hlast
      obtain ⟨hlt, -⟩ := List.getElem?_eq_some_iff.1 hk
      rw [(List.getElem?_inj hlt hnodup).1 (hk.trans hlast.symm)]
    · next hindex =>
      refine h.written k seq' hk hmem fun heq => hindex ?_
      rw [Option.some.inj heq]
  parcel := by
    rw [commitsOf_plain log hplain]
    exact h.parcel
  settled := by
    rw [commitsOf_plain log hplain]
    exact h.settled

theorem mem_commitsOf_committed {q seq seq' : Nat} {message message' : Parcel} :
    (p, seq, message) ∈ commitsOf (log ++ [.committed q seq' message']) ↔
      (p, seq, message) ∈ commitsOf log ∨ p = q ∧ seq = seq' ∧ message = message' := by
  rw [commitsOf_committed, List.mem_append, List.mem_singleton, Prod.mk.injEq, Prod.mk.injEq]

/-- The newest live claim is committed, and with the oldest the batch is done. -/
theorem Publishes.commit {sent seq : Nat} {rest : List Nat}
    (h : Publishes w p won log r ⟨sent, none, true⟩ ⟨none, seq :: rest⟩)
    (hphase : Phase w pub' ⟨none, rest⟩)
    (hpub : pub' = if rest.length = 0 then ⟨sent + batchAt w ⟨sent, none, false⟩, none, false⟩
      else ⟨sent, none, true⟩) :
    Publishes w p won (log ++ [.committed p seq (r.slotOf seq)]) (r.commit (cap.indexOf seq)) pub'
      ⟨none, rest⟩ where
  phase := hphase
  live := by
    have hlive : rest.reverse ++ [seq] <+: won.drop sent := by
      rw [← List.reverse_cons]
      exact h.live
    cases rest with
    | nil => exact List.nil_prefix
    | cons seq' rest =>
      subst hpub
      exact (List.prefix_append _ _).trans hlive
  length := by
    have hlength : won.length = sent + batchAt w ⟨sent, none, true⟩ := h.length
    cases rest with
    | nil =>
      subst hpub
      exact hlength
    | cons seq' rest =>
      subst hpub
      exact hlength
  written := by
    intro k seq' hk hmem _
    exact h.written k seq' hk (List.mem_cons_of_mem _ hmem) nofun
  parcel := by
    intro seq' message hmem
    rcases mem_commitsOf_committed.1 hmem with hold | ⟨-, rfl, rfl⟩
    · exact h.parcel seq' message hold
    · have hwon : seq' ∈ won := h.mem_won List.mem_cons_self
      obtain ⟨k, hk⟩ := List.mem_iff_getElem?.1 hwon
      exact ⟨k, hk, h.written k seq' hk List.mem_cons_self nofun⟩
  settled := by
    intro seq' hmem
    rcases h.settled seq' hmem with hlive | ⟨message, hcommit⟩
    · rcases List.mem_cons.1 hlive with rfl | hrest
      · exact .inr ⟨_, mem_commitsOf_committed.2 (.inr ⟨rfl, rfl, rfl⟩)⟩
      · exact .inl hrest
    · exact .inr ⟨message, mem_commitsOf_committed.2 (.inl hcommit)⟩

/-- Each turn of a producer keeps this. -/
theorem Publishes.advance {live : List Nat} (h : Publishes w p won log r pub t)
    (ha : Advance w p spurious r pub t signal pub' t' r' new) (hnodup : (won ++ new).Nodup)
    (ho : r.Owned live) (hown : ∀ seq ∈ t.live, seq ∈ live) :
    Publishes w p (won ++ new) (log ++ [signal]) r' pub' t' := by
  have hphase := ha.phase h.phase
  cases ha with
  | start | load | check | refused | lost =>
    rw [List.append_nil]
    exact h.still hphase rfl rfl (fun _ heq => heq) rfl (fun _ hmem _ => hmem) rfl rfl
  | tag htail hhead hslot =>
    rw [List.append_nil]
    refine h.still hphase rfl rfl nofun rfl (fun seq hmem hnot => ?_) hslot rfl
    exact (List.mem_cons.1 hmem).resolve_left fun heq => hnot (congrArg some heq.symm)
  | win => exact h.win hphase hnodup rfl rfl rfl rfl rfl (fun _ hmem _ => hmem) rfl rfl
  | take =>
    refine h.win hphase hnodup rfl rfl rfl rfl rfl (fun seq hmem hnot => ?_) rfl rfl
    exact (List.mem_cons.1 hmem).resolve_left fun heq => hnot (congrArg some heq.symm)
  | write =>
    rw [List.append_nil] at hnodup ⊢
    exact h.write hphase rfl hnodup ho hown rfl
  | commit =>
    rw [List.append_nil]
    exact h.commit hphase rfl

theorem Advance.slotOf_eq (ha : Advance w p spurious r pub t signal pub' t' r' new) {seq : Nat}
    (hne : ∀ seq' ∈ t.live, cap.indexOf seq' ≠ cap.indexOf seq) : r'.slotOf seq = r.slotOf seq := by
  cases ha with
  | write => rw [Ring.slotOf_write, if_neg (hne _ List.mem_cons_self)]
  | tag htail hhead hslot => rw [hslot]
  | _ => rfl

/-- A producer commits only claims of its own. -/
theorem Advance.mem_commitsOf (ha : Advance w p spurious r pub t signal pub' t' r' new)
    {q seq : Nat} (hq : q ≠ p) (message : Parcel) :
    (q, seq, message) ∈ commitsOf (log ++ [signal]) ↔ (q, seq, message) ∈ commitsOf log := by
  cases ha with
  | commit =>
    rw [mem_commitsOf_committed]
    exact or_iff_left fun hnew => hq hnew.1
  | _ => rw [commitsOf_plain log rfl]

/-- Producers leave it to the reader to move the head. -/
theorem Advance.head_eq (ha : Advance w p spurious r pub t signal pub' t' r' new) :
    r'.head = r.head := by
  cases ha with
  | tag htail hhead hslot => exact hhead
  | _ => rfl

theorem Advance.handedOf_eq (ha : Advance w p spurious r pub t signal pub' t' r' new) :
    handedOf (log ++ [signal]) = handedOf log := by
  cases ha with
  | commit => exact handedOf_committed log _ _ _
  | _ => exact handedOf_plain log rfl

theorem Advance.ne_failed (ha : Advance w p spurious r pub t signal pub' t' r' new) (seq : Nat)
    (message : Parcel) : signal ≠ .failed seq message := by
  cases ha <;> nofun

/-! ## A workload under way -/

variable {s s' : Threads kind cap Parcel} {pubs : List Publisher} {wins : List (Nat × Nat)}
  {move : Move Parcel}

/-- The claims that a producer has won, in order. -/
def wonBy (wins : List (Nat × Nat)) (p : Nat) : List Nat := (wins.filter (·.1 == p)).map (·.2)

/-- What the claims won and the signals of a run say of the ring and of all producers. -/
structure Publishing (w : Workload) (wins : List (Nat × Nat)) (log : List (Signal Parcel))
    (s : Threads kind cap Parcel) (pubs : List Publisher) : Prop where
  sound : Sound wins log s
  threads : s.producers.length = w.producers
  publishers : pubs.length = w.producers
  winner : ∀ win ∈ wins, win.1 < w.producers
  each : ∀ p pub t, pubs[p]? = some pub → s.producers[p]? = some t →
    Publishes w p (wonBy wins p) log s.ring pub t

theorem publishing_init (hone : kind = .oneProducer → w.producers ≤ 1) :
    Publishing w [] [] (.init w.producers (.filled ⟨0, 0⟩) : Threads kind cap Parcel)
      (List.replicate w.producers ⟨0, none, false⟩) where
  sound := Fresh.sound ⟨w.producers, _, hone, rfl⟩
  threads := List.length_replicate
  publishers := List.length_replicate
  winner := nofun
  each := by
    intro p pub t hpub ht
    obtain rfl := List.eq_of_mem_replicate (List.mem_of_getElem? hpub)
    obtain rfl := List.eq_of_mem_replicate (List.mem_of_getElem? ht)
    have hphase : Phase w ⟨0, none, false⟩ ⟨none, []⟩ := by
      rcases Nat.eq_zero_or_pos w.per with hnone | hsome
      · exact .idle (.inr ⟨hnone.symm, rfl⟩)
      · exact .idle (.inl (batchAt_pos hsome))
    exact ⟨hphase, List.nil_prefix, rfl, nofun, nofun, nofun⟩

theorem wonBy_append (wins wins' : List (Nat × Nat)) (p : Nat) :
    wonBy (wins ++ wins') p = wonBy wins p ++ wonBy wins' p := by
  rw [wonBy, List.filter_append, List.map_append]
  rfl

theorem wonBy_own (new : List Nat) (p : Nat) : wonBy (new.map (p, ·)) p = new := by
  simp [wonBy, List.filter_map, Function.comp_def]

theorem wonBy_other (new : List Nat) {p q : Nat} (hq : q ≠ p) : wonBy (new.map (p, ·)) q = [] := by
  simp [wonBy, List.filter_map, Function.comp_def, hq.symm]

theorem mem_wonBy {p seq : Nat} : seq ∈ wonBy wins p ↔ (p, seq) ∈ wins := by
  simp [wonBy]

/-- The claims of a producer are in increasing order. -/
theorem sorted_wonBy {n : Nat} (hnumbered : wins.map (·.2) = List.range n) (p : Nat) :
    (wonBy wins p).Pairwise (· < ·) := by
  rw [wonBy, wins_of_producer hnumbered]
  exact List.pairwise_lt_range.filter _

/-- A claim has one winner. -/
theorem winner_unique {n p q seq : Nat} (hnumbered : wins.map (·.2) = List.range n)
    (hp : (p, seq) ∈ wins) (hq : (q, seq) ∈ wins) : p = q := by
  have hnodup : (wins.map (·.2)).Nodup := hnumbered ▸ List.nodup_range
  exact congrArg Prod.fst (List.inj_on_of_nodup_map hnodup hp hq rfl)

/-- Live claims of two producers do not share a slot. -/
theorem Publishing.indexOf_ne (h : Publishing w wins log s pubs) {p q seq seq' : Nat}
    {t u : ProducerThread} (ht : s.producers[p]? = some t) (hu : s.producers[q]? = some u)
    (hq : q ≠ p) (hseq : seq ∈ u.live) (hseq' : seq' ∈ t.live) :
    cap.indexOf seq' ≠ cap.indexOf seq := by
  intro hindex
  have ho := h.sound.inv.owned
  have hlive := mem_liveOf hu hseq
  have hlive' := mem_liveOf ht hseq'
  obtain rfl := cap.eq_of_indexOf_eq_of_lap (ho.head_le _ hlive') (ho.lt_lap hlive')
    (ho.head_le _ hlive) (ho.lt_lap hlive) hindex
  have hwon := h.sound.won.live
  exact hq (winner_unique h.sound.won.numbered (hwon q u hu _ hseq) (hwon p t ht _ hseq'))

/-- A turn of a producer that is not done. -/
theorem Publishing.produce (h : Publishing w wins log s pubs) (hpub : pubs[p]? = some pub)
    (ht : s.producers[p]? = some t) (hnext : produceNext w p pub t spurious = some move) :
    ∃ signal t' r' new, s.step move = (signal, ⟨r', s.producers.set p t', s.consumer⟩) ∧
      Advance w p spurious s.ring pub t signal (after w t'.held.length pub signal) t' r' new ∧
      Publishing w (wins ++ new.map (p, ·)) (log ++ [signal])
        ⟨r', s.producers.set p t', s.consumer⟩
        (pubs.set p (after w t'.held.length pub signal)) := by
  have hmine := h.each p pub t hpub ht
  obtain ⟨signal, t', r', new, hstep, hwin, hadvance⟩ :=
    exists_advance h.sound.inv ht hmine.phase hnext
  refine ⟨signal, t', r', new, hstep, hadvance, ?_⟩
  have hnot : ∀ seq message, (s.step move).1 ≠ .failed seq message := by
    rw [hstep]
    exact hadvance.ne_failed
  have hsound := h.sound.step move hnot
  rw [hstep, hwin] at hsound
  have hlt : p < w.producers := by
    rw [← h.threads]
    exact (List.getElem?_eq_some_iff.1 ht).1
  refine ⟨hsound, List.length_set.trans h.threads, List.length_set.trans h.publishers, ?_, ?_⟩
  · intro win hmem
    rcases List.mem_append.1 hmem with hold | hnew
    · exact h.winner win hold
    · obtain ⟨seq, -, rfl⟩ := List.mem_map.1 hnew
      exact hlt
  · intro q pubq u hpubq hu
    rw [wonBy_append]
    by_cases hq : q = p
    · subst hq
      rw [List.getElem?_set_self (h.publishers ▸ hlt)] at hpubq
      rw [List.getElem?_set_self (h.threads ▸ hlt)] at hu
      obtain rfl := Option.some.inj hpubq
      obtain rfl := Option.some.inj hu
      rw [wonBy_own]
      refine hmine.advance hadvance ?_ h.sound.inv.owned fun seq hseq => mem_liveOf ht hseq
      have hsorted := sorted_wonBy hsound.won.numbered q
      rw [wonBy_append, wonBy_own] at hsorted
      exact hsorted.imp Nat.ne_of_lt
    · rw [List.getElem?_set_ne (Ne.symm hq)] at hpubq hu
      rw [wonBy_other new hq, List.append_nil]
      refine (h.each q pubq u hpubq hu).frame (fun seq hseq => ?_) fun seq message => ?_
      · exact hadvance.slotOf_eq fun seq' hseq' => h.indexOf_ne ht hu hq hseq hseq'
      · exact hadvance.mem_commitsOf hq message

/-! ## Steps of the reader -/

/-- The reader starts a read, or goes on with its call, and the callback does not fail. -/
def IsReading (move : Move Parcel) : Prop := (∃ limit, move = .read limit) ∨ move = .consume false

theorem slotOf_consumeAccess (fails : Bool) (call : ConsumerCall) (r : Ring kind cap Parcel) :
    (consumeAccess fails call r).2.2.slotOf = r.slotOf := by
  cases call with
  | measuring stage => rw [(consumeAccess_measuring fails stage r).1]
  | reading stage =>
    rw [consumeAccess_reading]
    cases stage with
    | looking start count left => simp only [Ring.readAccess]; split <;> rfl
    | handing start count left => cases fails <;> rfl
    | _ => rfl

theorem consumeAccess_ne_failed (call : ConsumerCall) (r : Ring kind cap Parcel) (seq : Nat)
    (message : Parcel) : (consumeAccess false call r).1 ≠ .failed seq message := by
  intro hfailed
  cases call with
  | measuring stage => cases stage <;> cases hfailed
  | reading stage =>
    cases stage with
    | looking start count left =>
      by_cases hready : r.markOf (start + count) = .ready
      · simp only [consumeAccess, Ring.readAccess, if_pos hready] at hfailed
        cases hfailed
      · simp only [consumeAccess, Ring.readAccess, if_neg hready] at hfailed
        cases hfailed
    | _ => cases hfailed

theorem reading_step (hs : StepOf s move signal s') (hmove : IsReading move) :
    s'.producers = s.producers ∧ s'.ring.tail = s.ring.tail ∧ s'.ring.slotOf = s.ring.slotOf ∧
      (∀ seq message, signal ≠ .failed seq message) ∧
      ∀ p seq message, signal ≠ .committed p seq message := by
  cases hs with
  | ignored | read => exact ⟨rfl, rfl, rfl, nofun, nofun⟩
  | consume call fails =>
    obtain rfl : fails = false := by
      rcases hmove with ⟨limit, hread⟩ | hconsume
      · cases hread
      · exact Move.consume.inj hconsume
    exact ⟨rfl, tail_consumeAccess _ _ _, slotOf_consumeAccess _ _ _,
      consumeAccess_ne_failed call _, consumeAccess_ne_committed _ _ _⟩
  | _ =>
    rcases hmove with ⟨limit, hread⟩ | hconsume
    · cases hread
    · cases hconsume

/-- The reader leaves the producers alone. -/
theorem Publishing.read (h : Publishing w wins log s pubs) (hmove : IsReading move) :
    Publishing w wins (log ++ [(s.step move).1]) (s.step move).2 pubs := by
  obtain ⟨hproducers, -, hslot, hnot, hcommit⟩ := reading_step (stepOf s move) hmove
  have hwin : winOf s move = [] := by
    rcases hmove with ⟨limit, rfl⟩ | rfl <;> rfl
  have hsound := h.sound.step move hnot
  rw [hwin, List.append_nil] at hsound
  refine ⟨hsound, hproducers ▸ h.threads, h.publishers, h.winner, fun p pub t hpub ht => ?_⟩
  rw [hproducers] at ht
  refine (h.each p pub t hpub ht).frame (fun seq _ => congrFun hslot seq) fun seq message => ?_
  rw [commitsOf_append, List.mem_append, or_iff_left]
  intro hmem
  obtain ⟨signal, hsignal, heq⟩ := List.mem_filterMap.1 hmem
  obtain rfl := List.mem_singleton.1 hsignal
  split at heq
  · next hcommitted => exact hcommit _ _ _ hcommitted
  · cases heq

/-! ## How much is claimed -/

/-- A producer and its thread. -/
theorem Publishing.exists_at (h : Publishing w wins log s pubs) (hp : p < w.producers) :
    ∃ pub t, pubs[p]? = some pub ∧ s.producers[p]? = some t ∧
      Publishes w p (wonBy wins p) log s.ring pub t := by
  have hpub := List.getElem?_eq_getElem (h.publishers ▸ hp)
  have ht := List.getElem?_eq_getElem (h.threads ▸ hp)
  exact ⟨_, _, hpub, ht, h.each p _ _ hpub ht⟩

theorem length_live_le (stage : Ring.ClaimStage) (held : List Nat) :
    (⟨some (.claiming stage), held⟩ : ProducerThread).live.length ≤ held.length + 1 := by
  cases stage with
  | won seq => exact Nat.le_refl _
  | _ => exact Nat.le_succ _

/-- A producer claims no more than its batch. -/
theorem Phase.claimed_le (h : Phase w pub t) :
    (if pub.committing then batchAt w pub else t.live.length) ≤ w.per - pub.sent := by
  have hbatch := batchAt_le w pub
  cases h with
  | idle hheld =>
    rcases hheld with hheld | ⟨-, rfl⟩
    · exact Nat.le_trans (Nat.le_of_lt hheld) hbatch
    · exact Nat.zero_le _
  | @claiming sent stage held hheld =>
    have hlive := length_live_le stage held
    exact Nat.le_trans hlive (Nat.le_trans hheld hbatch)
  | writing hrest => exact Nat.le_trans hrest hbatch
  | committing => exact hbatch

/-- A producer claims no more than it has to publish. -/
theorem Publishes.length_le (h : Publishes w p won log r pub t) : won.length ≤ w.per := by
  have hclaimed := h.phase.claimed_le
  have hsent := h.phase.sent_le
  rw [h.length]
  omega

/-- A producer that has published everything has claimed everything. -/
theorem Publishes.length_eq (h : Publishes w p won log r pub t) (hsent : pub.sent = w.per) :
    won.length = w.per := by
  refine Nat.le_antisymm h.length_le ?_
  rw [h.length, hsent]
  exact Nat.le_add_right _ _

/-- A sum over a list is that of the sums over its parts, one for each key. -/
theorem sum_map_by_key {β : Type} (key : β → Nat) (f : β → Nat) {n : Nat} {l : List β}
    (hkey : ∀ x ∈ l, key x < n) :
    (l.map f).sum = ∑ p ∈ Finset.range n, ((l.filter (key · == p)).map f).sum := by
  induction l with
  | nil => simp
  | cons x l ih =>
    have hlt := hkey x List.mem_cons_self
    have hfirst : ∀ p, (((x :: l).filter (key · == p)).map f).sum =
        (if key x = p then f x else 0) + ((l.filter (key · == p)).map f).sum := by
      intro p
      by_cases hp : key x = p
      · simp [hp]
      · simp [hp]
    rw [Finset.sum_congr rfl fun p _ => hfirst p, Finset.sum_add_distrib, Finset.sum_ite_eq,
      if_pos (Finset.mem_range.2 hlt), ← ih fun y hy => hkey y (List.mem_cons_of_mem _ hy),
      List.map_cons, List.sum_cons]

theorem length_wins (hwinner : ∀ win ∈ wins, win.1 < w.producers) :
    wins.length = ∑ p ∈ Finset.range w.producers, (wonBy wins p).length := by
  have hsum := sum_map_by_key Prod.fst (fun _ => 1) hwinner
  simpa [wonBy] using hsum

theorem Publishing.tail_eq (h : Publishing w wins log s pubs) :
    s.ring.tail = ∑ p ∈ Finset.range w.producers, (wonBy wins p).length := by
  rw [← length_wins h.winner, ← List.length_map (f := (·.2)), h.sound.won.numbered,
    List.length_range]

theorem Publishing.length_wonBy_le (h : Publishing w wins log s pubs) :
    ∀ p ∈ Finset.range w.producers, (wonBy wins p).length ≤ w.per := by
  intro p hp
  obtain ⟨pub, t, -, -, hmine⟩ := h.exists_at (Finset.mem_range.1 hp)
  exact hmine.length_le

theorem sum_per (w : Workload) : ∑ _p ∈ Finset.range w.producers, w.per = w.total := by
  rw [Finset.sum_const, Finset.card_range]
  rfl

/-- No more is claimed than there is to publish. -/
theorem Publishing.tail_le (h : Publishing w wins log s pubs) : s.ring.tail ≤ w.total := by
  rw [h.tail_eq, ← sum_per]
  exact Finset.sum_le_sum h.length_wonBy_le

/-- Until all is claimed, some producer has messages left to claim for. -/
theorem Publishing.exists_short (h : Publishing w wins log s pubs) (htail : s.ring.tail < w.total) :
    ∃ p < w.producers, (wonBy wins p).length < w.per := by
  rw [h.tail_eq, ← sum_per] at htail
  obtain ⟨p, hp, hlt⟩ := Finset.exists_lt_of_sum_lt htail
  exact ⟨p, Finset.mem_range.1 hp, hlt⟩

/-- Once all is claimed, every producer has claimed for all its messages. -/
theorem Publishing.length_wonBy_eq (h : Publishing w wins log s pubs)
    (htail : s.ring.tail = w.total) (hp : p < w.producers) : (wonBy wins p).length = w.per := by
  rw [h.tail_eq, ← sum_per, Finset.sum_eq_sum_iff_of_le h.length_wonBy_le] at htail
  exact htail p (Finset.mem_range.2 hp)

/-- Producers that have published everything have claimed everything. -/
theorem Publishing.tail_eq_total (h : Publishing w wins log s pubs)
    (hall : ∀ p < w.producers, (wonBy wins p).length = w.per) : s.ring.tail = w.total := by
  rw [h.tail_eq, ← sum_per]
  exact Finset.sum_congr rfl fun p hp => hall p (Finset.mem_range.1 hp)

/-! ## What the reader is handed -/

/-- A message that is handed over is that of its place among the claims of its producer. -/
theorem Publishing.handed (h : Publishing w wins log s pubs) {seq : Nat} {message : Parcel}
    (hmem : (seq, message) ∈ handedOf log) :
    message.producer < w.producers ∧ (wonBy wins message.producer)[message.number]? = some seq := by
  obtain ⟨q, hcommit⟩ := h.sound.recorded.handed seq message hmem
  have hq : q < w.producers := h.winner _ (h.sound.won.committer q seq message hcommit)
  obtain ⟨pub, t, -, -, hmine⟩ := h.exists_at hq
  obtain ⟨k, hk, rfl⟩ := hmine.parcel seq message hcommit
  exact ⟨hq, hk⟩

/-- The messages of a producer that are handed over, each with its number in the ring. -/
def handedFrom (log : List (Signal Parcel)) (p : Nat) : List (Nat × Parcel) :=
  (handedOf log).filter (·.2.producer == p)

theorem Publishing.handedFrom_eq (h : Publishing w wins log s pubs) (p : Nat) :
    (handedFrom log p).map (·.1) =
      (List.range (handedOf log).length).filter fun seq => decide ((p, seq) ∈ wins) := by
  have howner : ∀ x ∈ handedOf log, (x.2.producer == p) = decide ((p, x.1) ∈ wins) := by
    rintro ⟨seq, message⟩ hmem
    have hwon := mem_wonBy.1 (List.mem_of_getElem? (h.handed hmem).2)
    rw [Bool.eq_iff_iff, beq_iff_eq, decide_eq_true_iff]
    exact ⟨fun heq => heq ▸ hwon, fun hp => winner_unique h.sound.won.numbered hwon hp⟩
  rw [handedFrom, List.filter_congr howner, ← h.sound.recorded.numbers, List.filter_map]
  rfl

/-- They are those of its first claims. -/
theorem Publishing.handed_prefix (h : Publishing w wins log s pubs) (p : Nat) :
    (handedFrom log p).map (·.1) <+: wonBy wins p := by
  obtain ⟨more, hmore⟩ := Nat.exists_eq_add_of_le h.sound.recorded.length_le
  rw [h.handedFrom_eq, wonBy, wins_of_producer h.sound.won.numbered, hmore, List.range_add]
  exact (List.prefix_append _ _).filter _

/-- The messages of a producer come out in the order in which it publishes them. -/
theorem Publishing.numbers (h : Publishing w wins log s pubs) (p : Nat) :
    (handedFrom log p).map (·.2.number) = List.range (handedFrom log p).length := by
  have hnodup : (wonBy wins p).Nodup := (sorted_wonBy h.sound.won.numbered p).imp Nat.ne_of_lt
  refine List.ext_getElem (by simp) fun i hi _ => ?_
  rw [List.length_map] at hi
  rw [List.getElem_map, List.getElem_range]
  have hfirst : (wonBy wins p)[i]? = some (handedFrom log p)[i].1 := by
    obtain ⟨later, hlater⟩ := h.handed_prefix p
    rw [← hlater, List.getElem?_append_left (by rwa [List.length_map]), List.getElem?_map,
      List.getElem?_eq_getElem hi, Option.map_some]
  have hmem : (handedFrom log p)[i] ∈ handedFrom log p := List.getElem_mem hi
  generalize (handedFrom log p)[i] = x at hfirst hmem ⊢
  obtain ⟨hhanded, hproducer⟩ := List.mem_filter.1 hmem
  have hplace := (h.handed hhanded).2
  rw [eq_of_beq hproducer] at hplace
  have hlt := (List.getElem?_eq_some_iff.1 hfirst).1
  exact ((List.getElem?_inj hlt hnodup).1 (hfirst.trans hplace.symm)).symm

/-- Once all messages are handed over, each producer's are. -/
theorem Publishing.length_handedFrom (h : Publishing w wins log s pubs)
    (hall : (handedOf log).length = w.total) (hp : p < w.producers) :
    (handedFrom log p).length = w.per := by
  have htail : s.ring.tail = w.total :=
    Nat.le_antisymm h.tail_le (hall ▸ h.sound.recorded.length_le)
  rw [← List.length_map (f := (·.1)), h.handedFrom_eq, hall, ← htail,
    ← wins_of_producer h.sound.won.numbered]
  exact h.length_wonBy_eq htail hp

end Traffic

end RingTransport
