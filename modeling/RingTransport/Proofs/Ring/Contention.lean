/-
  Contention between producer threads. A producer that loses a compare-and-swap starts its claim
  again, and no number of its own accesses bounds how often. Main fact: each loss is paid for by a
  claim that another producer has won since the loser loaded the tail, and no such claim pays for
  two losses of one producer (`claims_lock_free`). This holds where a compare-and-swap fails only
  when the tail has moved (`Strong`).

  The account of a producer is `Paid`: every claim that others win pays in, every loss draws one
  out, and while the producer has the tail loaded, what was paid in since is still there.
-/
import Mathlib.Algebra.BigOperators.Group.Finset.Basic
import Mathlib.Algebra.Order.BigOperators.Group.Finset
import RingTransport.Proofs.Ring.Calls
import RingTransport.Proofs.Ring.ClaimOrder

namespace RingTransport.Threads

open RingTransport.Ring

variable {kind : Kind} {cap : Capacity} {α : Type}

/-! ## Losses, wins and attempts -/

/-- No compare-and-swap fails for no reason. -/
def Strong (moves : List (Move α)) : Prop := ∀ p, .produce p true ∉ moves

/-- The producer that has lost a compare-and-swap, if the signal shows it. -/
def Signal.loser? : Signal α → Option Nat
  | .lost p => some p
  | _ => none

/-- The producers that lost a compare-and-swap, one entry for each loss. -/
def losersOf (log : List (Signal α)) : List Nat := log.filterMap Signal.loser?

/-- How many claims producers other than `p` have won. -/
def rivalWins (p : Nat) (wins : List (Nat × Nat)) : Nat := wins.countP (·.1 != p)

/-- The next access of the claim is a compare-and-swap. -/
def swapsNext : ClaimStage → Bool
  | .room _ => true
  | _ => false

/-- The move is a compare-and-swap of producer `p`. -/
def isSwap (s : Threads kind cap α) (p : Nat) (move : Move α) : Bool :=
  move.isAccess p &&
    match s.producers[p]? with
    | some ⟨some (.claiming stage), _⟩ => swapsNext stage
    | _ => false

/-- How many compare-and-swaps producer `p` makes in a run. -/
def swapsOf (p : Nat) : Threads kind cap α → List (Move α) → Nat
  | _, [] => 0
  | s, move :: moves => (s.isSwap p move).toNat + swapsOf p (s.step move).2 moves

theorem losersOf_cons (signal : Signal α) (log : List (Signal α)) (p : Nat) :
    (losersOf (signal :: log)).count p =
      (losersOf [signal]).count p + (losersOf log).count p := by
  rw [losersOf, ← List.singleton_append, List.filterMap_append, List.count_append]
  rfl

theorem rivalWins_append (p : Nat) (wins more : List (Nat × Nat)) :
    rivalWins p (wins ++ more) = rivalWins p wins + rivalWins p more :=
  List.countP_append

/-! ## Accesses of a claim among many producers -/

section ManyProducers

variable {r r' : Ring .manyProducers cap α} {stage next : ClaimStage} {spurious : Bool}

/-- The stages of a claim that is not lost follow one another. -/
theorem claimAccess_going (h : r.claimAccess spurious stage = (.going next, r')) :
    (∃ head, stage = .start ∧ next = .loaded head) ∨
      (∃ head t, stage = .loaded head ∧ next = .room t) ∨
        ∃ t, stage = .room t ∧ next = .won t := by
  cases stage with
  | start =>
    cases h
    exact .inl ⟨_, rfl, rfl⟩
  | loaded head =>
    simp only [claimAccess] at h
    split at h
    · cases h
    · cases h
      exact .inr (.inl ⟨head, _, rfl, rfl⟩)
  | room t =>
    simp only [claimAccess] at h
    split at h
    · cases h
      exact .inr (.inr ⟨t, rfl, rfl⟩)
    · cases h
  | won seq => cases h

/-- A claim that has loaded the tail loaded it just before. -/
theorem claimAccess_to_room {t : Nat}
    (h : r.claimAccess spurious stage = (.going (.room t), r')) : t = r.tail ∧ r' = r := by
  cases stage with
  | start | won => cases h
  | loaded head =>
    simp only [claimAccess] at h
    split at h
    · cases h
    · cases h
      exact ⟨rfl, rfl⟩
  | room t' =>
    simp only [claimAccess] at h
    split at h <;> cases h

/-- A compare-and-swap is lost with the tail not as it was loaded, or for no reason. -/
theorem claimAccess_lost (h : r.claimAccess spurious stage = (.lost, r')) :
    ∃ t, stage = .room t ∧ r' = r ∧ (spurious = false → r.tail ≠ t) := by
  cases stage with
  | start | won => cases h
  | loaded head =>
    simp only [claimAccess] at h
    split at h <;> cases h
  | room t =>
    simp only [claimAccess] at h
    split at h
    · cases h
    · next hlost =>
      cases h
      exact ⟨t, rfl, rfl, fun hstrong heq => hlost ⟨heq, hstrong⟩⟩

end ManyProducers

variable {s s' : Threads .manyProducers cap α} {p : Nat} {move : Move α} {signal : Signal α}
  {losses wins : Nat}

theorem loser?_consumeAccess (fails : Bool) (call : ConsumerCall) (r : Ring kind cap α) :
    (consumeAccess fails call r).1.loser? = none := by
  cases call with
  | reading stage =>
    simp only [consumeAccess]
    generalize r.readAccess fails stage = acc
    obtain ⟨progress, r'⟩ := acc
    cases progress <;> rfl
  | measuring stage => cases stage <;> rfl

theorem AccessOf.loser {held : List Nat} {r r' : Ring kind cap α} {call : ProducerCall}
    {t : ProducerThread} {spurious : Bool} {q : Nat}
    (ha : AccessOf p spurious held r call signal t r') (hq : signal.loser? = some q) : q = p := by
  cases ha with
  | lost => exact (Option.some.inj hq).symm
  | going | refused | taken | loaded | measured => cases hq

/-- Only an access of its own shows that a producer has lost. -/
theorem StepOf.loser (hs : StepOf s move signal s') {q : Nat} (hq : signal.loser? = some q) :
    (∃ spurious, move = .produce q spurious) ∧ q < s.producers.length := by
  cases hs with
  | produce hp spurious =>
    obtain rfl := (accessOf _ spurious _ _ _).loser hq
    exact ⟨⟨spurious, rfl⟩, (List.getElem?_eq_some_iff.1 hp).1⟩
  | consume call fails =>
    rw [loser?_consumeAccess] at hq
    cases hq
  | _ => cases hq

theorem losers_of_other (hmove : ∀ spurious, move ≠ .produce p spurious) :
    (losersOf [(s.step move).1]).count p = 0 := by
  rw [List.count_eq_zero]
  intro hmem
  obtain ⟨signal, hsignal, hloser⟩ := List.mem_filterMap.1 hmem
  rw [List.mem_singleton.1 hsignal] at hloser
  obtain ⟨⟨spurious, heq⟩, -⟩ := (stepOf s move).loser hloser
  exact hmove spurious heq

/-- While other threads move, a producer does not come to a compare-and-swap. -/
theorem StepOf.room_before (hs : StepOf s move signal s')
    (hmove : ∀ spurious, move ≠ .produce p spurious) {t : Nat}
    (h : InCall s' p (.claiming (.room t))) : InCall s p (.claiming (.room t)) := by
  obtain ⟨held, hp⟩ := h
  have hset {ps : List ProducerThread} {q : Nat} {u : ProducerThread}
      (hu : u.call ≠ some (.claiming (.room t)))
      (hin : (ps.set q u)[p]? = some ⟨some (.claiming (.room t)), held⟩) :
      ps[p]? = some ⟨some (.claiming (.room t)), held⟩ := by
    rw [List.getElem?_set] at hin
    split at hin
    · split at hin
      · exact absurd (congrArg ProducerThread.call (Option.some.inj hin)) hu
      · cases hin
    · exact hin
  refine ⟨held, ?_⟩
  cases hs with
  | claim | measure | commit | abandon => exact hset (fun heq => by cases heq) hp
  | @produce r ps c q call _ hq spurious =>
    have hqp : q ≠ p := fun heq => hmove spurious (heq ▸ rfl)
    exact (List.getElem?_set_ne hqp).symm.trans hp
  | ignored | write | read | measureRead | consume => exact hp

/-! ## The account of a producer -/

/-- The losses of a producer are paid for by the wins of others. While it is about to swap, the
loss that it may suffer is paid for too, if the tail has moved since it was loaded. -/
structure Paid (p losses wins : Nat) (s : Threads .manyProducers cap α) : Prop where
  le : losses ≤ wins
  room : ∀ t, InCall s p (.claiming (.room t)) →
    t ≤ s.ring.tail ∧ losses + (s.ring.tail - t) ≤ wins

theorem Paid.other (h : Paid p losses wins s) (hinv : Inv s)
    (hmove : ∀ spurious, move ≠ .produce p spurious) :
    Paid p losses (wins + rivalWins p (winOf s move)) (s.step move).2 := by
  have hroom {t : Nat} (ht : InCall (s.step move).2 p (.claiming (.room t))) :=
    h.room t ((stepOf s move).room_before hmove ht)
  rcases winOf_eq hinv move with ⟨htail, hwin⟩ | ⟨q, htail, hwin⟩
  · rw [hwin]
    refine ⟨h.le, fun t ht => ?_⟩
    rw [htail]
    exact hroom ht
  · have hq : q ≠ p := by
      rintro rfl
      cases move with
      | produce q' spurious =>
        simp only [winOf] at hwin
        split at hwin
        · cases hwin
        · cases hwin
          exact hmove spurious rfl
      | _ => cases hwin
    have hone : rivalWins p (winOf s move) = 1 := by
      rw [hwin]
      simp [rivalWins, hq]
    rw [hone]
    refine ⟨Nat.le_succ_of_le h.le, fun t ht => ?_⟩
    obtain ⟨hle, hpaid⟩ := hroom ht
    omega

theorem Paid.of_call (hle : losses ≤ wins) {held : List Nat} {call : Option ProducerCall}
    (hp : s.producers[p]? = some ⟨call, held⟩)
    (hroom : ∀ t, call = some (.claiming (.room t)) →
      t ≤ s.ring.tail ∧ losses + (s.ring.tail - t) ≤ wins) : Paid p losses wins s := by
  refine ⟨hle, fun t ⟨held', ht⟩ => hroom t ?_⟩
  exact congrArg ProducerThread.call (Option.some.inj (hp.symm.trans ht))

/-- An access of a producer in a call does to the call what one access can do, and leaves the
other producers as they were. -/
theorem access_of_call {s : Threads kind cap α} {call : ProducerCall} {held : List Nat}
    (hp : s.producers[p]? = some ⟨some call, held⟩) (spurious : Bool) :
    ∃ signal t r', s.step (.produce p spurious) =
        (signal, ⟨r', s.producers.set p t, s.consumer⟩) ∧
      (s.producers.set p t)[p]? = some t ∧ AccessOf p spurious held s.ring call signal t r' :=
  ⟨_, _, _, step_produce hp spurious,
    List.getElem?_set_self (List.getElem?_eq_some_iff.1 hp).1, accessOf p spurious call held s.ring⟩

theorem Paid.own (h : Paid p losses wins s) :
    Paid p (losses + (losersOf [(s.step (.produce p false)).1]).count p) wins
      (s.step (.produce p false)).2 := by
  by_cases hin : ∃ call, InCall s p call
  · obtain ⟨call, held, hp⟩ := hin
    obtain ⟨signal, thread, r', hstep, hnew, ha⟩ := access_of_call hp false
    rw [hstep]
    cases ha with
    | lost hacc =>
      obtain ⟨t, rfl, rfl, hmoved⟩ := claimAccess_lost hacc
      obtain ⟨hle, hpaid⟩ := h.room t ⟨held, hp⟩
      have hone : (losersOf [(.lost p : Signal α)]).count p = 1 := List.count_singleton_self
      have hne : s.ring.tail ≠ t := hmoved rfl
      rw [hone]
      exact .of_call (by omega) hnew nofun
    | going hacc =>
      refine .of_call h.le hnew fun t ht => ?_
      cases ht
      obtain ⟨rfl, rfl⟩ := claimAccess_to_room hacc
      have hle := h.le
      exact ⟨Nat.le_refl _, by rw [Nat.sub_self]; exact hle⟩
    | refused | taken | loaded | measured => exact .of_call h.le hnew nofun
  · have hignored : s.step (.produce p false) = (.ignored, s) := by
      obtain ⟨r, ps, c⟩ := s
      simp only [step]
      split
      · next call held hp => exact absurd ⟨call, held, hp⟩ hin
      · rfl
    rw [hignored]
    exact h

theorem rivalWins_own (s : Threads kind cap α) (p : Nat) (spurious : Bool) :
    rivalWins p (winOf s (.produce p spurious)) = 0 := by
  simp only [winOf]
  split
  · rfl
  · simp [rivalWins]

theorem Paid.step (h : Paid p losses wins s) (hinv : Inv s)
    (hstrong : ∀ q, move ≠ .produce q true) :
    Paid p (losses + (losersOf [(s.step move).1]).count p) (wins + rivalWins p (winOf s move))
      (s.step move).2 := by
  by_cases hown : ∃ spurious, move = .produce p spurious
  · obtain ⟨spurious, rfl⟩ := hown
    cases spurious with
    | true => exact absurd rfl (hstrong p)
    | false =>
      rw [rivalWins_own]
      exact h.own
  · have hother : ∀ spurious, move ≠ .produce p spurious := not_exists.1 hown
    rw [losers_of_other hother]
    exact h.other hinv hother

/-- The losses of a run are paid for by the wins of the run. -/
theorem Paid.run (h : Paid p losses wins s) (hinv : Inv s) {moves : List (Move α)}
    (hstrong : Strong moves) :
    Paid p (losses + (losersOf (s.run moves).1).count p) (wins + rivalWins p (winsOf s moves))
      (s.run moves).2 := by
  induction moves generalizing s losses wins with
  | nil => exact h
  | cons move moves ih =>
    have hfirst : ∀ q, move ≠ .produce q true := fun q heq =>
      hstrong q (heq ▸ List.mem_cons_self ..)
    have hrest : Strong moves := fun q hq => hstrong q (List.mem_cons_of_mem _ hq)
    have hrun := ih (h.step hinv hfirst) (inv_step hinv move) hrest
    simp only [run, winsOf]
    rw [losersOf_cons, rivalWins_append, ← Nat.add_assoc, ← Nat.add_assoc]
    exact hrun

/-! ## Accesses of one call -/

/-- How many accesses an attempt to claim has made when it has come to a stage. -/
def accessesMade : ClaimStage → Nat
  | .start => 0
  | .loaded _ => 1
  | .room _ => 2
  | .won _ => 3

/-- How many compare-and-swaps it has made without a loss. -/
def swapsWon : ClaimStage → Nat
  | .won _ => 1
  | _ => 0

theorem accessesMade_le (stage : ClaimStage) : accessesMade stage ≤ 3 := by
  cases stage <;> simp [accessesMade]

theorem swapsWon_le (stage : ClaimStage) : swapsWon stage ≤ 1 := by
  cases stage <;> simp [swapsWon]

/-- An access that does not end a claim makes a step of the attempt, or loses it. -/
theorem InCall.account {stage : ClaimStage} (hin : InCall s p (.claiming stage)) {spurious : Bool}
    (hquiet : (s.step (.produce p spurious)).1.endsCall p = false) :
    ∃ next, InCall (s.step (.produce p spurious)).2 p (.claiming next) ∧
      accessesMade stage + 1 =
        3 * (losersOf [(s.step (.produce p spurious)).1]).count p + accessesMade next ∧
      (s.isSwap p (.produce p spurious)).toNat + swapsWon stage =
        (losersOf [(s.step (.produce p spurious)).1]).count p + swapsWon next := by
  obtain ⟨held, hp⟩ := hin
  have hswap : s.isSwap p (.produce p spurious) = swapsNext stage := by
    simp only [isSwap, Move.isAccess, hp, beq_self_eq_true, Bool.true_and]
  obtain ⟨signal, thread, r', hstep, hthread, ha⟩ := access_of_call hp spurious
  have hnew {next : ClaimStage} (hnext : thread.call = some (.claiming next)) :
      InCall ⟨r', s.producers.set p thread, s.consumer⟩ p (.claiming next) :=
    ⟨thread.held, by rw [← hnext]; exact hthread⟩
  rw [hswap]
  rw [hstep] at hquiet ⊢
  cases ha with
  | going hacc =>
    rcases claimAccess_going hacc with ⟨_, rfl, rfl⟩ | ⟨_, _, rfl, rfl⟩ | ⟨_, rfl, rfl⟩ <;>
      exact ⟨_, hnew rfl, rfl, rfl⟩
  | lost hacc =>
    obtain ⟨t, rfl, rfl, -⟩ := claimAccess_lost hacc
    have hone : (losersOf [(.lost p : Signal α)]).count p = 1 := List.count_singleton_self
    rw [hone]
    exact ⟨.start, hnew rfl, rfl, rfl⟩
  | refused | taken =>
    simp only [Signal.endsCall, beq_self_eq_true] at hquiet
    cases hquiet

theorem isSwap_other (hmove : ∀ spurious, move ≠ .produce p spurious) :
    s.isSwap p move = false ∧ move.isAccess p = false := by
  have hfar : move.isAccess p = false := by
    by_contra hnear
    obtain ⟨spurious, heq⟩ := Move.isAccess_iff.1 (Bool.not_eq_false _ ▸ hnear)
    exact hmove spurious heq
  exact ⟨by rw [isSwap, hfar, Bool.false_and], hfar⟩

/-- As long as a claim has not returned, three accesses and one swap were made for each loss,
and those of the attempt in progress. -/
theorem InCall.accounts {stage : ClaimStage} (hin : InCall s p (.claiming stage))
    {inside : List (Move α)} (hquiet : ∀ signal ∈ (s.run inside).1, signal.endsCall p = false) :
    ∃ next, InCall (s.run inside).2 p (.claiming next) ∧
      accessesMade stage + inside.countP (Move.isAccess p) =
        3 * (losersOf (s.run inside).1).count p + accessesMade next ∧
      swapsOf p s inside + swapsWon stage =
        (losersOf (s.run inside).1).count p + swapsWon next := by
  induction inside generalizing s stage with
  | nil => exact ⟨stage, hin, (Nat.zero_add _).symm, rfl⟩
  | cons move inside ih =>
    have hfirst : (s.step move).1.endsCall p = false := hquiet _ (List.mem_cons_self ..)
    have hrest : ∀ signal ∈ ((s.step move).2.run inside).1, signal.endsCall p = false :=
      fun signal hmem => hquiet signal (List.mem_cons_of_mem _ hmem)
    simp only [run, swapsOf, List.countP_cons]
    rw [losersOf_cons]
    by_cases hown : ∃ spurious, move = .produce p spurious
    · obtain ⟨spurious, rfl⟩ := hown
      obtain ⟨mid, hmid, haccess, hswap⟩ := hin.account hfirst
      obtain ⟨next, hnext, haccesses, hswaps⟩ := ih hmid hrest
      have hnear : (Move.produce p spurious : Move α).isAccess p = true := beq_self_eq_true p
      refine ⟨next, hnext, ?_, ?_⟩
      · rw [if_pos hnear]
        omega
      · omega
    · have hother : ∀ spurious, move ≠ .produce p spurious := not_exists.1 hown
      obtain ⟨next, hnext, haccesses, hswaps⟩ := ih (hin.other hother) hrest
      obtain ⟨hnoswap, hfar⟩ := isSwap_other (s := s) hother
      rw [losers_of_other hother, hnoswap, hfar]
      refine ⟨next, hnext, ?_, ?_⟩
      · rw [if_neg Bool.false_ne_true]
        omega
      · rw [Bool.toNat_false]
        omega

theorem losersOf_run_append (s : Threads kind cap α) (first second : List (Move α)) (p : Nat) :
    (losersOf (s.run (first ++ second)).1).count p =
      (losersOf (s.run first).1).count p + (losersOf ((s.run first).2.run second).1).count p := by
  rw [run_append, losersOf, List.filterMap_append, List.count_append]
  rfl

/-- Until a claim returns, its losses are paid for by what others win from its first load of the
tail on, and bound its swaps and its accesses. -/
theorem InCall.contention (hinv : Inv s) (hin : InCall s p (.claiming .start))
    {before after : List (Move α)} (hhead : before.countP (Move.isAccess p) = 1)
    (hstrong : Strong (before ++ after))
    (hquiet : ∀ signal ∈ (s.run (before ++ after)).1, signal.endsCall p = false) :
    (losersOf (s.run (before ++ after)).1).count p ≤ rivalWins p (winsOf (s.run before).2 after) ∧
      swapsOf p s (before ++ after) ≤ rivalWins p (winsOf (s.run before).2 after) + 1 ∧
      (before ++ after).countP (Move.isAccess p) ≤
        3 * rivalWins p (winsOf (s.run before).2 after) + 3 := by
  have hstart : accessesMade .start = 0 ∧ swapsWon .start = 0 := ⟨rfl, rfl⟩
  have hbefore : ∀ signal ∈ (s.run before).1, signal.endsCall p = false := fun signal hmem =>
    hquiet signal (by rw [run_append]; exact List.mem_append_left _ hmem)
  obtain ⟨stage, hstage, haccesses, -⟩ := hin.accounts hbefore
  have hnone : (losersOf (s.run before).1).count p = 0 := by omega
  have hloaded : accessesMade stage = 1 := by omega
  have hpaid : Paid p 0 0 (s.run before).2 := by
    refine ⟨Nat.le_refl _, fun t ht => ?_⟩
    cases ProducerCall.claiming.inj (hstage.unique ht)
    cases hloaded
  have hlater := (hpaid.run (inv_run hinv before)
    fun q hq => hstrong q (List.mem_append_right _ hq)).le
  have hlosses : (losersOf (s.run (before ++ after)).1).count p ≤
      rivalWins p (winsOf (s.run before).2 after) := by
    rw [losersOf_run_append, hnone]
    omega
  obtain ⟨next, -, hall, hswaps⟩ := hin.accounts hquiet
  have hmade := accessesMade_le next
  have hwon := swapsWon_le next
  refine ⟨hlosses, ?_, ?_⟩ <;> omega

/-! ## All producers together -/

theorem winOf_lt (s : Threads kind cap α) (move : Move α) :
    ∀ win ∈ winOf s move, win.1 < s.producers.length := by
  intro win hwin
  cases move with
  | produce p spurious =>
    simp only [winOf] at hwin
    split at hwin
    · cases hwin
    · next hmoved =>
      obtain rfl := List.mem_singleton.1 hwin
      by_contra hout
      have hnone : s.producers[p]? = none := List.getElem?_eq_none (Nat.le_of_not_lt hout)
      refine hmoved ?_
      obtain ⟨r, ps, c⟩ := s
      simp only [step, show ps[p]? = none from hnone]
  | _ => cases hwin

/-- Only the threads that there are win and lose. -/
theorem parties_lt (s : Threads .manyProducers cap α) (moves : List (Move α)) :
    (∀ q ∈ losersOf (s.run moves).1, q < s.producers.length) ∧
      ∀ win ∈ winsOf s moves, win.1 < s.producers.length := by
  induction moves generalizing s with
  | nil => exact ⟨nofun, nofun⟩
  | cons move moves ih =>
    obtain ⟨hlosers, hwinners⟩ := ih (s.step move).2
    rw [(stepOf s move).length_eq] at hlosers hwinners
    refine ⟨fun q hq => ?_, fun win hwin => ?_⟩
    · obtain ⟨signal, hsignal, hloser⟩ := List.mem_filterMap.1 hq
      rcases List.mem_cons.1 hsignal with rfl | hlater
      · exact ((stepOf s move).loser hloser).2
      · exact hlosers q (List.mem_filterMap.2 ⟨signal, hlater, hloser⟩)
    · rcases List.mem_append.1 hwin with hnow | hlater
      · exact winOf_lt s move win hnow
      · exact hwinners win hlater

/-- Each entry of a list of numbers below `n` is counted once. -/
theorem sum_count_range {n : Nat} {l : List Nat} (h : ∀ q ∈ l, q < n) :
    ∑ q ∈ Finset.range n, l.count q = l.length := by
  have hcard := Multiset.sum_count_eq_card (m := (l : Multiset Nat))
    fun q hq => Finset.mem_range.2 (h q hq)
  simpa only [Multiset.coe_count, Multiset.coe_card] using hcard

/-- Among the wins of a run, those of one producer and those of its rivals. -/
theorem count_add_rivalWins (p : Nat) (wins : List (Nat × Nat)) :
    (wins.map (·.1)).count p + rivalWins p wins = wins.length := by
  have hrest : rivalWins p wins = wins.countP fun win => decide ¬(win.1 == p) = true :=
    List.countP_congr fun win _ => by simp
  rw [List.count, List.countP_map, hrest]
  exact (List.length_eq_countP_add_countP _).symm

/-- If the losses of each of `n` producers are paid for by the wins of its rivals, then all losses
together are at most `n - 1` times the wins. -/
theorem losses_le_of_paid {n : Nat} {losers : List Nat} {wins : List (Nat × Nat)}
    (hlosers : ∀ q ∈ losers, q < n) (hwinners : ∀ win ∈ wins, win.1 < n)
    (hpaid : ∀ p, losers.count p ≤ rivalWins p wins) :
    losers.length ≤ (n - 1) * wins.length := by
  have hwins : ∑ q ∈ Finset.range n, (wins.map (·.1)).count q = wins.length := by
    rw [sum_count_range, List.length_map]
    intro q hq
    obtain ⟨win, hwin, rfl⟩ := List.mem_map.1 hq
    exact hwinners win hwin
  have hboth : losers.length + wins.length ≤ n * wins.length := calc
    losers.length + wins.length
      = ∑ q ∈ Finset.range n, (losers.count q + (wins.map (·.1)).count q) := by
        rw [Finset.sum_add_distrib, sum_count_range hlosers, hwins]
    _ ≤ ∑ _q ∈ Finset.range n, wins.length := by
        refine Finset.sum_le_sum fun q _ => ?_
        have hq := hpaid q
        have hcount := count_add_rivalWins q wins
        omega
    _ = n * wins.length := by rw [Finset.sum_const_nat fun _ _ => rfl, Finset.card_range]
  rw [Nat.sub_mul, Nat.one_mul]
  omega

/-- Any number of producer threads and the reader, in any order of steps, where a compare-and-swap
fails only when the tail has moved. Take a claim of producer `p` from its start on; the moves
`before` hold its first access, the load of the head, and may go on to the next one, its first load
of the tail. Until it returns it has lost no more compare-and-swaps than other producers have won
claims since `before`, and made at most one more than that; and it has returned once it has made
more than three accesses for each of these claims and three besides. In a whole run all losses
together are at most the claims won, times the number of the other producers. -/
theorem claims_lock_free {cap : Capacity} {α : Type} (producers : Nat) (slots : Vector α cap.size)
    (past : List (Move α)) :
    let start : Threads .manyProducers cap α := init producers (.ofSlots slots)
    let s := (start.run past).2
    (∀ p before after, (s.step (.claim p)).1 = .claimStarted p →
      before.countP (Move.isAccess p) = 1 → Strong (before ++ after) →
        let begun := (s.step (.claim p)).2
        let log := (begun.run (before ++ after)).1
        let won := rivalWins p (winsOf (begun.run before).2 after)
        ((∀ signal ∈ log, signal.endsCall p = false) →
          (losersOf log).count p ≤ won ∧ swapsOf p begun (before ++ after) ≤ won + 1) ∧
        (3 * won + 3 < (before ++ after).countP (Move.isAccess p) →
          ∃ signal ∈ log, signal.endsCall p = true)) ∧
    (Strong past →
      (losersOf (start.run past).1).length ≤ (producers - 1) * (winsOf start past).length) := by
  intro start s
  have hfresh : start.Fresh := ⟨producers, slots, nofun, rfl⟩
  refine ⟨?_, fun hstrong => ?_⟩
  · intro p before after hstarted hhead hstrong begun log won
    have hinv : Inv begun := inv_step (inv_run hfresh.inv past) _
    have hin : InCall begun p (.claiming .start) := inCall_claim hstarted
    have hcounts := fun hquiet => hin.contention hinv hhead hstrong hquiet
    refine ⟨fun hquiet => ⟨(hcounts hquiet).1, (hcounts hquiet).2.1⟩, fun hmany => ?_⟩
    by_contra hnone
    have hquiet : ∀ signal ∈ log, signal.endsCall p = false := fun signal hmem =>
      Bool.eq_false_iff.2 fun hends => hnone ⟨signal, hmem, hends⟩
    exact absurd (hcounts hquiet).2.2 (Nat.not_le_of_lt hmany)
  · have hlength : start.producers.length = producers := List.length_replicate
    obtain ⟨hlosers, hwinners⟩ := parties_lt start past
    rw [hlength] at hlosers hwinners
    refine losses_le_of_paid hlosers hwinners fun p => ?_
    have hidle : Paid p 0 0 start := by
      refine ⟨Nat.le_refl _, fun t ⟨held, ht⟩ => ?_⟩
      cases List.eq_of_mem_replicate (List.mem_of_getElem? ht)
    have hpaid := (hidle.run hfresh.inv hstrong).le
    rwa [Nat.zero_add, Nat.zero_add] at hpaid

/-- Producer 0 has loaded the tail when producer 1 wins a claim. It loses, and has won the next
number by its sixth access. -/
theorem loss_paid_by_rival :
    let start : Threads .manyProducers ⟨4, rfl⟩ Nat := init 2 (.ofSlots (.replicate 4 0))
    let begun := (start.step (.claim 0)).2
    let before : List (Move Nat) := [.produce 0 false]
    let rival : List (Move Nat) := .claim 1 :: List.replicate 3 (.produce 1 false)
    let after := .produce 0 false :: rival ++ List.replicate 4 (.produce 0 false)
    (losersOf (begun.run (before ++ after)).1).count 0 = 1 ∧
      rivalWins 0 (winsOf (begun.run before).2 after) = 1 ∧
      swapsOf 0 begun (before ++ after) ≤ 1 + 1 ∧
      (losersOf (start.run (.claim 0 :: before ++ after)).1).length ≤
        (2 - 1) * (winsOf start (.claim 0 :: before ++ after)).length := by
  intro start begun before rival after
  have hstrong : Strong (.claim 0 :: before ++ after) := by
    intro p
    simp [before, after, rival]
  have hlock := @claims_lock_free ⟨4, rfl⟩ Nat 2 (.replicate 4 0)
  have hquiet : ∀ signal ∈ (begun.run (before ++ after)).1, signal.endsCall 0 = false := by decide
  obtain ⟨hcall, -⟩ := (hlock []).1 0 before after rfl rfl
    fun p hp => hstrong p (List.mem_cons_of_mem _ hp)
  exact ⟨rfl, rfl, (hcall hquiet).2, (hlock _).2 hstrong⟩

end RingTransport.Threads
