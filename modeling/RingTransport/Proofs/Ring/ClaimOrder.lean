/-
  The order of messages. A claim is numbered by the value of the tail it was won at, and
  `winsOf` lists the claims of a run in the order in which they were won. Main fact: the
  messages handed over are those of the claims 0, 1, 2, …, one each, as they were when they
  were committed, and committed before they are handed over
  (`many_producers_in_claim_order`); so nothing is lost, doubled or torn, and each producer's
  messages come out in the order of its claims.
-/
import RingTransport.Proofs.Ring.Delivery

namespace RingTransport.Threads

open RingTransport.Ring
open scoped List

variable {kind : Kind} {cap : Capacity} {α : Type} {log : List (Signal α)}

/-! ## Claims and the producers that win them -/

/-- The claim that a step wins, if it moves the tail: the producer, and the value the tail
had. -/
def winOf (s : Threads kind cap α) (move : Move α) : List (Nat × Nat) :=
  match move with
  | .produce p _ => if (s.step move).2.ring.tail = s.ring.tail then [] else [(p, s.ring.tail)]
  | _ => []

/-- The claims won in a run, in the order in which they moved the tail. -/
def winsOf (s : Threads kind cap α) : List (Move α) → List (Nat × Nat)
  | [] => []
  | move :: moves => winOf s move ++ winsOf (s.step move).2 moves

/-- Messages come out in claim order. -/
structure InClaimOrder (wins : List (Nat × Nat)) (log : List (Signal α)) : Prop where
  /-- Claims are numbered in the order in which they were won. -/
  numbered : wins.map (·.2) = List.range wins.length
  /-- A claim is committed by the producer that won it. -/
  committer : ∀ p seq message, (p, seq, message) ∈ commitsOf log → (p, seq) ∈ wins
  /-- No claim is committed twice. -/
  once : ((commitsOf log).map (·.2.1)).Nodup
  /-- The messages handed over are those of the claims 0, 1, 2, …, one each. -/
  numbers : (handedOf log).map (·.1) = List.range (handedOf log).length
  /-- Each is what its claim held at its commit. -/
  messages : (handedOf log).map (some ·.2) =
    (List.range (handedOf log).length).map (commitOf log)
  /-- A claim is committed before its message is handed over. -/
  committed_first : ∀ before seq message after, log = before ++ .handed seq message :: after →
    ∃ p, (p, seq, message) ∈ commitsOf before
  /-- The messages of one producer come out in the order in which it won their claims. -/
  by_producer : ∀ p, ((handedOf log).map (·.1)).filter (fun seq => decide ((p, seq) ∈ wins)) =
    ((wins.filter (·.1 == p)).map (·.2)).filter (· < (handedOf log).length)

/-- A step wins a claim exactly when it moves the tail. -/
theorem winOf_eq {s : Threads kind cap α} (h : Inv s) (move : Move α) :
    (s.step move).2.ring.tail = s.ring.tail ∧ winOf s move = [] ∨
      ∃ p, (s.step move).2.ring.tail = s.ring.tail + 1 ∧ winOf s move = [(p, s.ring.tail)] := by
  have hs := stepOf s move
  obtain ⟨_, _, he⟩ := effect_step h move
  by_cases htail : (s.step move).2.ring.tail = s.ring.tail
  · refine .inl ⟨htail, ?_⟩
    cases move with
    | produce p spurious => exact if_pos htail
    | _ => rfl
  · obtain ⟨p, spurious, rfl⟩ := hs.produce_of_tail htail
    exact .inr ⟨p, he.tail_eq.resolve_left htail, if_neg htail⟩

theorem mem_live_set {ps : List ProducerThread} {p q seq : Nat} {t u u' : ProducerThread}
    (ht : (ps.set q u')[p]? = some t) (hseq : seq ∈ t.live) (hu : ps[q]? = some u)
    (hsub : seq ∈ u'.live → seq ∈ u.live) : ∃ t', ps[p]? = some t' ∧ seq ∈ t'.live := by
  rw [List.getElem?_set] at ht
  split at ht
  next hqp =>
    split at ht
    next =>
      obtain rfl := Option.some.inj ht
      exact ⟨u, hqp ▸ hu, hsub hseq⟩
    next => cases ht
  next => exact ⟨t, ht, hseq⟩

theorem live_produced {r r' : Ring kind cap α} {ps : List ProducerThread} {p q seq : Nat}
    {t u u' : ProducerThread} {signal : Signal α} (hu : ps[q]? = some u)
    (h : Produced q r u signal u' r') (ht : (ps.set q u')[p]? = some t) (hseq : seq ∈ t.live) :
    (∃ t', ps[p]? = some t' ∧ seq ∈ t'.live) ∨
      p = q ∧ seq = r.tail ∧ r'.tail = r.tail + 1 := by
  cases h with
  | still _ hlive | tag hlive => exact .inl (mem_live_set ht hseq hu (hlive ▸ id))
  | take _ _ hlive =>
    rw [List.getElem?_set] at ht
    split at ht
    next hqp =>
      split at ht
      next =>
        obtain rfl := Option.some.inj ht
        rw [hlive] at hseq
        rcases List.mem_cons.1 hseq with rfl | hseq
        · exact .inr ⟨hqp.symm, rfl, rfl⟩
        · exact .inl ⟨u, hqp ▸ hu, hseq⟩
      next => cases ht
    next => exact .inl ⟨t, ht, hseq⟩

/-- After a step, each live claim of a thread was one of its live claims before, or is the
one that it has just won. -/
theorem StepOf.live {s s' : Threads kind cap α} {move : Move α} {signal : Signal α}
    (hs : StepOf s move signal s') (h : Inv s) {p : Nat} {t : ProducerThread}
    (ht : s'.producers[p]? = some t) {seq : Nat} (hseq : seq ∈ t.live) :
    (∃ t', s.producers[p]? = some t' ∧ seq ∈ t'.live) ∨
      (∃ spurious, move = .produce p spurious) ∧ seq = s.ring.tail ∧
        s'.ring.tail = s.ring.tail + 1 := by
  cases hs with
  | claim hp | measure hp => exact .inl (mem_live_set ht hseq hp id)
  | @produce r ps c q call held hp spurious =>
    have hcall := h.calls _ (List.mem_of_getElem? hp) call rfl
    have hprod := produced q spurious held h.owned.head_le_tail hcall
    refine (live_produced hp hprod ht hseq).imp_right ?_
    rintro ⟨rfl, hseq, htail⟩
    exact ⟨⟨spurious, rfl⟩, hseq, htail⟩
  | commit hp | abandon hp =>
    exact .inl (mem_live_set ht hseq hp fun hmem => List.mem_of_mem_erase hmem)
  | ignored | write | read | measureRead | consume => exact .inl ⟨t, ht, hseq⟩

theorem live_step {s : Threads kind cap α} (h : Inv s) (move : Move α) {p : Nat}
    {t : ProducerThread} (ht : (s.step move).2.producers[p]? = some t) {seq : Nat}
    (hseq : seq ∈ t.live) :
    (∃ t', s.producers[p]? = some t' ∧ seq ∈ t'.live) ∨ (p, seq) ∈ winOf s move := by
  refine ((stepOf s move).live h ht hseq).imp_right ?_
  rintro ⟨⟨spurious, rfl⟩, rfl, htail⟩
  have hmoved : (s.step (.produce p spurious)).2.ring.tail ≠ s.ring.tail := by omega
  rw [winOf, if_neg hmoved]
  exact List.mem_singleton_self _

theorem consumeAccess_ne_committed (fails : Bool) (call : ConsumerCall) (r : Ring kind cap α)
    (p seq : Nat) (message : α) : (consumeAccess fails call r).1 ≠ .committed p seq message := by
  intro hsig
  cases call with
  | reading stage =>
    simp only [consumeAccess] at hsig
    generalize r.readAccess fails stage = acc at hsig
    obtain ⟨progress, r'⟩ := acc
    cases progress <;> cases hsig
  | measuring stage => cases stage <;> cases hsig

/-- A claim is committed by a thread of which it is a live claim. -/
theorem StepOf.live_of_committed {s s' : Threads kind cap α} {move : Move α} {p seq : Nat}
    {message : α} {signal : Signal α} (hs : StepOf s move signal s') (h : Inv s)
    (hsig : signal = .committed p seq message) :
    ∃ t, s.producers[p]? = some t ∧ seq ∈ t.live := by
  cases hs with
  | @produce r ps c q call held hp spurious =>
    have hcall := h.calls _ (List.mem_of_getElem? hp) call rfl
    have hprod := produced q spurious held h.owned.head_le_tail hcall
    generalize produceAccess q spurious call held r = out at hprod hsig
    obtain ⟨signal, u, r'⟩ := out
    obtain rfl : signal = .committed p seq message := hsig
    rcases hprod with ⟨hplain, _, _⟩ | ⟨_, hplain, _, _⟩ <;> cases hplain
  | commit hp hmem =>
    cases hsig
    exact ⟨_, hp, hmem⟩
  | consume call fails =>
    exact absurd hsig (consumeAccess_ne_committed fails call _ p seq message)
  | _ => cases hsig

/-- What the claims won so far say of the live claims and the commits. -/
structure Won (wins : List (Nat × Nat)) (log : List (Signal α)) (s : Threads kind cap α) :
    Prop where
  numbered : wins.map (·.2) = List.range s.ring.tail
  live : ∀ p t, s.producers[p]? = some t → ∀ seq ∈ t.live, (p, seq) ∈ wins
  committer : ∀ p seq message, (p, seq, message) ∈ commitsOf log → (p, seq) ∈ wins

theorem Fresh.won {s : Threads kind cap α} (h : s.Fresh) : Won [] [] s := by
  obtain ⟨producers, slots, -, rfl⟩ := h
  refine ⟨rfl, fun p t ht seq hseq => ?_, nofun⟩
  obtain rfl := List.eq_of_mem_replicate (List.mem_of_getElem? ht)
  cases hseq

theorem won_step {wins : List (Nat × Nat)} {s : Threads kind cap α} (hw : Won wins log s)
    (h : Inv s) (move : Move α) :
    Won (wins ++ winOf s move) (log ++ [(s.step move).1]) (s.step move).2 where
  numbered := by
    rw [List.map_append, hw.numbered]
    rcases winOf_eq h move with ⟨htail, hwin⟩ | ⟨p, htail, hwin⟩
    · rw [htail, hwin]
      exact List.append_nil _
    · rw [htail, hwin, List.range_succ]
      rfl
  live := by
    intro p t ht seq hseq
    rcases live_step h move ht hseq with ⟨t', ht', hold⟩ | hnew
    · exact List.mem_append_left _ (hw.live p t' ht' seq hold)
    · exact List.mem_append_right _ hnew
  committer := by
    intro p seq message hmem
    refine List.mem_append_left _ ?_
    rw [commitsOf_append] at hmem
    rcases List.mem_append.1 hmem with hold | hnew
    · exact hw.committer p seq message hold
    · obtain ⟨signal, hsignal, hcommit⟩ := List.mem_filterMap.1 hnew
      obtain rfl := List.mem_singleton.1 hsignal
      have hsig : (s.step move).1 = .committed p seq message := by
        split at hcommit
        next heq =>
          obtain ⟨rfl, rfl, rfl⟩ : _ = p ∧ _ = seq ∧ _ = message := by simpa using hcommit
          exact heq
        next => cases hcommit
      obtain ⟨t, ht, hseq⟩ := (stepOf s move).live_of_committed h hsig
      exact hw.live p t ht seq hseq

theorem won_run {wins : List (Nat × Nat)} {s : Threads kind cap α} (hw : Won wins log s)
    (h : Inv s) (moves : List (Move α)) :
    Won (wins ++ winsOf s moves) (log ++ (s.run moves).1) (s.run moves).2 := by
  induction moves generalizing s log wins with
  | nil =>
    show Won (wins ++ []) (log ++ []) s
    rw [List.append_nil, List.append_nil]
    exact hw
  | cons move moves ih =>
    have hrun := ih (won_step hw h move) (inv_step h move)
    rw [List.append_assoc, List.append_assoc] at hrun
    exact hrun


/-! ## The order of messages -/

/-- The signals of the first moves of a run. -/
theorem run_take (s : Threads kind cap α) (moves : List (Move α)) (n : Nat) :
    (s.run (moves.take n)).1 = (s.run moves).1.take n := by
  induction moves generalizing s n with
  | nil => simp [run]
  | cons move moves ih =>
    cases n with
    | zero => rfl
    | succ n => exact congrArg _ (ih (s.step move).2 n)

/-- A claim that is committed once has one commit to be found. -/
theorem commitOf_eq {p seq : Nat} {message : α} (honce : ((commitsOf log).map (·.2.1)).Nodup)
    (hmem : (p, seq, message) ∈ commitsOf log) : commitOf log seq = some message := by
  unfold commitOf
  cases hfind : (commitsOf log).find? (·.2.1 == seq) with
  | none => simpa using List.find?_eq_none.1 hfind _ hmem
  | some commit =>
    have hseq : commit.2.1 = seq := by simpa using List.find?_some hfind
    have heq := List.inj_on_of_nodup_map honce (List.mem_of_find?_eq_some hfind) hmem hseq
    rw [heq]
    rfl

theorem filter_range {d n : Nat} (hd : d ≤ n) (q : Nat → Bool) :
    ((List.range n).filter q).filter (· < d) = (List.range d).filter q := by
  obtain ⟨k, rfl⟩ := Nat.exists_eq_add_of_le hd
  have hlow : ((List.range d).filter q).filter (· < d) = (List.range d).filter q := by
    refine List.filter_eq_self.2 fun seq hseq => ?_
    exact decide_eq_true (List.mem_range.1 (List.mem_of_mem_filter hseq))
  have hhigh : (((List.range k).map (d + ·)).filter q).filter (· < d) = [] := by
    refine List.filter_eq_nil_iff.2 fun seq hseq => ?_
    obtain ⟨i, -, rfl⟩ := List.mem_map.1 (List.mem_of_mem_filter hseq)
    simp
  rw [List.range_add, List.filter_append, List.filter_append, hlow, hhigh, List.append_nil]

/-- The claims of one producer, in the order in which it won them. -/
theorem wins_of_producer {wins : List (Nat × Nat)} {n : Nat}
    (hnum : wins.map (·.2) = List.range n) (p : Nat) :
    (wins.filter (·.1 == p)).map (·.2) =
      (List.range n).filter (fun seq => decide ((p, seq) ∈ wins)) := by
  have hnodup : (wins.map (·.2)).Nodup := hnum ▸ List.nodup_range
  have howner : ∀ win ∈ wins, (win.1 == p) = decide ((p, win.2) ∈ wins) := by
    rintro ⟨q, seq⟩ hmem
    by_cases hq : q = p
    · subst hq
      simp [hmem]
    · have hnot : (p, seq) ∉ wins := fun hp =>
        hq (congrArg Prod.fst (List.inj_on_of_nodup_map hnodup hmem hp rfl))
      simp [hq, hnot]
  rw [List.filter_congr howner, ← hnum, List.filter_map]
  rfl

theorem Fresh.recorded {s : Threads kind cap α} (h : s.Fresh) (moves : List (Move α)) :
    Recorded (s.run moves).1 (s.run moves).2.ring (s.run moves).2.live
      (s.run moves).2.consumer := by
  have hrec : Recorded [] s.ring s.live s.consumer := by
    rw [h.live_eq]
    obtain ⟨producers, slots, -, rfl⟩ := h
    exact recorded_init slots
  simpa using recorded_run h.inv hrec moves

theorem Fresh.inClaimOrder {s : Threads kind cap α} (h : s.Fresh) (moves : List (Move α)) :
    InClaimOrder (winsOf s moves) (s.run moves).1 := by
  have hrec := h.recorded moves
  have hwon : Won (winsOf s moves) (s.run moves).1 (s.run moves).2 := by
    simpa using won_run h.won h.inv moves
  have hlen : (winsOf s moves).length = (s.run moves).2.ring.tail := by
    rw [← List.length_map, hwon.numbered, List.length_range]
  refine ⟨?_, hwon.committer, hrec.once, hrec.numbers, ?_, ?_, ?_⟩
  · rw [hlen]
    exact hwon.numbered
  · rw [← hrec.numbers, List.map_map]
    refine List.map_congr_left fun ⟨seq, message⟩ hmem => ?_
    obtain ⟨p, hp⟩ := hrec.handed seq message hmem
    exact (commitOf_eq hrec.once hp).symm
  · intro before seq message after hlog
    -- the record of the run up to the step that hands the message over
    have hcut := h.recorded (moves.take (before.length + 1))
    rw [run_take, hlog, List.take_length_add_append, List.take_succ_cons, List.take_zero] at hcut
    have hmem : (seq, message) ∈ handedOf (before ++ [.handed seq message]) := by
      rw [handedOf_handed]
      exact List.mem_append_right _ (List.mem_singleton_self _)
    obtain ⟨p, hp⟩ := hcut.handed seq message hmem
    rw [commitsOf_handed] at hp
    exact ⟨p, hp⟩
  · intro p
    rw [wins_of_producer hwon.numbered, hrec.numbers]
    exact (filter_range hrec.length_le _).symm

/-- Any number of producer threads, in any order of steps, with compare-and-swaps that fail
for no reason, and reads with any limits: the messages come out in claim order. -/
theorem many_producers_in_claim_order (producers : Nat) (slots : Vector α cap.size)
    (moves : List (Move α)) :
    let start : Threads .manyProducers cap α := init producers (.ofSlots slots)
    InClaimOrder (winsOf start moves) (start.run moves).1 := by
  intro start
  have hfresh : start.Fresh := ⟨producers, slots, nofun, rfl⟩
  exact hfresh.inClaimOrder moves

end RingTransport.Threads
