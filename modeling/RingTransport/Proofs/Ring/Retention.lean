/-
  What becomes of a commit. From the commit of a claim until its message is handed over its
  slot stays ready (`Kept`), and a slot is ready on account of its own claim only: a mark
  that an earlier lap left there is gone before the slot is claimed again. Both hold for one
  producer or many. Main fact: one producer that holds any number of claims, and commits or
  gives them up in any order, has its messages delivered in the order of its claims, each
  after its own commit (`one_producer_in_claim_order`).
-/
import RingTransport.Proofs.Ring.ClaimOrder

namespace RingTransport.Threads

open RingTransport.Ring
open scoped List

variable {kind : Kind} {cap : Capacity} {α : Type}

/-! ## Committed messages stay ready -/

/-- A message that is committed and not yet handed over is ready. -/
def Kept (log : List (Signal α)) (r : Ring kind cap α) : Prop :=
  ∀ p seq message, (p, seq, message) ∈ commitsOf log → (handedOf log).length ≤ seq →
    r.markOf seq = .ready

variable {log : List (Signal α)} {r r' : Ring kind cap α} {live live' : List Nat}
  {c c' : Option ConsumerCall} {signal : Signal α}

/-- What is committed and not yet handed over falls into the lap, on a slot of its own. -/
theorem Recorded.waiting (h : Recorded log r live c) (ho : r.Owned live) {p seq : Nat}
    {message : α} (hmem : (p, seq, message) ∈ commitsOf log)
    (hd : (handedOf log).length ≤ seq) :
    r.head ≤ seq ∧ seq < r.head + cap.size ∧ seq ∉ live := by
  obtain ⟨hlt, hnot, -⟩ := h.committed p seq message hmem
  exact ⟨Nat.le_trans h.head_le hd, Nat.lt_of_lt_of_le hlt ho.tail_le_lap, hnot⟩

theorem Kept.plain (h : Kept log r) (hplain : signal.isPlain = true)
    (hmark : ∀ p seq message, (p, seq, message) ∈ commitsOf log →
      (handedOf log).length ≤ seq → r'.markOf seq = r.markOf seq) :
    Kept (log ++ [signal]) r' := by
  intro p seq message hmem hd
  rw [commitsOf_plain log hplain] at hmem
  rw [handedOf_plain log hplain] at hd
  rw [hmark p seq message hmem hd]
  exact h p seq message hmem hd

theorem Kept.commit (h : Kept log r) (p seq : Nat) :
    Kept (log ++ [.committed p seq (r.slotOf seq)]) (r.commit (cap.indexOf seq)) := by
  intro q other message hmem hd
  rw [commitsOf_committed] at hmem
  rw [handedOf_committed] at hd
  rw [markOf_commit]
  split
  · rfl
  · next hindex =>
    rcases List.mem_append.1 hmem with hold | hnew
    · exact h q other message hold hd
    · obtain ⟨-, rfl, -⟩ : q = p ∧ other = seq ∧ message = r.slotOf seq := by simpa using hnew
      exact absurd rfl hindex

theorem Kept.hand (h : Kept log r) (seq : Nat) (message : α) :
    Kept (log ++ [.handed seq message]) r := by
  intro p other x hmem hd
  rw [commitsOf_handed] at hmem
  rw [length_handedOf_handed] at hd
  exact h p other x hmem (Nat.le_of_succ_le hd)

/-- The mark that the reader clears is that of the message handed over last. -/
theorem Kept.clear (h : Kept log r) {start count left : Nat}
    (hrec : Recorded log r live (some (.reading (.clearing start count left))))
    (ho : r.Owned live) (hs : ReadSound r live (.clearing start count left)) :
    Kept (log ++ [.quiet]) (r.mark (cap.indexOf (start + count)) .empty) := by
  refine h.plain rfl fun p seq message hmem hd => ?_
  have hlast : start + count + 1 = (handedOf log).length := hrec.reader _ rfl
  have hstart : start = r.head := hs.1.start_eq
  obtain ⟨hle, hlap, -⟩ := hrec.waiting ho hmem hd
  rw [markOf_mark, if_neg]
  intro hindex
  have := cap.eq_of_indexOf_eq_of_lap (by omega) (by omega) hle hlap hindex
  omega

theorem Kept.consume (h : Kept log r) {call : ConsumerCall}
    (hrec : Recorded log r live (some call)) (ho : r.Owned live)
    (hr : ∀ stage, some call = some (.reading stage) → r.ReadSound live stage) (fails : Bool) :
    Kept (log ++ [(consumeAccess fails call r).1]) (consumeAccess fails call r).2.2 := by
  cases call with
  | measuring stage => cases stage <;> exact h.plain rfl fun _ _ _ _ _ => rfl
  | reading stage =>
    cases stage with
    | looking start count left =>
      by_cases hready : r.markOf (start + count) = .ready
      · simp only [consumeAccess, Ring.readAccess, if_pos hready]
        exact h.plain rfl fun _ _ _ _ _ => rfl
      · simp only [consumeAccess, Ring.readAccess, if_neg hready]
        exact h.plain rfl fun _ _ _ _ _ => rfl
    | handing start count left =>
      cases fails with
      | true => exact h.plain rfl fun _ _ _ _ _ => rfl
      | false => exact h.hand _ _
    | clearing start count left => exact h.clear hrec ho (hr _ rfl)
    | start | loaded | leaving => exact h.plain rfl fun _ _ _ _ _ => rfl

theorem kept_effect (h : Kept log r) (hrec : Recorded log r live c)
    (he : Effect r live c signal r' live' c') (ho : r.Owned live)
    (hr : ∀ stage, c = some (.reading stage) → r.ReadSound live stage) :
    Kept (log ++ [signal]) r' := by
  cases he with
  | still hplain | take _ hplain => exact h.plain hplain fun _ _ _ _ _ => rfl
  | tag hseq =>
    refine h.plain rfl fun p other message hmem hd => ?_
    obtain ⟨hle, hlap, hnot⟩ := hrec.waiting ho hmem hd
    rw [markOf_mark, if_neg (ho.indexOf_ne hseq hnot hle hlap)]
  | write | abandon | startRead | startMeasure => exact h.plain rfl fun _ _ _ _ _ => rfl
  | commit hseq => exact h.commit _ _
  | consume fails call => exact h.consume hrec ho hr fails

theorem kept_run {s : Threads kind cap α} (h : Inv s)
    (hrec : Recorded log s.ring s.live s.consumer) (hk : Kept log s.ring)
    (moves : List (Move α)) : Kept (log ++ (s.run moves).1) (s.run moves).2.ring := by
  induction moves generalizing s log with
  | nil =>
    show Kept (log ++ []) s.ring
    rw [List.append_nil]
    exact hk
  | cons move moves ih =>
    obtain ⟨live', hlive, he⟩ := effect_step h move
    have hstep := (recorded_effect hrec he h.owned h.reader).perm hlive.symm
    have hrun := ih (inv_step h move) hstep (kept_effect hk hrec he h.owned h.reader)
    rw [List.append_assoc] at hrun
    exact hrun

theorem Fresh.kept {s : Threads kind cap α} (h : s.Fresh) (moves : List (Move α)) :
    Kept (s.run moves).1 (s.run moves).2.ring := by
  have hnone : Kept [] s.ring := nofun
  exact kept_run h.inv (h.recorded []) hnone moves

/-! ## Marks and their claims -/

/-- How the marks of a ring stand to the claims and commits of a run so far. -/
structure OwnMarks (log : List (Signal α)) (s : Threads kind cap α) : Prop where
  /-- A claim that is not committed shows no mark, whatever its slot showed a lap before. -/
  unmarked : ∀ seq ∈ s.live, s.ring.markOf seq ≠ .ready
  /-- A slot that is ready is so by the commit of the very claim that has it. -/
  ready : ∀ seq, s.ring.head ≤ seq → seq < s.ring.head + cap.size →
    s.ring.markOf seq = .ready → ∃ p message, (p, seq, message) ∈ commitsOf log
  /-- What the reader takes for a commit is the commit of the claim it is about to deliver. -/
  seen : ∀ seq, s.Sees seq → ∃ p message, (p, seq, message) ∈ commitsOf log
  /-- A message that is committed and not yet delivered is ready, with what it held. -/
  waiting : ∀ p seq message, (p, seq, message) ∈ commitsOf log →
    (handedOf log).length ≤ seq → s.ring.markOf seq = .ready ∧ s.ring.slotOf seq = message

theorem Fresh.ownMarks {s : Threads kind cap α} (h : s.Fresh) (moves : List (Move α)) :
    OwnMarks (s.run moves).1 (s.run moves).2 := by
  have hrec := h.recorded moves
  have hinv : Inv (s.run moves).2 := inv_run h.inv moves
  refine ⟨fun seq hseq hready => ?_, hrec.ready, ?_, fun p seq message hmem hd => ⟨?_, ?_⟩⟩
  · have hlive := hinv.owned.ready seq (hinv.owned.head_le seq hseq) (hinv.owned.lt_lap hseq) hready
    exact hlive.2 hseq
  · rintro seq ⟨start, count, left, hstage, rfl⟩
    exact (hrec.reader _ hstage).2
  · exact h.kept moves p seq message hmem hd
  · exact (hrec.committed p seq message hmem).2.2 (Nat.le_trans hrec.head_le hd)

/-- One producer thread, which may hold any number of claims and commit them or give them up
in any order, in any order of its steps and the reader's, with reads of any limits: the
messages come out in claim order. No mark of an earlier lap is taken for the commit of a
later claim, and what is committed stays where it is until it is delivered. -/
theorem one_producer_in_claim_order (slots : Vector α cap.size) (moves : List (Move α)) :
    let start : Threads .oneProducer cap α := init 1 (.ofSlots slots)
    InClaimOrder (winsOf start moves) (start.run moves).1 ∧
      OwnMarks (start.run moves).1 (start.run moves).2 := by
  intro start
  have hfresh : start.Fresh := ⟨1, slots, fun _ => Nat.le_refl 1, rfl⟩
  exact ⟨hfresh.inClaimOrder moves, hfresh.ownMarks moves⟩

end RingTransport.Threads
