/-
  What the reader of a shared ring is handed, told from the signals of a run: `commitsOf`
  lists the commits and `handedOf` the messages that the callback took. `Recorded` relates
  the signals so far to the ring, the live claims and the reader, and every effect keeps it
  (`recorded_effect`), for one producer or many. So in every run the messages are handed
  over in the order of their numbers, each after its commit (`recorded_run`).

  A message on which the callback failed does not count as handed over: it is either
  handed over again or never passed.
-/
import RingTransport.Proofs.Ring.Interleaving

namespace RingTransport.Threads

open RingTransport.Ring
open scoped List

variable {kind : Kind} {cap : Capacity} {α : Type}

/-! ## What the signals of a run tell -/

/-- The commits: producer, number of the claim, and what its slot held. -/
def commitsOf (log : List (Signal α)) : List (Nat × Nat × α) :=
  log.filterMap fun
    | .committed p seq message => some (p, seq, message)
    | _ => none

/-- The messages that the callback took, each with its number. -/
def handedOf (log : List (Signal α)) : List (Nat × α) :=
  log.filterMap fun
    | .handed seq message => some (seq, message)
    | _ => none

/-- What a claim held when it was committed. -/
def commitOf (log : List (Signal α)) (seq : Nat) : Option α :=
  ((commitsOf log).find? (·.2.1 == seq)).map (·.2.2)

theorem commitsOf_append (log log' : List (Signal α)) :
    commitsOf (log ++ log') = commitsOf log ++ commitsOf log' :=
  List.filterMap_append

theorem handedOf_append (log log' : List (Signal α)) :
    handedOf (log ++ log') = handedOf log ++ handedOf log' :=
  List.filterMap_append

theorem commitsOf_plain (log : List (Signal α)) {signal : Signal α}
    (h : signal.isPlain = true) : commitsOf (log ++ [signal]) = commitsOf log := by
  rw [commitsOf_append]
  cases signal with
  | committed p seq message => cases h
  | _ => exact List.append_nil _

theorem handedOf_plain (log : List (Signal α)) {signal : Signal α}
    (h : signal.isPlain = true) : handedOf (log ++ [signal]) = handedOf log := by
  rw [handedOf_append]
  cases signal with
  | handed seq message => cases h
  | _ => exact List.append_nil _

/-! ## The record and the ring -/

/-- How far a read is, against the number of messages handed over. -/
def ReadRecorded (log : List (Signal α)) : ReadStage → Prop
  | .start _ | .loaded _ _ => True
  | .looking start count _ => count = 0 ∨ start + count = (handedOf log).length
  | .handing start count _ =>
    start + count = (handedOf log).length ∧
      ∃ p message, (p, start + count, message) ∈ commitsOf log
  | .clearing start count _ => start + count + 1 = (handedOf log).length
  | .leaving start count => start + count ≤ (handedOf log).length

/-- What the signals so far say of the ring, the live claims and the reader. -/
structure Recorded (log : List (Signal α)) (r : Ring kind cap α) (live : List Nat)
    (c : Option ConsumerCall) : Prop where
  once : ((commitsOf log).map (·.2.1)).Nodup
  committed : ∀ p seq message, (p, seq, message) ∈ commitsOf log →
    seq < r.tail ∧ seq ∉ live ∧ (r.head ≤ seq → r.slotOf seq = message)
  ready : ∀ seq, r.head ≤ seq → seq < r.head + cap.size → r.markOf seq = .ready →
    ∃ p message, (p, seq, message) ∈ commitsOf log
  numbers : (handedOf log).map (·.1) = List.range (handedOf log).length
  handed : ∀ seq message, (seq, message) ∈ handedOf log →
    ∃ p, (p, seq, message) ∈ commitsOf log
  head_le : r.head ≤ (handedOf log).length
  /-- A message that was handed over is not ready again, unless its mark is being cleared. -/
  cleared : ∀ seq, r.head ≤ seq → seq < (handedOf log).length → r.markOf seq = .ready →
    ∃ start count left, c = some (.reading (.clearing start count left)) ∧ seq = start + count
  reader : ∀ stage, c = some (.reading stage) → ReadRecorded log stage

variable {log : List (Signal α)} {r r' : Ring kind cap α} {live live' : List Nat}
  {c c' : Option ConsumerCall} {signal : Signal α}

theorem recorded_init (slots : Vector α cap.size) :
    Recorded [] (ofSlots slots : Ring kind cap α) [] none where
  once := List.nodup_nil
  committed := nofun
  ready := by
    intro seq _ _ hready
    simp [ofSlots, markOf] at hready
  numbers := rfl
  handed := nofun
  head_le := Nat.le_refl 0
  cleared := fun seq _ hlt => absurd hlt (Nat.not_lt_zero seq)
  reader := nofun

theorem Recorded.perm (h : Recorded log r live c) (hp : live ~ live') :
    Recorded log r live' c :=
  { h with
    committed := fun p seq message hmem =>
      have ⟨hlt, hnot, hslot⟩ := h.committed p seq message hmem
      ⟨hlt, fun hlive => hnot (hp.mem_iff.2 hlive), hslot⟩ }

/-- Every message handed over has a commit. -/
theorem Recorded.commit_of_lt (h : Recorded log r live c) {seq : Nat}
    (hlt : seq < (handedOf log).length) : ∃ p message, (p, seq, message) ∈ commitsOf log := by
  have hmem : seq ∈ (handedOf log).map (·.1) := by
    rw [h.numbers]
    exact List.mem_range.2 hlt
  obtain ⟨⟨_, message⟩, hpair, rfl⟩ := List.mem_map.1 hmem
  obtain ⟨p, hp⟩ := h.handed _ message hpair
  exact ⟨p, message, hp⟩

theorem Recorded.lt_tail (h : Recorded log r live c) {seq : Nat}
    (hlt : seq < (handedOf log).length) : seq < r.tail ∧ seq ∉ live := by
  obtain ⟨p, message, hmem⟩ := h.commit_of_lt hlt
  obtain ⟨htail, hnot, -⟩ := h.committed p seq message hmem
  exact ⟨htail, hnot⟩

theorem Recorded.length_le (h : Recorded log r live c) : (handedOf log).length ≤ r.tail := by
  refine Nat.le_of_not_lt fun hlt => ?_
  exact Nat.lt_irrefl _ (h.lt_tail hlt).1

/-- A signal that shows neither a commit nor a message leaves the record as it is. -/
theorem Recorded.plain (h : Recorded log r live c) (hplain : signal.isPlain = true) :
    Recorded (log ++ [signal]) r live c := by
  have hreader : ∀ stage, ReadRecorded (log ++ [signal]) stage ↔ ReadRecorded log stage := by
    intro stage
    cases stage <;> simp only [ReadRecorded, commitsOf_plain log hplain, handedOf_plain log hplain]
  constructor <;> simp only [hreader, commitsOf_plain log hplain, handedOf_plain log hplain]
  exacts [h.once, h.committed, h.ready, h.numbers, h.handed, h.head_le, h.cleared, h.reader]

/-! ## Steps of producers keep the record -/

theorem Recorded.take (h : Recorded log r live c) :
    Recorded log (r.setTail (r.tail + 1)) (r.tail :: live) c :=
  { h with
    committed := by
      intro p seq message hmem
      obtain ⟨hlt, hnot, hslot⟩ := h.committed p seq message hmem
      exact ⟨Nat.lt_succ_of_lt hlt, keeps_take.not_live seq hlt hnot, hslot⟩ }

theorem Recorded.mark (h : Recorded log r live c) (i : Fin cap.size) {m : Mark}
    (hm : m ≠ .ready) : Recorded log (r.mark i m) live c :=
  { h with
    ready := fun seq hle hlt hready => h.ready seq hle hlt (ready_of_ready_mark hm hready)
    cleared := fun seq hle hlt hready => h.cleared seq hle hlt (ready_of_ready_mark hm hready) }

theorem Recorded.write (h : Recorded log r live c) (ho : r.Owned live) {seq : Nat}
    (hseq : seq ∈ live) (x : α) : Recorded log (r.write (cap.indexOf seq) x) live c :=
  { h with
    committed := by
      intro p other message hmem
      obtain ⟨hlt, hnot, hslot⟩ := h.committed p other message hmem
      refine ⟨hlt, hnot, fun hle => ?_⟩
      have hlap : other < r.head + cap.size := Nat.lt_of_lt_of_le hlt ho.tail_le_lap
      rw [slotOf_write, if_neg (ho.indexOf_ne hseq hnot hle hlap)]
      exact hslot hle }

theorem Recorded.erase (h : Recorded log r live c) (seq : Nat) :
    Recorded log r (live.erase seq) c :=
  { h with
    committed := fun p other message hmem =>
      have ⟨hlt, hnot, hslot⟩ := h.committed p other message hmem
      ⟨hlt, fun hlive => hnot (List.mem_of_mem_erase hlive), hslot⟩ }

theorem commitsOf_committed (log : List (Signal α)) (p seq : Nat) (message : α) :
    commitsOf (log ++ [.committed p seq message]) = commitsOf log ++ [(p, seq, message)] :=
  commitsOf_append log _

theorem handedOf_committed (log : List (Signal α)) (p seq : Nat) (message : α) :
    handedOf (log ++ [.committed p seq message]) = handedOf log :=
  (handedOf_append log _).trans (List.append_nil _)

theorem ReadRecorded.committed {stage : ReadStage} (h : ReadRecorded log stage) (p seq : Nat)
    (message : α) : ReadRecorded (log ++ [.committed p seq message]) stage := by
  cases stage with
  | handing start count left =>
    obtain ⟨hd, q, x, hmem⟩ := h
    rw [ReadRecorded, handedOf_committed, commitsOf_committed]
    exact ⟨hd, q, x, List.mem_append_left _ hmem⟩
  | _ =>
    simp only [ReadRecorded, handedOf_committed] at h ⊢
    try exact h

/-- A commit is the first of its claim, and the slot holds what is committed. -/
theorem Recorded.commit (h : Recorded log r live c) (ho : r.Owned live) {p seq : Nat}
    (hseq : seq ∈ live) :
    Recorded (log ++ [.committed p seq (r.slotOf seq)]) (r.commit (cap.indexOf seq))
      (live.erase seq) c where
  once := by
    rw [commitsOf_committed, List.map_append]
    refine List.Nodup.append h.once (List.nodup_singleton _) fun other hmem hnew => ?_
    obtain rfl : other = seq := by simpa using hnew
    obtain ⟨⟨q, _, message⟩, hpair, rfl⟩ := List.mem_map.1 hmem
    exact (h.committed q _ message hpair).2.1 hseq
  committed := by
    intro q other message hmem
    rw [commitsOf_committed] at hmem
    rcases List.mem_append.1 hmem with hold | hnew
    · exact (h.erase seq).committed q other message hold
    · obtain ⟨rfl, rfl, rfl⟩ : q = p ∧ other = seq ∧ message = r.slotOf seq := by
        simpa using hnew
      exact ⟨ho.lt_tail _ hseq, ho.nodup.not_mem_erase, fun _ => rfl⟩
  ready := by
    intro other hle hlt hready
    rw [commitsOf_committed]
    rw [markOf_commit] at hready
    split at hready
    next hindex =>
      obtain rfl := cap.eq_of_indexOf_eq_of_lap (ho.head_le _ hseq) (ho.lt_lap hseq) hle hlt hindex
      exact ⟨p, _, List.mem_append_right _ (List.mem_singleton_self _)⟩
    next =>
      obtain ⟨q, message, hmem⟩ := h.ready other hle hlt hready
      exact ⟨q, message, List.mem_append_left _ hmem⟩
  numbers := by
    rw [handedOf_committed]
    exact h.numbers
  handed := by
    intro other message hmem
    rw [handedOf_committed] at hmem
    obtain ⟨q, hq⟩ := h.handed other message hmem
    rw [commitsOf_committed]
    exact ⟨q, List.mem_append_left _ hq⟩
  head_le := by
    rw [handedOf_committed]
    exact h.head_le
  cleared := by
    intro other hle hlt hready
    rw [handedOf_committed] at hlt
    -- a message that was handed over is no live claim, so its slot is not the one committed
    obtain ⟨htail, hnot⟩ := h.lt_tail hlt
    have hlap : other < r.head + cap.size := Nat.lt_of_lt_of_le htail ho.tail_le_lap
    rw [markOf_commit, if_neg (ho.indexOf_ne hseq hnot hle hlap)] at hready
    exact h.cleared other hle hlt hready
  reader := fun stage hstage => (h.reader stage hstage).committed p seq _

/-! ## Steps of the reader keep the record -/

/-- The reader, which clears no mark just now, goes on to another stage. -/
theorem Recorded.goto (h : Recorded log r live c)
    (hnow : ∀ start count left, c ≠ some (.reading (.clearing start count left)))
    (hreader : ∀ stage, c' = some (.reading stage) → ReadRecorded log stage) :
    Recorded log r live c' :=
  { h with
    cleared := by
      intro seq hle hlt hready
      obtain ⟨start, count, left, hc, -⟩ := h.cleared seq hle hlt hready
      exact absurd hc (hnow start count left)
    reader := hreader }

theorem Recorded.goto_stage (h : Recorded log r live c)
    (hnow : ∀ start count left, c ≠ some (.reading (.clearing start count left)))
    (stage : ReadStage) (hstage : ReadRecorded log stage) :
    Recorded log r live (some (.reading stage)) := by
  refine h.goto hnow fun stage' hc => ?_
  obtain rfl : stage = stage' := by simpa using hc
  exact hstage

theorem readRecorded_next {start count : Nat} (left : Nat)
    (h : count = 0 ∧ start ≤ (handedOf log).length ∨ start + count = (handedOf log).length) :
    ReadRecorded log (.next start count left) := by
  cases left with
  | zero => show start + count ≤ (handedOf log).length; omega
  | succ left => show count = 0 ∨ start + count = (handedOf log).length; omega

theorem commitsOf_handed (log : List (Signal α)) (seq : Nat) (message : α) :
    commitsOf (log ++ [.handed seq message]) = commitsOf log :=
  (commitsOf_append log _).trans (List.append_nil _)

theorem handedOf_handed (log : List (Signal α)) (seq : Nat) (message : α) :
    handedOf (log ++ [.handed seq message]) = handedOf log ++ [(seq, message)] :=
  handedOf_append log _

theorem length_handedOf_handed (log : List (Signal α)) (seq : Nat) (message : α) :
    (handedOf (log ++ [.handed seq message])).length = (handedOf log).length + 1 := by
  rw [handedOf_handed, List.length_append, List.length_singleton]

/-- The callback takes the next message; its mark is cleared in the step after. -/
theorem Recorded.hand {start count left : Nat}
    (h : Recorded log r live (some (.reading (.handing start count left))))
    (hs : ReadSound r live (.handing start count left)) :
    Recorded (log ++ [.handed (start + count) (r.slotOf (start + count))]) r live
      (some (.reading (.clearing start count left))) := by
  obtain ⟨hd, p, message, hmem⟩ := h.reader _ rfl
  have hstart : start = r.head := hs.1.start_eq
  constructor
  · rw [commitsOf_handed]
    exact h.once
  · rw [commitsOf_handed]
    exact h.committed
  · rw [commitsOf_handed]
    exact h.ready
  · rw [length_handedOf_handed, List.range_succ, ← h.numbers, handedOf_handed, List.map_append,
      hd, h.numbers]
    rfl
  · intro seq x hx
    rw [handedOf_handed] at hx
    rw [commitsOf_handed]
    rcases List.mem_append.1 hx with hold | hnew
    · exact h.handed seq x hold
    · obtain ⟨rfl, rfl⟩ : seq = start + count ∧ x = r.slotOf (start + count) := by simpa using hnew
      have hslot := (h.committed p _ message hmem).2.2 (by omega)
      rw [hslot]
      exact ⟨p, hmem⟩
  · rw [length_handedOf_handed]
    exact Nat.le_succ_of_le h.head_le
  · intro seq hle hlt hready
    rw [length_handedOf_handed] at hlt
    rcases Nat.lt_or_eq_of_le (Nat.le_of_lt_succ hlt) with hlt | rfl
    · obtain ⟨_, _, _, hc, -⟩ := h.cleared seq hle hlt hready
      cases hc
    · exact ⟨start, count, left, rfl, hd.symm⟩
  · intro stage hstage
    obtain rfl : .clearing start count left = stage := by simpa using hstage
    rw [ReadRecorded, length_handedOf_handed, hd]

/-- The mark of a message is cleared once the callback has taken it. -/
theorem Recorded.clear {start count left : Nat}
    (h : Recorded log r live (some (.reading (.clearing start count left)))) :
    Recorded log (r.mark (cap.indexOf (start + count)) .empty) live
      (some (.reading (.next start (count + 1) (left - 1)))) := by
  have hd : start + count + 1 = (handedOf log).length := h.reader _ rfl
  have hm : Mark.empty ≠ .ready := nofun
  refine { h.mark (cap.indexOf (start + count)) hm with
    cleared := ?_
    reader := ?_ }
  · intro seq hle hlt hready
    obtain ⟨start', count', left', hc, rfl⟩ :=
      h.cleared seq hle hlt (ready_of_ready_mark hm hready)
    obtain ⟨rfl, rfl, rfl⟩ : start = start' ∧ count = count' ∧ left = left' := by simpa using hc
    rw [markOf_mark, if_pos rfl] at hready
    cases hready
  · intro stage hstage
    obtain rfl : .next start (count + 1) (left - 1) = stage := by simpa using hstage
    exact readRecorded_next _ (.inr (by omega))

/-- The head moves over messages that were handed over. -/
theorem Recorded.publish {start count : Nat}
    (h : Recorded log r live (some (.reading (.leaving start count)))) (ho : r.Owned live)
    (hs : ReadSound r live (.leaving start count)) :
    Recorded log (r.setHead (start + count)) live none := by
  have hd : start + count ≤ (handedOf log).length := h.reader _ rfl
  have hle : r.head ≤ start + count := Nat.le_trans (Nat.le_of_eq hs.start_eq.symm) (Nat.le_add_right _ _)
  have ho' := (ho.readAccess hs false).1
  have hgone : Recorded log r live none := h.goto nofun nofun
  refine { hgone with
    committed := fun p seq message hmem =>
      have ⟨hlt, hnot, hslot⟩ := h.committed p seq message hmem
      ⟨hlt, hnot, fun hseq => hslot (Nat.le_trans hle hseq)⟩
    ready := ?_
    head_le := hd
    cleared := fun seq hseq hlt hready => hgone.cleared seq (Nat.le_trans hle hseq) hlt hready }
  intro seq hseq hlt hready
  -- only taken numbers are ready, and those are all of the lap before
  have htail : seq < r.tail := (ho'.ready seq hseq hlt hready).1
  exact h.ready seq (Nat.le_trans hle hseq) (Nat.lt_of_lt_of_le htail ho.tail_le_lap) hready

theorem Recorded.readAccess {stage : ReadStage} (h : Recorded log r live (some (.reading stage)))
    (ho : r.Owned live) (hs : ReadSound r live stage) (fails : Bool) :
    Recorded (log ++ [(consumeAccess fails (.reading stage) r).1])
      (consumeAccess fails (.reading stage) r).2.2 live
      (consumeAccess fails (.reading stage) r).2.1 := by
  cases stage with
  | start limit => exact (h.goto_stage (by simp) (.loaded r.head limit) trivial).plain rfl
  | loaded start limit =>
    obtain rfl : start = r.head := hs
    exact (h.goto_stage (by simp) _ (readRecorded_next _ (.inl ⟨rfl, h.head_le⟩))).plain rfl
  | looking start count left =>
    have hd : count = 0 ∨ start + count = (handedOf log).length := h.reader _ rfl
    obtain ⟨hp, hpos, htail⟩ := hs
    have hstart := hp.start_eq
    have hhead := h.head_le
    by_cases hready : r.markOf (start + count) = .ready
    · simp only [consumeAccess, Ring.readAccess, if_pos hready]
      have hlap := ho.tail_le_lap
      refine (h.goto_stage (by simp) (.handing start count left)
        ⟨?_, h.ready _ (by omega) (by omega) hready⟩).plain rfl
      -- were the message handed over before, its mark would not be ready
      by_contra hne
      obtain ⟨_, _, _, hc, -⟩ := h.cleared (start + count) (by omega) (by omega) hready
      cases hc
    · simp only [consumeAccess, Ring.readAccess, if_neg hready]
      have hle : start + count ≤ (handedOf log).length := by omega
      exact (h.goto_stage (by simp) (.leaving start count) hle).plain rfl
  | handing start count left =>
    cases fails with
    | true =>
      have hgone : Recorded log r live none := h.goto (by simp) (by simp)
      exact hgone.plain rfl
    | false => exact h.hand hs
  | clearing start count left => exact h.clear.plain rfl
  | leaving start count => exact (h.publish ho hs).plain rfl

/-- Every effect keeps the record. -/
theorem recorded_effect (h : Recorded log r live c) (he : Effect r live c signal r' live' c')
    (ho : r.Owned live) (hr : ∀ stage, c = some (.reading stage) → r.ReadSound live stage) :
    Recorded (log ++ [signal]) r' live' c' := by
  cases he with
  | still hplain => exact h.plain hplain
  | take hroom hplain => exact h.take.plain hplain
  | tag hseq => exact (h.mark (m := .claimed) _ nofun).plain rfl
  | write hseq => exact (h.write ho hseq _).plain rfl
  | commit hseq => exact h.commit ho hseq
  | abandon hseq => exact (h.erase _).plain rfl
  | startRead limit => exact (h.goto_stage nofun (.start limit) trivial).plain rfl
  | startMeasure =>
    have hgone : Recorded log r live (some (.measuring .start)) := h.goto nofun nofun
    exact hgone.plain rfl
  | consume fails call =>
    cases call with
    | reading stage => exact h.readAccess ho (hr stage rfl) fails
    | measuring stage =>
      cases stage with
      | start =>
        have hgone : Recorded log r live (some (.measuring (.loaded r.head))) := h.goto nofun nofun
        exact hgone.plain rfl
      | loaded head =>
        have hgone : Recorded log r live none := h.goto nofun nofun
        exact hgone.plain rfl

theorem recorded_run {s : Threads kind cap α} (h : Inv s)
    (hrec : Recorded log s.ring s.live s.consumer) (moves : List (Move α)) :
    Recorded (log ++ (s.run moves).1) (s.run moves).2.ring (s.run moves).2.live
      (s.run moves).2.consumer := by
  induction moves generalizing s log with
  | nil =>
    show Recorded (log ++ []) s.ring s.live s.consumer
    rw [List.append_nil]
    exact hrec
  | cons move moves ih =>
    obtain ⟨live', hlive, he⟩ := effect_step h move
    have hstep := (recorded_effect hrec he h.owned h.reader).perm hlive.symm
    have hrun := ih (inv_step h move) hstep
    rw [List.append_assoc] at hrun
    exact hrun

end RingTransport.Threads
