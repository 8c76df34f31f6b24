/-
  What one read delivers while producers go on. The reader loads the tail once and looks at
  the marks one after the other, so what it meets depends on what producers commit behind, at
  and ahead of it. `ReadAt` says how far a read is, told from the moves since it started, and
  every step keeps it (`ReadAt.step`). Main fact: a read starts at the head, delivers
  consecutive messages, at least those that were committed when it started and none that was
  claimed after it loaded the tail, and if it stops before that, the next message was not
  committed when the reader looked for it (`read_delivers`).

  A message that an earlier read handed over to a callback, and did not pass because a later
  callback of that read failed, does not wait any more (`Waits`); while no callback has failed
  there are none (`Fresh.numbersOf_eq`).
-/
import Mathlib.Data.List.Induction
import RingTransport.Proofs.Ring.Calls
import RingTransport.Proofs.Ring.Retention

namespace RingTransport.Threads

open RingTransport.Ring

variable {kind : Kind} {cap : Capacity} {α : Type} {s s' t : Threads kind cap α}
  {log : List (Signal α)} {move last : Move α} {inside : List (Move α)}
  {signal result : Signal α} {stage : ReadStage} {start limit count left bound n : Nat}

/-! ## Messages that wait -/

/-- The numbers of the messages that the callback took. -/
def numbersOf (log : List (Signal α)) : List Nat := (handedOf log).map (·.1)

/-- A claim was committed, and its message was not handed over yet. -/
def Waits (log : List (Signal α)) (seq : Nat) : Prop :=
  (∃ p message, (p, seq, message) ∈ commitsOf log) ∧ seq ∉ numbersOf log

theorem numbersOf_append (log log' : List (Signal α)) :
    numbersOf (log ++ log') = numbersOf log ++ numbersOf log' := by
  rw [numbersOf, handedOf_append, List.map_append]
  rfl

/-- A message that waits is ready. -/
theorem Fresh.ready_of_waits (h : s.Fresh) (moves : List (Move α)) (seq : Nat)
    (hwaits : Waits (s.run moves).1 seq) : (s.run moves).2.ring.markOf seq = .ready := by
  obtain ⟨⟨p, message, hmem⟩, hnot⟩ := hwaits
  rw [numbersOf, (h.recorded moves).numbers, List.mem_range, Nat.not_lt] at hnot
  exact h.kept moves p seq message hmem hnot

/-- While no read is in progress, the messages that wait are those that are ready. -/
theorem Fresh.waits_iff (h : s.Fresh) (moves : List (Move α))
    (hidle : (s.run moves).2.consumer = none) (seq : Nat) :
    Waits (s.run moves).1 seq ↔ (s.run moves).2.ring.head ≤ seq ∧
      seq < (s.run moves).2.ring.tail ∧ (s.run moves).2.ring.markOf seq = .ready := by
  have hrec := h.recorded moves
  have hlap := (inv_run h.inv moves).owned.tail_le_lap
  constructor
  · intro hwaits
    have hready := h.ready_of_waits moves seq hwaits
    obtain ⟨⟨p, message, hmem⟩, hnot⟩ := hwaits
    rw [numbersOf, hrec.numbers, List.mem_range, Nat.not_lt] at hnot
    exact ⟨Nat.le_trans hrec.head_le hnot, (hrec.committed p seq message hmem).1, hready⟩
  · rintro ⟨hle, hlt, hready⟩
    refine ⟨hrec.ready seq hle (Nat.lt_of_lt_of_le hlt hlap) hready, ?_⟩
    rw [numbersOf, hrec.numbers, List.mem_range]
    intro hhanded
    obtain ⟨_, _, _, hclearing, -⟩ := hrec.cleared seq hle hhanded hready
    cases hidle.symm.trans hclearing

/-- The claims won in a run are numbered from the tail on. -/
theorem tail_le_of_mem_winsOf (h : Inv s) {moves : List (Move α)} {win : Nat × Nat}
    (hwin : win ∈ winsOf s moves) : s.ring.tail ≤ win.2 := by
  induction moves generalizing s with
  | nil => cases hwin
  | cons move moves ih =>
    obtain ⟨_, _, he⟩ := effect_step h move
    rcases List.mem_append.1 hwin with hfirst | hlater
    · rcases winOf_eq h move with ⟨-, hnone⟩ | ⟨p, -, hone⟩
      · rw [hnone] at hfirst
        cases hfirst
      · rw [hone] at hfirst
        obtain rfl := List.mem_singleton.1 hfirst
        exact Nat.le_refl _
    · exact Nat.le_trans (he.counters_le h.reader).2 (ih (inv_step h move) hlater)

/-! ## Runs in which no callback fails -/

/-- The messages handed over are those below the head and those of the read in progress. -/
def Level (log : List (Signal α)) (r : Ring kind cap α) : Option ConsumerCall → Prop
  | some (.reading (.looking start count _)) | some (.reading (.handing start count _))
  | some (.reading (.leaving start count)) => (handedOf log).length = start + count
  | some (.reading (.clearing start count _)) => (handedOf log).length = start + count + 1
  | _ => (handedOf log).length = r.head

variable {r r' : Ring kind cap α} {live live' : List Nat} {c c' : Option ConsumerCall}

/-- Only the reader's own accesses hand over messages and move the head. -/
theorem Level.keep (h : Level log r c) (hhead : r'.head = r.head)
    (hsignal : handedOf (log ++ [signal]) = handedOf log) : Level (log ++ [signal]) r' c := by
  unfold Level at h ⊢
  split <;> simp only [hsignal, hhead] at h ⊢ <;> exact h

theorem level_next {start count : Nat} (left : Nat) (h : (handedOf log).length = start + count) :
    Level log r (some (.reading (.next start count left))) := by
  cases left with
  | zero => exact h
  | succ left => exact h

theorem Level.readAccess {fails : Bool} (h : Level log r (some (.reading stage)))
    (hs : ReadSound r live stage)
    (hnot : ∀ seq message, (consumeAccess fails (.reading stage) r).1 ≠ .failed seq message) :
    Level (log ++ [(consumeAccess fails (.reading stage) r).1])
      (consumeAccess fails (.reading stage) r).2.2 (consumeAccess fails (.reading stage) r).2.1 := by
  have hquiet : handedOf (log ++ [.quiet]) = handedOf log := handedOf_plain log rfl
  cases stage with
  | start limit => exact Level.keep (c := some (.reading (.loaded r.head limit))) h rfl hquiet
  | loaded start limit =>
    obtain rfl : start = r.head := hs
    exact level_next _ ((congrArg List.length hquiet).trans h)
  | looking start count left =>
    by_cases hready : r.markOf (start + count) = .ready
    · simp only [consumeAccess, Ring.readAccess, if_pos hready]
      exact Level.keep (c := some (.reading (.handing start count left))) h rfl hquiet
    · simp only [consumeAccess, Ring.readAccess, if_neg hready]
      exact Level.keep (c := some (.reading (.leaving start count))) h rfl hquiet
  | handing start count left =>
    cases fails with
    | true => exact absurd rfl (hnot _ _)
    | false => exact (length_handedOf_handed log _ _).trans (congrArg (· + 1) h)
  | clearing start count left =>
    exact level_next _ ((congrArg List.length hquiet).trans h)
  | leaving start count =>
    have hended : handedOf (log ++ [.readEnded count]) = handedOf log := handedOf_plain log rfl
    show (handedOf (log ++ [.readEnded count])).length = start + count
    rw [hended]
    exact h

theorem level_effect (h : Level log r c) (he : Effect r live c signal r' live' c')
    (hr : ∀ stage, c = some (.reading stage) → r.ReadSound live stage)
    (hnot : ∀ seq message, signal ≠ .failed seq message) : Level (log ++ [signal]) r' c' := by
  cases he with
  | still hplain | take _ hplain => exact h.keep rfl (handedOf_plain log hplain)
  | commit => exact h.keep rfl (handedOf_committed log _ _ _)
  | startRead limit =>
    exact Level.keep (c := some (.reading (.start limit))) h rfl (handedOf_plain log rfl)
  | startMeasure =>
    exact Level.keep (c := some (.measuring .start)) h rfl (handedOf_plain log rfl)
  | consume fails call =>
    cases call with
    | reading stage => exact Level.readAccess h (hr stage rfl) hnot
    | measuring stage =>
      cases stage with
      | start =>
        exact Level.keep (c := some (.measuring (.loaded r.head))) h rfl (handedOf_plain log rfl)
      | loaded head => exact Level.keep (c := none) h rfl (handedOf_plain log rfl)
  | _ => exact h.keep rfl (handedOf_plain log rfl)

theorem level_run (h : Inv s) (hlevel : Level log s.ring s.consumer) {moves : List (Move α)}
    (hnot : ∀ seq message, .failed seq message ∉ (s.run moves).1) :
    Level (log ++ (s.run moves).1) (s.run moves).2.ring (s.run moves).2.consumer := by
  induction moves generalizing s log with
  | nil =>
    show Level (log ++ []) s.ring s.consumer
    rw [List.append_nil]
    exact hlevel
  | cons move moves ih =>
    obtain ⟨_, _, he⟩ := effect_step h move
    have hfirst := level_effect hlevel he h.reader fun seq message heq =>
      hnot seq message (heq ▸ List.mem_cons_self ..)
    have hrest := ih (inv_step h move) hfirst fun seq message hmem =>
      hnot seq message (List.mem_cons_of_mem _ hmem)
    rw [List.append_assoc] at hrest
    exact hrest

/-- Between two reads, if no callback has failed, the messages handed over are those below the
head. -/
theorem Fresh.numbersOf_eq (h : s.Fresh) {moves : List (Move α)}
    (hidle : (s.run moves).2.consumer = none)
    (hnot : ∀ seq message, .failed seq message ∉ (s.run moves).1) :
    numbersOf (s.run moves).1 = List.range (s.run moves).2.ring.head := by
  have hlevel : Level [] s.ring s.consumer := by
    obtain ⟨producers, slots, -, rfl⟩ := h
    exact rfl
  have hrun := level_run h.inv hlevel hnot
  rw [List.nil_append, hidle] at hrun
  have hlength : (handedOf (s.run moves).1).length = (s.run moves).2.ring.head := hrun
  rw [numbersOf, (h.recorded moves).numbers, hlength]

/-! ## How far a read is -/

/-- The signal shows that a read has ended. -/
def Signal.endsRead : Signal α → Bool
  | .readEnded _ | .failed _ _ => true
  | _ => false

/-- In one of the moves the reader, which has loaded the head and has the limit, loads the
tail, and by what it finds it may deliver up to `bound` messages. -/
def LoadsTail (t : Threads kind cap α) (limit : Nat) (inside : List (Move α)) (bound : Nat) :
    Prop :=
  ∃ done fails later, inside = done ++ .consume fails :: later ∧
    (t.run done).2.consumer = some (.reading (.loaded t.ring.head limit)) ∧
    bound = min limit ((t.run done).2.ring.tail - t.ring.head)

/-- In one of the moves the reader, which has handed over `count` messages, looks for the next
one, and its mark is not ready. -/
def FindsUnready (t : Threads kind cap α) (inside : List (Move α)) (count : Nat) : Prop :=
  ∃ done fails later left, inside = done ++ .consume fails :: later ∧
    (t.run done).2.consumer = some (.reading (.looking t.ring.head count left)) ∧
    numbersOf (t.run done).1 = List.range' t.ring.head count ∧
    (t.run done).2.ring.markOf (t.ring.head + count) ≠ .ready

/-- How far the read that started at `t` is after the moves `inside`, in which it has handed
over these numbers and made so many accesses. -/
def ReadAt (t : Threads kind cap α) (limit : Nat) (inside : List (Move α)) (numbers : List Nat)
    (accesses : Nat) : ReadStage → Prop
  | .start l => l = limit ∧ numbers = [] ∧ accesses = 0
  | .loaded start l => start = t.ring.head ∧ l = limit ∧ numbers = [] ∧ accesses = 1
  | .looking start count left =>
    start = t.ring.head ∧ numbers = List.range' t.ring.head count ∧ accesses = 3 * count + 2 ∧
      0 < left ∧ LoadsTail t limit inside (count + left)
  | .handing start count left =>
    start = t.ring.head ∧ numbers = List.range' t.ring.head count ∧ accesses = 3 * count + 3 ∧
      0 < left ∧ LoadsTail t limit inside (count + left)
  | .clearing start count left =>
    start = t.ring.head ∧ numbers = List.range' t.ring.head (count + 1) ∧
      accesses = 3 * count + 4 ∧ 0 < left ∧ LoadsTail t limit inside (count + left)
  | .leaving start count =>
    start = t.ring.head ∧ numbers = List.range' t.ring.head count ∧
      ∃ bound, LoadsTail t limit inside bound ∧ accesses ≤ 3 * bound + 2 ∧
        (count = bound ∨ count < bound ∧ FindsUnready t inside count)

theorem run_snoc (s : Threads kind cap α) (moves : List (Move α)) (move : Move α) :
    s.run (moves ++ [move]) =
      ((s.run moves).1 ++ [((s.run moves).2.step move).1], ((s.run moves).2.step move).2) :=
  run_append s moves [move]

theorem LoadsTail.snoc (h : LoadsTail t limit inside bound) (move : Move α) :
    LoadsTail t limit (inside ++ [move]) bound := by
  obtain ⟨done, fails, later, rfl, hloads⟩ := h
  exact ⟨done, fails, later ++ [move], by simp, hloads⟩

theorem FindsUnready.snoc (h : FindsUnready t inside count) (move : Move α) :
    FindsUnready t (inside ++ [move]) count := by
  obtain ⟨done, fails, later, left, rfl, hfinds⟩ := h
  exact ⟨done, fails, later ++ [move], left, by simp, hfinds⟩

/-- What a read has done stays done. -/
theorem ReadAt.snoc {numbers : List Nat} {accesses : Nat}
    (h : ReadAt t limit inside numbers accesses stage) (move : Move α) :
    ReadAt t limit (inside ++ [move]) numbers accesses stage := by
  cases stage with
  | start | loaded => exact h
  | looking | handing | clearing =>
    obtain ⟨hstart, hnumbers, haccesses, hleft, hload⟩ := h
    exact ⟨hstart, hnumbers, haccesses, hleft, hload.snoc move⟩
  | leaving =>
    obtain ⟨hstart, hnumbers, bound, hload, haccesses, hend⟩ := h
    refine ⟨hstart, hnumbers, bound, hload.snoc move, haccesses, hend.imp_right ?_⟩
    exact fun hshort => ⟨hshort.1, hshort.2.snoc move⟩

/-! ## Steps in the middle of a read -/

theorem numbersOf_plain (hplain : signal.isPlain = true) : numbersOf [signal] = [] := by
  have hnone := handedOf_plain [] hplain
  rw [List.nil_append] at hnone
  rw [numbersOf, hnone]
  rfl

theorem AccessOf.quiet {p : Nat} {spurious : Bool} {held : List Nat} {r r' : Ring kind cap α}
    {call : ProducerCall} {u : ProducerThread}
    (ha : AccessOf p spurious held r call signal u r') :
    signal.isPlain = true ∧ signal.endsRead = false := by
  cases ha <;> exact ⟨rfl, rfl⟩

/-- Only an access of the reader moves its read on, hands a message over or ends the read. -/
theorem StepOf.of_reading (hs : StepOf s move signal s')
    (hread : s.consumer = some (.reading stage)) (hmove : ∀ fails, move ≠ .consume fails) :
    s'.consumer = some (.reading stage) ∧ numbersOf [signal] = [] ∧ signal.endsRead = false := by
  cases hs with
  | @produce r ps c p call held hp spurious =>
    obtain ⟨hplain, hends⟩ := (accessOf p spurious call held r).quiet
    exact ⟨hread, numbersOf_plain hplain, hends⟩
  | commit => exact ⟨hread, rfl, rfl⟩
  | consume call fails => exact absurd rfl (hmove fails)
  | read | measureRead => cases hread
  | _ => exact ⟨hread, rfl, rfl⟩

theorem step_consume (hread : s.consumer = some (.reading stage)) (fails : Bool) :
    (s.step (.consume fails)).1 = (consumeAccess fails (.reading stage) s.ring).1 ∧
      (s.step (.consume fails)).2.consumer =
        (consumeAccess fails (.reading stage) s.ring).2.1 := by
  obtain ⟨r, ps, c⟩ := s
  obtain rfl : c = some (.reading stage) := hread
  exact ⟨rfl, rfl⟩

/-- The reader is in the middle of the read that started at `t`, and has come as far as told. -/
def Reading (t : Threads kind cap α) (limit : Nat) (inside : List (Move α))
    (stage : ReadStage) : Prop :=
  (t.run inside).2.consumer = some (.reading stage) ∧
    ReadAt t limit inside (numbersOf (t.run inside).1) (inside.countP Move.isReaderAccess) stage

theorem Reading.other (h : Reading t limit inside stage)
    (hmove : ∀ fails, move ≠ .consume fails) : Reading t limit (inside ++ [move]) stage := by
  obtain ⟨hconsumer, hat⟩ := h
  obtain ⟨hconsumer', hnumbers, -⟩ := (stepOf _ move).of_reading hconsumer hmove
  have haway : ¬ move.isReaderAccess = true := fun haccess => by
    obtain ⟨fails, rfl⟩ := Move.isReaderAccess_iff.1 haccess
    exact hmove fails rfl
  refine ⟨?_, ?_⟩
  · rw [run_snoc]
    exact hconsumer'
  · rw [run_snoc, numbersOf_append, hnumbers, List.append_nil, List.countP_append,
      List.countP_singleton, if_neg haway]
    exact hat.snoc move

/-- An access of the reader leads to the next stage. -/
theorem Reading.own {fails : Bool} {next : ReadStage} (h : Reading t limit inside stage)
    (haccess : (consumeAccess fails (.reading stage) (t.run inside).2.ring).1 = signal)
    (hnext : (consumeAccess fails (.reading stage) (t.run inside).2.ring).2.1 =
      some (.reading next))
    (hat : ReadAt t limit (inside ++ [.consume fails])
      (numbersOf (t.run inside).1 ++ numbersOf [signal])
      (inside.countP Move.isReaderAccess + 1) next) :
    Reading t limit (inside ++ [.consume fails]) next := by
  obtain ⟨hsignal, hconsumer⟩ := step_consume h.1 fails
  refine ⟨?_, ?_⟩
  · rw [run_snoc]
    exact hconsumer.trans hnext
  · rw [run_snoc, numbersOf_append, hsignal, haccess, List.countP_append, List.countP_singleton]
    exact hat

theorem readAt_next {numbers : List Nat} {accesses : Nat} (hstart : start = t.ring.head)
    (hnumbers : numbers = List.range' t.ring.head count) (haccesses : accesses = 3 * count + 2)
    (hload : LoadsTail t limit inside (count + left)) :
    ReadAt t limit inside numbers accesses (.next start count left) := by
  cases left with
  | zero => exact ⟨hstart, hnumbers, count, hload, by omega, .inl rfl⟩
  | succ left => exact ⟨hstart, hnumbers, haccesses, Nat.succ_pos _, hload⟩

/-- Until the read ends, each access of the reader leads from one stage to the next. -/
theorem Reading.step (ht : Inv t) (h : Reading t limit inside stage) (fails : Bool)
    (hgoes : ∀ signal ∈ (t.run inside).1, signal.endsRead = false)
    (hnot : ((t.run inside).2.step (.consume fails)).1.endsRead = false) :
    ∃ next, Reading t limit (inside ++ [.consume fails]) next := by
  have hinv : Inv (t.run inside).2 := inv_run ht inside
  have hhead : (t.run inside).2.ring.head = t.ring.head :=
    head_run_eq ht fun n hmem => Bool.noConfusion (hgoes _ hmem)
  rw [(step_consume h.1 fails).1] at hnot
  have hat := h.2
  cases stage with
  | start l =>
    obtain ⟨rfl, hnumbers, haccesses⟩ := hat
    refine ⟨_, h.own rfl rfl ⟨hhead, rfl, ?_, ?_⟩⟩
    · rw [hnumbers]
      rfl
    · rw [haccesses]
  | loaded start l =>
    obtain ⟨rfl, rfl, hnumbers, haccesses⟩ := hat
    refine ⟨_, h.own rfl rfl (readAt_next rfl ?_ ?_ ?_)⟩
    · rw [hnumbers]
      rfl
    · rw [haccesses]
    · have hle := hinv.owned.head_le_tail
      rw [distance_of_le (hhead ▸ hle), Nat.zero_add, Nat.min_comm]
      exact ⟨inside, fails, [], rfl, h.1, rfl⟩
  | looking start count left =>
    obtain ⟨rfl, hnumbers, haccesses, hleft, hload⟩ := hat
    by_cases hready : (t.run inside).2.ring.markOf (t.ring.head + count) = .ready
    · have hquiet : (consumeAccess fails (.reading (.looking t.ring.head count left))
          (t.run inside).2.ring).1 = .quiet := by
        simp only [consumeAccess, readAccess, if_pos hready]
      refine ⟨.handing t.ring.head count left, h.own hquiet ?_
        ⟨rfl, ?_, ?_, hleft, hload.snoc _⟩⟩
      · simp only [consumeAccess, readAccess, if_pos hready]
      · rw [hnumbers]
        exact List.append_nil _
      · rw [haccesses]
    · have hquiet : (consumeAccess fails (.reading (.looking t.ring.head count left))
          (t.run inside).2.ring).1 = .quiet := by
        simp only [consumeAccess, readAccess, if_neg hready]
      have hunready : FindsUnready t (inside ++ [.consume fails]) count :=
        ⟨inside, fails, [], left, rfl, h.1, hnumbers, hready⟩
      refine ⟨.leaving t.ring.head count, h.own hquiet ?_
        ⟨rfl, ?_, count + left, hload.snoc _, by omega, .inr ⟨by omega, hunready⟩⟩⟩
      · simp only [consumeAccess, readAccess, if_neg hready]
      · rw [hnumbers]
        exact List.append_nil _
  | handing start count left =>
    obtain ⟨rfl, hnumbers, haccesses, hleft, hload⟩ := hat
    cases fails with
    | true => cases hnot
    | false =>
      refine ⟨_, h.own rfl rfl ⟨rfl, ?_, ?_, hleft, hload.snoc _⟩⟩
      · rw [hnumbers, List.range'_1_concat]
        rfl
      · rw [haccesses]
  | clearing start count left =>
    obtain ⟨rfl, hnumbers, haccesses, hleft, hload⟩ := hat
    have hsame : count + left = count + 1 + (left - 1) := by omega
    refine ⟨_, h.own rfl rfl (readAt_next rfl ?_ (by omega) (hsame ▸ hload.snoc _))⟩
    rw [hnumbers]
    exact List.append_nil _
  | leaving start count => cases hnot

/-- Through any moves that do not end the read, the reader is in the middle of it. -/
theorem exists_reading (ht : Inv t) (hstart : t.consumer = some (.reading (.start limit)))
    (hgoes : ∀ signal ∈ (t.run inside).1, signal.endsRead = false) :
    ∃ stage, Reading t limit inside stage := by
  induction inside using List.reverseRecOn with
  | nil => exact ⟨.start limit, hstart, rfl, rfl, rfl⟩
  | append_singleton inside move ih =>
    rw [run_snoc] at hgoes
    have hbefore : ∀ signal ∈ (t.run inside).1, signal.endsRead = false :=
      fun signal hmem => hgoes signal (List.mem_append_left _ hmem)
    obtain ⟨stage, h⟩ := ih hbefore
    by_cases hown : ∃ fails, move = .consume fails
    · obtain ⟨fails, rfl⟩ := hown
      exact h.step ht fails hbefore (hgoes _ (List.mem_append_right _ (List.mem_singleton_self _)))
    · exact ⟨stage, h.other fun fails heq => hown ⟨fails, heq⟩⟩

/-! ## The end of a read -/

/-- A read is ended by an access of the reader: its callback fails, or the head has moved. -/
theorem Reading.ended (h : Reading t limit inside stage)
    (hends : ((t.run inside).2.step last).1.endsRead = true) :
    (last = .consume true ∧ ∃ seq message,
        ((t.run inside).2.step last).1 = .failed seq message) ∨
      ∃ start count, stage = .leaving start count ∧
        ((t.run inside).2.step last).1 = .readEnded count := by
  by_cases hown : ∃ fails, last = .consume fails
  · obtain ⟨fails, rfl⟩ := hown
    rw [(step_consume h.1 fails).1] at hends ⊢
    cases stage with
    | looking start count left =>
      by_cases hready : (t.run inside).2.ring.markOf (start + count) = .ready
      · simp only [consumeAccess, readAccess, if_pos hready] at hends
        cases hends
      · simp only [consumeAccess, readAccess, if_neg hready] at hends
        cases hends
    | handing start count left =>
      cases fails with
      | true => exact .inl ⟨rfl, _, _, rfl⟩
      | false => cases hends
    | leaving start count => exact .inr ⟨start, count, rfl, rfl⟩
    | start | loaded | clearing => cases hends
  · have hmove : ∀ fails, last ≠ .consume fails := fun fails heq => hown ⟨fails, heq⟩
    rw [((stepOf _ last).of_reading h.1 hmove).2.2] at hends
    cases hends

/-- A read that is still going on has not made all its accesses. -/
theorem Reading.countP_lt (ht : Inv t) (h : Reading t limit inside stage) :
    inside.countP Move.isReaderAccess < 3 * min limit cap.size + 3 := by
  have hbound : ∀ {bound}, LoadsTail t limit inside bound → bound ≤ min limit cap.size := by
    rintro bound ⟨done, fails, later, -, hload, rfl⟩
    have hu : Inv (t.run done).2 := inv_run ht done
    have hstart : t.ring.head = (t.run done).2.ring.head := hu.reader _ hload
    have hlap := hu.owned.tail_le_lap
    omega
  have hat := h.2
  cases stage with
  | start | loaded =>
    simp only [ReadAt] at hat
    omega
  | looking | handing | clearing =>
    obtain ⟨-, -, haccesses, hleft, hload⟩ := hat
    have := hbound hload
    omega
  | leaving =>
    obtain ⟨-, -, bound, hload, haccesses, -⟩ := hat
    have := hbound hload
    omega

/-! ## What a read delivers -/

/-- A read that starts at the head of `t`, after the signals `log`, delivers through the moves
`inside` the messages from the head on, `n` of them, and then returns. -/
structure Delivers (log : List (Signal α)) (t : Threads kind cap α) (limit : Nat)
    (inside : List (Move α)) (n : Nat) : Prop where
  numbers : numbersOf (t.run inside).1 = List.range' t.ring.head n
  /-- What was committed without a gap when the read started is delivered, up to the limit. -/
  committed : ∀ m, (∀ i < m, Waits log (t.ring.head + i)) → min limit m ≤ n
  /-- The tail is loaded once, and nothing that is claimed after that is delivered. If the read
  stops before the tail it has loaded, it has looked for a message that was not committed. -/
  loaded : ∃ done fails later, inside = done ++ .consume fails :: later ∧
    let u := (t.run done).2
    let bound := min limit (u.ring.tail - t.ring.head)
    u.consumer = some (.reading (.loaded t.ring.head limit)) ∧ n ≤ bound ∧
    (∀ p seq, (p, seq) ∈ winsOf u (.consume fails :: later) → seq ∉ numbersOf (t.run inside).1) ∧
    (n < bound → ∃ done fails later left, inside = done ++ .consume fails :: later ∧
      let v := (t.run done).2
      v.consumer = some (.reading (.looking t.ring.head n left)) ∧
      numbersOf (t.run done).1 = List.range' t.ring.head n ∧
      v.ring.markOf (t.ring.head + n) ≠ .ready ∧
      ¬ Waits (log ++ .readStarted limit :: (t.run done).1) (t.ring.head + n))

theorem Waits.later {seq : Nat} (h : Waits log seq) {log' : List (Signal α)}
    (hnot : seq ∉ numbersOf log') : Waits (log ++ log') seq := by
  obtain ⟨⟨p, message, hmem⟩, hbefore⟩ := h
  refine ⟨⟨p, message, ?_⟩, ?_⟩
  · rw [commitsOf_append]
    exact List.mem_append_left _ hmem
  · rw [numbersOf_append]
    exact fun hseq => (List.mem_append.1 hseq).elim hbefore hnot

/-- What a read has done when it is about to return. -/
theorem Reading.delivers {before : List (Move α)} (hs : s.Fresh)
    (hread : ((s.run before).2.step (.read limit)).1 = .readStarted limit)
    (h : Reading ((s.run before).2.step (.read limit)).2 limit inside (.leaving start n)) :
    Delivers (s.run before).1 ((s.run before).2.step (.read limit)).2 limit inside n := by
  generalize ht : ((s.run before).2.step (.read limit)).2 = t at h ⊢
  have hbefore : Inv (s.run before).2 := inv_run hs.inv before
  have hinv : Inv t := ht ▸ inv_step hbefore _
  have hwhole : ∀ done, s.run (before ++ .read limit :: done) =
      ((s.run before).1 ++ .readStarted limit :: (t.run done).1, (t.run done).2) := fun done => by
    rw [run_append, ← ht, ← hread]
    rfl
  obtain ⟨-, hnumbers, bound, hload, -, hend⟩ := h.2
  obtain ⟨done, fails, later, hsplit, hloaded, rfl⟩ := hload
  have hu : Inv (t.run done).2 := inv_run hinv done
  have hle : n ≤ min limit ((t.run done).2.ring.tail - t.ring.head) :=
    hend.elim Nat.le_of_eq fun hshort => Nat.le_of_lt hshort.1
  -- a message that is not ready does not wait, by the record of the whole run
  have hmissed : n < min limit ((t.run done).2.ring.tail - t.ring.head) →
      ∃ done fails later left, inside = done ++ .consume fails :: later ∧
        (t.run done).2.consumer = some (.reading (.looking t.ring.head n left)) ∧
        numbersOf (t.run done).1 = List.range' t.ring.head n ∧
        (t.run done).2.ring.markOf (t.ring.head + n) ≠ .ready ∧
        ¬ Waits ((s.run before).1 ++ .readStarted limit :: (t.run done).1) (t.ring.head + n) := by
    intro hlt
    obtain ⟨-, look, fails', later', left, hsplit', hlooking, hbehind, hunready⟩ :=
      hend.resolve_left (Nat.ne_of_lt hlt)
    refine ⟨look, fails', later', left, hsplit', hlooking, hbehind, hunready, fun hwaits => ?_⟩
    have hready := hs.ready_of_waits (before ++ .read limit :: look) (t.ring.head + n)
    rw [hwhole] at hready
    exact hunready (hready hwaits)
  refine ⟨hnumbers, fun m hm => ?_, done, fails, later, hsplit, hloaded, hle, ?_, hmissed⟩
  · -- were a message missing that was committed at first, the reader would have found it ready
    by_contra hshort
    have hlt : n < min limit m := Nat.lt_of_not_le hshort
    have hwaits := hm n (by omega)
    obtain ⟨⟨p, message, hmem⟩, -⟩ := hwaits
    have htail := ((hs.recorded before).committed p _ message hmem).1
    have htail' : (s.run before).2.ring.tail ≤ (t.run done).2.ring.tail := by
      refine Nat.le_trans ?_ (tail_le_run hinv done)
      rw [← ht]
      obtain ⟨_, _, he⟩ := effect_step hbefore (.read limit)
      exact (he.counters_le hbefore.reader).2
    obtain ⟨look, _, _, _, _, _, hbehind, _, hnot⟩ := hmissed (by omega)
    refine hnot ((hm n (by omega)).later ?_)
    show t.ring.head + n ∉ numbersOf (t.run look).1
    rw [hbehind, List.mem_range'_1]
    omega
  · intro p seq hwin hdelivered
    have hclaimed := tail_le_of_mem_winsOf hu hwin
    rw [hnumbers, List.mem_range'_1] at hdelivered
    show False
    omega

theorem reading_start (h : (s.step (.read limit)).1 = .readStarted limit) :
    s.consumer = none ∧ (s.step (.read limit)).2.ring = s.ring ∧
      (s.step (.read limit)).2.consumer = some (.reading (.start limit)) := by
  obtain ⟨r, ps, c⟩ := s
  cases c with
  | none => exact ⟨rfl, rfl, rfl⟩
  | some call => cases h

/-- One read, after any run of one producer thread or many and the reader, and in any
interleaving with the steps of the producers. It returns within a bounded number of its own
accesses, and unless its callback fails, it returns the number of consecutive messages that
it has delivered from the head on. It delivers at least what was committed without a gap when
it started, up to its limit, and nothing that was claimed after it loaded the tail; and if it
delivers less than that tail and its limit allow, the next message was not committed when it
looked for it. What waits when it starts are the messages between head and tail that are
ready; if no callback has failed before, these are all that were committed there. -/
theorem read_delivers (producers : Nat) (hone : kind = .oneProducer → producers ≤ 1)
    (slots : Vector α cap.size) (before : List (Move α)) (limit : Nat) :
    let start : Threads kind cap α := init producers (.ofSlots slots)
    let log := (start.run before).1
    let s := (start.run before).2
    (s.step (.read limit)).1 = .readStarted limit →
      let t := (s.step (.read limit)).2
      t.ring = s.ring ∧
      (∀ seq, Waits log seq ↔
        s.ring.head ≤ seq ∧ seq < s.ring.tail ∧ s.ring.markOf seq = .ready) ∧
      ((∀ seq message, .failed seq message ∉ log) → numbersOf log = List.range s.ring.head) ∧
      t.ReturnsBy Signal.endsRead Move.isReaderAccess (3 * min limit cap.size + 3) ∧
      ∀ inside last result, Finishes Signal.endsRead t inside last result →
        (last = .consume true ∧ ∃ seq message, result = .failed seq message) ∨
          ∃ n, result = .readEnded n ∧ Delivers log t limit inside n := by
  intro start log s hstarted t
  have hfresh : start.Fresh := ⟨producers, slots, hone, rfl⟩
  have hs : Inv s := inv_run hfresh.inv before
  have ht : Inv t := inv_step hs _
  obtain ⟨hidle, hring, hconsumer⟩ := reading_start hstarted
  refine ⟨hring, hfresh.waits_iff before hidle, hfresh.numbersOf_eq hidle, fun inside hgoes => ?_,
    fun inside last result hf => ?_⟩
  · obtain ⟨stage, h⟩ := exists_reading ht hconsumer hgoes
    exact h.countP_lt ht
  · obtain ⟨stage, h⟩ := exists_reading ht hconsumer hf.goes_on
    have hended := h.ended hf.ends_last
    rw [hf.returns] at hended
    rcases hended with hfailed | ⟨start, n, rfl, rfl⟩
    · exact .inl hfailed
    · exact .inr ⟨n, rfl, h.delivers hfresh hstarted⟩

/-- A claim of the only producer, with the four accesses of its call. -/
def oneClaim : List (Move Nat) := .claim 0 :: List.replicate 4 (.produce 0 false)

/-- Three claims, the first committed and the second written, before the read. -/
def lateCommitBefore : List (Move Nat) :=
  oneClaim ++ oneClaim ++ oneClaim ++ [.write 0 0 7, .commit 0 0, .write 0 1 8]

/-- The read up to its last access: after it has loaded the tail a fourth message is claimed and
committed, and the second is committed while the reader is at the first. -/
def lateCommitInside : List (Move Nat) :=
  [.consume false, .consume false] ++ oneClaim ++ [.commit 0 3, .consume false, .commit 0 1] ++
    List.replicate 6 (.consume false)

/-- A buffer of eight slots and one producer thread. -/
def eightSlots : Threads .manyProducers ⟨8, rfl⟩ Nat := init 1 (.ofSlots (.replicate 8 0))

/-- The state after the first access of the read. -/
def lateCommitState : Threads .manyProducers ⟨8, rfl⟩ Nat :=
  ((eightSlots.run lateCommitBefore).2.step (.read 9)).2

/-- The read of these runs delivers two messages: the third claim is never committed. -/
theorem read_delivers_late_commit :
    (Kind.manyProducers = .oneProducer → 1 ≤ 1) ∧
      ((eightSlots.run lateCommitBefore).2.step (.read 9)).1 = .readStarted 9 ∧
      Finishes Signal.endsRead lateCommitState lateCommitInside (.consume false) (.readEnded 2) ∧
      lateCommitState.ReturnsBy Signal.endsRead Move.isReaderAccess 27 ∧
      Delivers (eightSlots.run lateCommitBefore).1 lateCommitState 9 lateCommitInside 2 := by
  have hone : Kind.manyProducers = .oneProducer → 1 ≤ 1 := nofun
  have hstarted : ((eightSlots.run lateCommitBefore).2.step (.read 9)).1 = .readStarted 9 := rfl
  have hquiet : ∀ signal ∈ (lateCommitState.run lateCommitInside).1, signal.endsRead = false := by
    decide +kernel
  have hresult : ((lateCommitState.run lateCommitInside).2.step (.consume false)).1 =
    .readEnded 2 := rfl
  have hf : Finishes Signal.endsRead lateCommitState lateCommitInside (.consume false)
      (.readEnded 2) := ⟨hquiet, hresult, rfl⟩
  obtain ⟨-, -, -, hreturns, hends⟩ :=
    @read_delivers .manyProducers ⟨8, rfl⟩ Nat 1 hone (Vector.replicate 8 0) lateCommitBefore 9
      hstarted
  refine ⟨hone, hstarted, hf, hreturns, ?_⟩
  obtain ⟨hfailed, -⟩ | ⟨n, hn, hdelivers⟩ := hends lateCommitInside _ _ hf
  · cases hfailed
  · obtain rfl := Signal.readEnded.inj hn
    exact hdelivers

end RingTransport.Threads
