/-
  A runner that is cancelled before it runs lets its agent finish what there is to do. `Tells`
  says how many turns of the main thread lead from one pose to another, and what is written
  down in them. Main fact: an agent that reads a limited number of messages at a time reads
  all messages up to the first one that is not committed, in chunks of the limit and a rest,
  and the runner stops after the first read that finds nothing (`drain_reads_up_to_gap`).
-/
import RingTransport.Proofs.Ring.Taking
import RingTransport.Proofs.Runner.Alone
import RingTransport.Runner.Drain

namespace RingTransport.Runner

variable {σ : Type} {agent : Agent σ} {handler : Handler} {x y z : Pose σ} {c c' : Cells}
  {f : Frame} {stack' rest : List Frame} {calls : List Call} {plans : List Plan} {s s' : σ}
  {works k l : Nat} {signals : List Signal} {written written' : List Entry}

/-! ## Turns and what they write -/

/-- So many turns lead from one pose to the other, and these entries are written in them, the
first one first. -/
def Tells (agent : Agent σ) (handler : Handler) (k : Nat) (x : Pose σ) (written : List Entry)
    (y : Pose σ) : Prop :=
  ∀ entries, (x.play handler entries).turns agent k =
    some (y.play handler (written.reverse ++ entries))

theorem Tells.trans (h : Tells agent handler k x written y)
    (h' : Tells agent handler l y written' z) :
    Tells agent handler (k + l) x (written ++ written') z := by
  intro entries
  rw [Play.turns_add (h entries) (h' _), List.reverse_append, List.append_assoc]

theorem tells_one (h : ∀ entries, (x.play handler entries).next agent =
    some (y.play handler (written.reverse ++ entries))) : Tells agent handler 1 x written y := by
  intro entries
  rw [Play.turns, h entries]
  rfl

/-- What a signal makes a play write that gives nobody anything to do. -/
def Signal.record (role : String) : Signal → List Entry
  | .notice n => [.log (n.record role)]
  | _ => []

theorem foldl_observe (x : Pose σ) (haside : signals.all Signal.isAside = true)
    (entries : List Entry) :
    signals.foldl (Play.observe agent 0) (x.play handler entries) =
      x.play handler ((signals.flatMap (Signal.record agent.role)).reverse ++ entries) := by
  induction signals generalizing entries with
  | nil => rfl
  | cons signal signals ih =>
    rw [List.all_cons, Bool.and_eq_true] at haside
    obtain ⟨hfirst, hrest⟩ := haside
    rw [List.foldl_cons, List.flatMap_cons, List.reverse_append, List.append_assoc, ← ih hrest]
    cases signal with
    | began | reported | unwound => cases hfirst
    | _ => rfl

theorem tells_go (hown : inControl (f :: rest) = false)
    (hstep : stepThread handler 0 c (f :: rest) .go = some (c', stack', signals))
    (haside : signals.all Signal.isAside = true) :
    Tells agent handler 1 ⟨c, f :: rest, calls, plans, s, works⟩
      (signals.flatMap (Signal.record agent.role)) ⟨c', stack', calls, plans, s, works⟩ :=
  tells_one fun entries => by rw [next_play, turn_own hown hstep, foldl_observe _ haside]

theorem tells_began {cb : Callback} {b : Behaviour} (hown : inControl (f :: rest) = false)
    (hstep : stepThread handler 0 c (f :: rest) .go = some (c, stack', [.began cb]))
    (hperform : ∀ seen, agent.perform cb seen s = (b, written, s')) :
    Tells agent handler 1 ⟨c, f :: rest, calls, plans, s, works⟩ written
      ⟨c, stack', calls, ⟨b.actions, b.wait, .finish b.ending⟩ :: plans, s',
        if cb = .doWork then works + 1 else works⟩ :=
  tells_one fun entries => by
    rw [next_play, turn_own hown hstep, List.foldl_cons, List.foldl_nil, observe_began]
    simp only [hperform]

theorem tells_call (call : Call) (hdrop : call ≠ .drop) :
    Tells agent handler 1 ⟨c, [], call :: calls, plans, s, works⟩ []
      ⟨c, [call.frame], calls, plans, s, works⟩ :=
  tells_one fun entries => by
    have hcall : Move.call call ≠ .call .drop := fun heq => hdrop (Move.call.inj heq)
    rw [next_play]
    exact move_play ⟨c, [], calls, plans, s, works⟩ entries hcall rfl

/-- A callback that was planned to do nothing ends. -/
theorem tells_finish {cb : Callback} {o : Outcome}
    (hafter : afterCallback handler o.result rest = some stack') :
    Tells agent handler 1 ⟨c, .callback cb :: rest, calls, ⟨[], none, .finish o⟩ :: plans, s, works⟩
      [] ⟨c, stack', calls, plans, s, works⟩ :=
  tells_one fun entries => by
    have hstep : stepThread handler 0 c (.callback cb :: rest) (.finish o) =
        some (c, stack', [.ended cb o]) := by
      simp only [stepThread, hafter, Option.map_some]
    rw [next_play, turn_control rfl]
    exact move_play ⟨c, .callback cb :: rest, calls, plans, s, works⟩ entries Move.noConfusion hstep

/-! ## A cancelled runner -/

/-- The cells of a runner that was cancelled before it runs on the main thread. -/
def Cells.ofCancelledRun (running : Bool) : Cells :=
  ⟨running, false, true, .bound, some 0, ⟨false, none, []⟩, []⟩

/-- The loop of a cancelled runner looks whether it goes on. -/
def loopHead (running : Bool) (s : σ) (works : Nat) : Pose σ :=
  ⟨.ofCancelledRun running, [.run .loadRunning], [], [], s, works⟩

/-- A callback that writes entries down and then ends. -/
theorem tells_callback {cb : Callback} {o : Outcome} (hown : inControl (f :: rest) = false)
    (hstep : stepThread handler 0 c (f :: rest) .go = some (c, .callback cb :: stack, [.began cb]))
    (hperform : ∀ seen, agent.perform cb seen s = (.plain o, written, s'))
    (hafter : afterCallback handler o.result stack = some stack') :
    Tells agent handler 2 ⟨c, f :: rest, calls, plans, s, works⟩ written
      ⟨c, stack', calls, plans, s', if cb = .doWork then works + 1 else works⟩ := by
  rw [← List.append_nil written]
  exact (tells_began hown hstep hperform).trans (tells_finish hafter)

/-- A cancel before the run leaves nothing but the flag. -/
theorem tells_cancel :
    Tells agent handler 3 ⟨⟨true, false, false, .unbound, none, ⟨false, none, []⟩, []⟩, [],
        [.cancel], [], s, works⟩ []
      ⟨⟨true, false, true, .unbound, none, ⟨false, none, []⟩, []⟩, [], [], [], s, works⟩ := by
  have hstore : stepThread handler 0 ⟨true, false, false, .unbound, none, ⟨false, none, []⟩, []⟩
      [.cancel .storeCancelled] .go =
        some (⟨true, false, true, .unbound, none, ⟨false, none, []⟩, []⟩, [.cancel .unpark],
          []) := rfl
  have hunpark : stepThread handler 0 ⟨true, false, true, .unbound, none, ⟨false, none, []⟩, []⟩
      [.cancel .unpark] .go =
        some (⟨true, false, true, .unbound, none, ⟨false, none, []⟩, []⟩, [],
          [.returned .cancel]) := rfl
  exact (tells_call .cancel Call.noConfusion).trans
    ((tells_go rfl hstore rfl).trans (tells_go rfl hunpark rfl))

/-- Until the loop begins nothing is written but the notice of the start. -/
theorem tells_start (hstart : ∀ seen, agent.perform .onStart seen s = (.plain (.ok 0), [], s')) :
    Tells agent handler 5
      ⟨⟨true, false, true, .unbound, none, ⟨false, none, []⟩, []⟩, [], [.run], [], s, works⟩
      [.log (Notice.starting.record agent.role)] (loopHead true s' works) := by
  have hbind : stepThread handler 0 ⟨true, false, true, .unbound, none, ⟨false, none, []⟩, []⟩
      [.run .bind] .go =
        some (⟨true, false, true, .bound, none, ⟨false, none, []⟩, []⟩, [.run .storeHandle],
          []) := rfl
  have hstore : stepThread handler 0 ⟨true, false, true, .bound, none, ⟨false, none, []⟩, []⟩
      [.run .storeHandle] .go =
        some (.ofCancelledRun true, [.run .startDue], [.notice .starting]) := rfl
  have hbegin : stepThread handler 0 (.ofCancelledRun true) [.run .startDue] .go =
      some (.ofCancelledRun true, [.callback .onStart, .run .inStart], [.began .onStart]) := rfl
  exact (tells_call .run Call.noConfusion).trans <| (tells_go rfl hbind rfl).trans <|
    (tells_go rfl hstore rfl).trans <| tells_callback rfl hbegin hstart rfl

/-- Work that finds something to do leads back to the loop. -/
theorem tells_work {count : Nat}
    (hwork : ∀ seen, agent.perform .doWork seen s = (.plain (.ok (count + 1)), written, s')) :
    Tells agent handler 3 (loopHead true s works) written (loopHead true s' (works + 1)) := by
  have hload : stepThread handler 0 (.ofCancelledRun true) [.run .loadRunning] .go =
      some (.ofCancelledRun true, [.run .workDue], []) := rfl
  have hbegin : stepThread handler 0 (.ofCancelledRun true) [.run .workDue] .go =
      some (.ofCancelledRun true, [.callback .doWork, .run .inWork], [.began .doWork]) := rfl
  exact (tells_go rfl hload rfl).trans (tells_callback rfl hbegin hwork rfl)

/-- Work that finds nothing to do stops the loop. -/
theorem tells_last_work
    (hwork : ∀ seen, agent.perform .doWork seen s = (.plain (.ok 0), written, s')) :
    Tells agent handler 5 (loopHead true s works) written (loopHead false s' (works + 1)) := by
  have hload : stepThread handler 0 (.ofCancelledRun true) [.run .loadRunning] .go =
      some (.ofCancelledRun true, [.run .workDue], []) := rfl
  have hbegin : stepThread handler 0 (.ofCancelledRun true) [.run .workDue] .go =
      some (.ofCancelledRun true, [.callback .doWork, .run .inWork], [.began .doWork]) := rfl
  have hcancelled : stepThread handler 0 (.ofCancelledRun true) [.run .loadCancelled] .go =
      some (.ofCancelledRun true, [.run .stop], []) := rfl
  have hstop : stepThread handler 0 (.ofCancelledRun true) [.run .stop] .go =
      some (.ofCancelledRun false, [.run .loadRunning], []) := rfl
  have h : Tells agent handler 5 (loopHead true s works) ([] ++ (written ++ ([] ++ [])))
      (loopHead false s' (works + 1)) :=
    (tells_go rfl hload rfl).trans <| (tells_callback rfl hbegin hwork rfl).trans <|
      (tells_go rfl hcancelled rfl).trans (tells_go rfl hstop rfl)
  rwa [List.nil_append, List.append_nil, List.append_nil] at h

/-- Once the loop has stopped, the agent is closed, and nothing is written but the notice. -/
theorem tells_close (hclose : ∀ seen, agent.perform .onClose seen s = (.plain (.ok 0), [], s')) :
    Tells agent handler 9 (loopHead false s works) [.log (Notice.closed.record agent.role)]
      ⟨⟨false, true, true, .bound, some 0, ⟨true, none, []⟩, []⟩, [], [], [], s', works⟩ := by
  have hload : stepThread handler 0 (.ofCancelledRun false) [.run .loadRunning] .go =
      some (.ofCancelledRun false, [.teardown .run .closeDue], []) := rfl
  have hbegin : stepThread handler 0 (.ofCancelledRun false) [.teardown .run .closeDue] .go =
      some (.ofCancelledRun false, [.callback .onClose, .teardown .run .inClose],
        [.began .onClose]) := rfl
  have hannounce : stepThread handler 0 (.ofCancelledRun false) [.teardown .run .announce] .go =
      some (.ofCancelledRun false, [.release .run .storeClosed none], [.notice .closed]) := rfl
  have hclosed : stepThread handler 0 (.ofCancelledRun false)
      [.release .run .storeClosed none] .go =
        some (⟨false, true, true, .bound, some 0, ⟨false, none, []⟩, []⟩,
          [.release .run .lock none], []) := rfl
  have hlock : stepThread handler 0 ⟨false, true, true, .bound, some 0, ⟨false, none, []⟩, []⟩
      [.release .run .lock none] .go =
        some (⟨false, true, true, .bound, some 0, ⟨false, some 0, []⟩, []⟩,
          [.release .run .storeDone none], []) := rfl
  have hdone : stepThread handler 0 ⟨false, true, true, .bound, some 0, ⟨false, some 0, []⟩, []⟩
      [.release .run .storeDone none] .go =
        some (⟨false, true, true, .bound, some 0, ⟨true, some 0, []⟩, []⟩,
          [.release .run .wake none], []) := rfl
  have hwake : stepThread handler 0 ⟨false, true, true, .bound, some 0, ⟨true, some 0, []⟩, []⟩
      [.release .run .wake none] .go =
        some (⟨false, true, true, .bound, some 0, ⟨true, some 0, []⟩, []⟩,
          [.release .run .unlock none], []) := rfl
  have hunlock : stepThread handler 0 ⟨false, true, true, .bound, some 0, ⟨true, some 0, []⟩, []⟩
      [.release .run .unlock none] .go =
        some (⟨false, true, true, .bound, some 0, ⟨true, none, []⟩, []⟩, [],
          [.returned .run]) := rfl
  exact (tells_go rfl hload rfl).trans <| (tells_callback rfl hbegin hclose rfl).trans <|
    (tells_go rfl hannounce rfl).trans <| (tells_go rfl hclosed rfl).trans <|
    (tells_go rfl hlock rfl).trans <| (tells_go rfl hdone rfl).trans <|
    (tells_go rfl hwake rfl).trans (tells_go rfl hunlock rfl)

/-- What a cancelled runner comes to on the main thread, by what its loop writes down. -/
theorem runCancelled_eq {s'' : σ} {works' fuel : Nat}
    (hstart : ∀ seen, agent.perform .onStart seen s = (.plain (.ok 0), [], s))
    (hloop : Tells agent .innermost k (loopHead true s 0) written (loopHead false s' works'))
    (hclose : ∀ seen, agent.perform .onClose seen s' = (.plain (.ok 0), [], s''))
    (hfuel : k + 14 < fuel) :
    runCancelled agent s none fuel = some ⟨s'', true, false,
      .log (Notice.starting.record agent.role) :: written ++
        [.log (Notice.closed.record agent.role)]⟩ := by
  have hcancel : ((Play.init 0 s).ask .cancel).settle agent fuel =
      some (Pose.play ⟨⟨true, false, true, .unbound, none, ⟨false, none, []⟩, []⟩, [], [], [], s, 0⟩
        .innermost []) :=
    Play.settle_of_turns (tells_cancel []) rfl (by omega)
  have hrun := ((tells_start hstart).trans hloop).trans (tells_close hclose)
  have hsettled := Play.settle_of_turns (hrun []) rfl (show 5 + k + 9 < fuel by omega)
  rw [runCancelled, hcancel]
  refine (congrArg (Option.bind · _) hsettled).trans ?_
  simp [Pose.play, Play.takeEntries, Play.hasPanicked]

/-! ## Chunks -/

/-- The counts of the reads that take so many messages, at most `limit` at a time. The last
read finds nothing. -/
def chunkCounts (limit total : Nat) : List Nat :=
  List.replicate (total / limit) limit ++
    (if total % limit = 0 then [] else [total % limit]) ++ [0]

theorem chunkCounts_zero (limit : Nat) : chunkCounts limit 0 = [0] := by
  simp [chunkCounts]

theorem chunkCounts_of_pos {limit total : Nat} (hlimit : 0 < limit) (htotal : 0 < total) :
    chunkCounts limit total = min limit total :: chunkCounts limit (total - min limit total) := by
  by_cases hle : limit ≤ total
  · obtain ⟨rest, rfl⟩ := Nat.exists_eq_add_of_le hle
    rw [Nat.min_eq_left hle, Nat.add_sub_cancel_left, chunkCounts, chunkCounts,
      Nat.add_div_left rest hlimit, Nat.add_mod_left, List.replicate_succ]
    rfl
  · have hlt : total < limit := Nat.lt_of_not_le hle
    rw [Nat.min_eq_right (Nat.le_of_lt hlt), Nat.sub_self, chunkCounts_zero, chunkCounts,
      Nat.div_eq_of_lt hlt, Nat.mod_eq_of_lt hlt, if_neg (Nat.ne_of_gt htotal)]
    rfl

/-- There are as many reads as chunks, rounded up, and one more. -/
theorem length_chunkCounts {limit : Nat} (hlimit : 0 < limit) (total : Nat) :
    (chunkCounts limit total).length = (total + limit - 1) / limit + 1 := by
  have hsplit := Nat.div_add_mod total limit
  have hrest := Nat.mod_lt total hlimit
  have hlength : (chunkCounts limit total).length =
      total / limit + (if total % limit = 0 then 0 else 1) + 1 := by
    rw [chunkCounts]
    split <;> simp
  rw [hlength, Nat.add_right_cancel_iff]
  generalize total / limit = whole at hsplit ⊢
  generalize total % limit = part at hsplit hrest ⊢
  rw [eq_comm, Nat.div_eq_iff hlimit, Nat.add_mul, Nat.mul_comm whole]
  split <;> omega

/-! ## Draining -/

section Drain

variable {kind : Kind} {cap : Capacity} {α : Type} {r : Ring kind cap α} {q : Queue cap α}
  {taken : List α}

/-- The agent reads the ready cells in chunks, and then the loop stops. -/
theorem tells_drain {limit : Nat} (hlimit : 0 < limit) {ready : Nat}
    (hready : q.ready.length = ready) (h : r.Holds q.first q) :
    ∃ k ≤ 3 * ready + 5, ∃ r' works',
      Tells (drainAgent limit) handler k (loopHead true ⟨r, taken⟩ works)
        ((chunkCounts limit ready).map .work)
        (loopHead false ⟨r', (q.ready.map Cell.value).reverse ++ taken⟩ works') ∧
      r'.len = q.cells.length - ready := by
  induction ready using Nat.strongRecOn generalizing r q taken works with
  | ind ready ih =>
    obtain ⟨r', htake, h'⟩ := h.take limit
    have hcount : ((q.ready.take limit).map Cell.value).length = min limit ready := by
      rw [List.length_map, List.length_take, hready]
    have hperform : ∀ seen, (drainAgent limit).perform .doWork seen ⟨r, taken⟩ =
        (.plain (.ok (min limit ready)), [.work (min limit ready)],
          ⟨r', ((q.ready.take limit).map Cell.value).reverse ++ taken⟩) := by
      intro seen
      simp only [drainAgent, htake, hcount]
    rcases Nat.eq_zero_or_pos ready with rfl | hpos
    · have hnone : q.ready = [] := List.length_eq_zero_iff.1 hready
      simp only [hnone, List.take_nil, List.map_nil, Nat.min_zero] at hperform h' ⊢
      refine ⟨5, Nat.le_refl _, r', works + 1, ?_, h'.distance_eq⟩
      rw [chunkCounts_zero]
      exact tells_last_work hperform
    · have hmin : (q.ready.take limit).length = min limit ready := by
        rw [List.length_take, hready]
      rw [hmin] at h'
      have hle : min limit ready ≤ q.ready.length := by omega
      obtain ⟨m, hm⟩ : ∃ m, min limit ready = m + 1 := ⟨min limit ready - 1, by omega⟩
      have hrest : (q.drop (min limit ready)).ready.length = ready - min limit ready := by
        rw [Queue.ready_drop hle, List.length_drop, hready]
      obtain ⟨k, hk, r'', works', htells, hlen⟩ :=
        @ih (ready - min limit ready) (by omega) (works + 1) _ _
          (((q.ready.take limit).map Cell.value).reverse ++ taken) hrest h'
      have htaken : ((q.drop (min limit ready)).ready.map Cell.value).reverse ++
          (((q.ready.take limit).map Cell.value).reverse ++ taken) =
            (q.ready.map Cell.value).reverse ++ taken := by
        have htake' : q.ready.take limit = q.ready.take (min limit ready) := by
          rw [← hready, ← List.take_eq_take_min]
        rw [Queue.ready_drop hle, ← List.append_assoc, ← List.reverse_append, ← List.map_append,
          htake', List.take_append_drop]
      rw [htaken] at htells
      rw [hm] at hperform
      refine ⟨3 + k, by omega, r'', works', ?_, ?_⟩
      · rw [chunkCounts_of_pos hlimit hpos, List.map_cons, ← List.singleton_append, hm]
        rw [hm] at htells
        exact (tells_work hperform).trans htells
      · rw [hlen, Queue.cells_drop, List.length_drop]
        omega

/-! ## What there is to drain -/

/-- The cells of messages of which all are committed but the one at the gap. -/
def cellsExcept (gap : Option Nat) : (position : Nat) → List α → List (Cell α)
  | _, [] => []
  | position, x :: xs => ⟨x, decide (gap ≠ some position)⟩ :: cellsExcept gap (position + 1) xs

theorem length_cellsExcept (gap : Option Nat) (position : Nat) (values : List α) :
    (cellsExcept gap position values).length = values.length := by
  induction values generalizing position with
  | nil => rfl
  | cons x xs ih => rw [cellsExcept, List.length_cons, ih, List.length_cons]

/-- The messages before the gap are ready. -/
theorem ready_cellsExcept {gap : Option Nat} {position : Nat} (hgap : ∀ g ∈ gap, position ≤ g)
    (values : List α) :
    ((cellsExcept gap position values).takeWhile Cell.committed).map Cell.value =
      values.take (gap.elim values.length (· - position)) := by
  induction values generalizing position with
  | nil => rw [cellsExcept, List.take_nil, List.takeWhile_nil, List.map_nil]
  | cons x xs ih =>
    rw [cellsExcept, List.takeWhile_cons]
    cases gap with
    | none =>
      rw [if_pos (by simp), List.map_cons, ih nofun]
      rfl
    | some g =>
      have hle : position ≤ g := hgap g rfl
      simp only [Option.elim_some] at ih ⊢
      rcases Nat.eq_or_lt_of_le hle with rfl | hlt
      · rw [if_neg (by simp), Nat.sub_self]
        rfl
      · have hrest : ∀ g' ∈ some g, position + 1 ≤ g' := by
          rintro g' ⟨⟩
          exact hlt
        have hsub : g - position = g - (position + 1) + 1 := by omega
        rw [if_pos (by simpa using Nat.ne_of_gt hlt), List.map_cons, ih hrest, hsub,
          List.take_succ_cons]

/-- All messages are committed but the one at the gap, if it is among them. -/
theorem countP_cellsExcept (gap : Option Nat) (position : Nat) (values : List α) :
    (cellsExcept gap position values).countP Cell.committed =
      values.length - if ∃ g ∈ gap, position ≤ g ∧ g < position + values.length then 1 else 0 := by
  induction values generalizing position with
  | nil => simp [cellsExcept]
  | cons x xs ih =>
    rw [cellsExcept, List.countP_cons, ih, List.length_cons]
    cases gap with
    | none => simp
    | some g =>
      simp only [Option.mem_some_iff, exists_eq_left', ne_eq, Option.some.injEq, decide_not,
        Bool.not_eq_true', decide_eq_false_iff_not]
      split_ifs <;> omega

/-- Publishing fills the room that is left. -/
theorem holds_publishExcept {gap : Option Nat} {values : List α} {position commits : Nat}
    (h : r.Holds q.first q) {fresh : List (Cell α)}
    (hfresh : fresh = cellsExcept gap position (values.take (cap.size - q.cells.length))) :
    ∃ r' q', publishExcept gap values position commits r =
        (commits + fresh.countP Cell.committed, r') ∧
      r'.Holds q'.first q' ∧ q'.cells = q.cells ++ fresh := by
  induction values generalizing r q position commits fresh with
  | nil =>
    rw [List.take_nil, cellsExcept] at hfresh
    subst hfresh
    exact ⟨r, q, rfl, h, (List.append_nil _).symm⟩
  | cons x xs ih =>
    rw [publishExcept]
    rcases Nat.eq_or_lt_of_le h.length_le with hfull | hroom
    · rw [h.tryClaim_full hfull]
      refine ih h ?_
      rw [hfresh, hfull, Nat.sub_self, List.take_zero, List.take_zero, cellsExcept, cellsExcept]
    · obtain ⟨r', hclaim, hfill⟩ := h.fill hroom x
      have hmore : cap.size - q.cells.length = cap.size - (q.cells.length + 1) + 1 := by omega
      rw [hmore, List.take_succ_cons, cellsExcept] at hfresh
      subst hfresh
      simp only [hclaim]
      split
      · next hgap =>
        obtain ⟨r'', q'', hrest, h'', hq''⟩ :=
          @ih _ (q.push.set q.stop x) (position + 1) commits hfill _ rfl
        rw [q.cells_fill, List.length_append, List.length_singleton] at hrest hq''
        refine ⟨r'', q'', ?_, h'', ?_⟩
        · rw [hrest, List.countP_cons_of_neg (by simp [hgap])]
        · rw [hq'', List.append_assoc, decide_eq_false (not_not_intro hgap), List.singleton_append]
      · next hgap =>
        obtain ⟨r'', q'', hrest, h'', hq''⟩ :=
          @ih _ ((q.push.set q.stop x).commit q.stop) (position + 1) (commits + 1) hfill.publish _
            rfl
        rw [q.cells_publish, List.length_append, List.length_singleton] at hrest hq''
        refine ⟨r'', q'', ?_, h'', ?_⟩
        · rw [hrest, List.countP_cons_of_pos (by simp [hgap]), Nat.add_assoc, Nat.add_comm 1]
        · rw [hq'', List.append_assoc, decide_eq_true hgap, List.singleton_append]

/-- A drain reads the messages before the gap, and no more: all that were published if none
was left out. It reads them in chunks, and stops once a read finds nothing. -/
theorem drain_reads_up_to_gap (kind : Kind) {cap : Capacity} {α : Type} (slots : Vector α cap.size)
    (gap : Option Nat) (values : List α) {limit : Nat} (hlimit : 1 ≤ limit) :
    let filled := min values.length cap.size
    let reached := min (gap.getD filled) filled
    drain (.ofSlots slots : Ring kind cap α) gap values limit = some
        { published := if reached < filled then filled - 1 else filled
          values := values.take reached
          left := filled - reached
          closed := true
          entries := .log (Notice.starting.record "drain") ::
            (chunkCounts limit reached).map .work ++ [.log (Notice.closed.record "drain")] } ∧
      (chunkCounts limit reached).length = (reached + limit - 1) / limit + 1 := by
  intro filled reached
  refine ⟨?_, length_chunkCounts hlimit reached⟩
  have hempty : (Ring.ofSlots slots : Ring kind cap α).Holds (Queue.ofContents slots).first
      (.ofContents slots) := Ring.holds_ofSlots slots
  obtain ⟨r, q, hpublish, h, hcells⟩ :=
    @holds_publishExcept _ _ _ _ _ gap values 0 0 hempty _ rfl
  have hroom : cap.size - (Queue.ofContents slots).cells.length = cap.size := Nat.sub_zero _
  rw [hroom] at hpublish hcells
  have hfilled : (values.take cap.size).length = filled := by
    rw [List.length_take, Nat.min_comm]
  have hcells : q.cells = cellsExcept gap 0 (values.take cap.size) := hcells
  have hlength : q.cells.length = filled := by rw [hcells, length_cellsExcept, hfilled]
  have hready : q.ready.map Cell.value = values.take reached := by
    rw [Queue.ready, hcells, ready_cellsExcept (fun g _ => Nat.zero_le g), List.take_take, hfilled,
      List.take_eq_take_iff]
    cases gap with
    | none => simp [reached, filled]
    | some g =>
      simp only [reached, filled, Option.elim_some, Option.getD_some]
      omega
  have hpublished : (cellsExcept gap 0 (values.take cap.size)).countP Cell.committed =
      if reached < filled then filled - 1 else filled := by
    rw [countP_cellsExcept, hfilled]
    cases gap with
    | none => simp [reached]
    | some g =>
      simp only [Option.mem_some_iff, exists_eq_left', reached, Option.getD_some]
      split_ifs <;> omega
  have hreached : q.ready.length = reached := by
    rw [← List.length_map Cell.value, hready, List.length_take]
    omega
  obtain ⟨k, hk, r', works, htells, hleft⟩ :=
    @tells_drain .innermost 0 _ _ _ r q [] limit hlimit reached hreached h
  have hfuel : k + 14 < 100 * (values.length + 10) := by omega
  have hrun := runCancelled_eq (fun _ => rfl) htells (fun _ => rfl) hfuel
  rw [drain, hpublish, Nat.zero_add, hpublished]
  simp only [hrun, Option.bind_eq_bind, Option.bind_some, hleft, hlength, List.append_nil,
    List.reverse_reverse, hready]
  rfl

/-- Of five messages four find room; the three before the gap are read in a chunk and a rest. -/
theorem drain_four_up_to_gap :
    1 ≤ 2 ∧ drain (.ofSlots (.replicate _ 0) : Ring .manyProducers ⟨4, by decide⟩ Nat) (some 3)
      [7, 8, 9, 10, 11] 2 = some ⟨3, [7, 8, 9], 1, true,
        [.log (Notice.starting.record "drain"), .work 2, .work 1, .work 0,
          .log (Notice.closed.record "drain")]⟩ :=
  ⟨by decide, (drain_reads_up_to_gap .manyProducers _ (some 3) [7, 8, 9, 10, 11]
    (show 1 ≤ 2 by decide)).1⟩

end Drain

end RingTransport.Runner
