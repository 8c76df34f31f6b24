/-
  Everything that happens while a buffer is used, moment by moment, also inside the callbacks
  of its reads. The moments inside a read are noted by a visitor that does what the callbacks
  do and keeps a diary besides (`Buffer.noting`), so that the read is the one that `scan`
  makes. Main facts: the diary of a read tells the messages that its report tells, and it
  ends where the read does (`Buffer.read_noting`); what the callbacks, the cleared marks and
  the last move of the head keep holds when a read ends (`ReadInvariant.read`).
-/
import RingTransport.Ring.Buffer

namespace RingTransport

open RingTransport.Ring (Delivery ReadEnd)

variable {kind : Kind} {cap : Capacity} {α : Type}

namespace Buffer

/-- A moment in the use of a buffer. -/
inductive Moment (kind : Kind) (cap : Capacity) (α : Type) where
  /-- An operation, between the buffer that it found and the one that it left. -/
  | op (before : Buffer kind cap α) (o : Op α) (reply : Reply α) (after : Buffer kind cap α)
  | began (limit : Nat) (b : Buffer kind cap α)
  /-- The callback for a message is called, and finds the buffer so. -/
  | handed (d : Delivery α) (b : Buffer kind cap α)
  /-- A read is over, its head moved or its callback failed. -/
  | ended (ending : ReadEnd) (after : Buffer kind cap α)
  /-- Any other request was served. -/
  | served (request : Request α) (after : Buffer kind cap α)

/-- The buffer that a moment leaves. -/
def Moment.after : Moment kind cap α → Buffer kind cap α
  | .op _ _ _ b | .began _ b | .handed _ b | .ended _ b | .served _ b => b

/-- Each moment stands to those before it as `P` says. -/
def Always (P : List (Moment kind cap α) → Moment kind cap α → Prop)
    (ms : List (Moment kind cap α)) : Prop :=
  ∀ earlier m later, ms = earlier ++ m :: later → P earlier m

theorem always_nil (P : List (Moment kind cap α) → Moment kind cap α → Prop) : Always P [] :=
  fun _ _ _ h => absurd h.symm (List.append_ne_nil_of_right_ne_nil _ (List.cons_ne_nil _ _))

theorem Always.snoc {P : List (Moment kind cap α) → Moment kind cap α → Prop}
    {ms : List (Moment kind cap α)} {m : Moment kind cap α} (h : Always P ms) (hm : P ms m) :
    Always P (ms ++ [m]) := by
  intro earlier other later heq
  rcases List.eq_nil_or_concat later with rfl | ⟨later, last, rfl⟩
  · obtain ⟨rfl, hlast⟩ := List.append_inj' heq rfl
    obtain rfl : m = other := List.head_eq_of_cons_eq hlast
    exact hm
  · rw [List.concat_eq_append, ← List.cons_append, ← List.append_assoc] at heq
    exact h earlier other later (List.append_inj' heq rfl).1

/-! ## Keeping a diary of a read -/

/-- The handles as a read goes, and the moments so far. -/
structure Diary (kind : Kind) (cap : Capacity) (α : Type) where
  handles : Option Handles
  moments : List (Moment kind cap α)

/-- Runs the steps of one callback, as `runSteps` does, and notes its operations. -/
def noteSteps : List (HookStep α) → Ring kind cap α → Diary kind cap α →
    Bool × Ring kind cap α × Diary kind cap α
  | [], r, diary => (true, r, diary)
  | .fail :: _, r, diary => (false, r, diary)
  | .op o :: steps, r, ⟨handles, moments⟩ =>
    let (reply, after) := perform ⟨r, handles⟩ o
    let diary := ⟨after.handles, moments ++ [.op ⟨r, handles⟩ o reply after]⟩
    if reply.isFailure then (false, after.ring, diary) else noteSteps steps after.ring diary

/-- The callback that notes its message and then runs its steps. -/
def noting (hooks : Hooks α) : Ring.Visitor kind cap α (Diary kind cap α) :=
  fun d r ⟨handles, moments⟩ =>
    noteSteps (hooks.at d.position) r ⟨handles, moments ++ [.handed d ⟨r, handles⟩]⟩

/-- The moments between the beginning and the end of a read. -/
def insideRead (b : Buffer kind cap α) (limit : Nat) (hooks : Hooks α) :
    List (Moment kind cap α) :=
  (b.ring.readLimit (noting hooks) limit ⟨b.handles, []⟩).2.2.moments

/-- The moments of a request. -/
def momentsOf (b : Buffer kind cap α) : Request α → List (Moment kind cap α)
  | .op o => [.op b o (b.perform o).1 (b.perform o).2]
  | .read limit hooks =>
    let (report, after) := b.readHooked limit hooks
    .began limit b :: b.insideRead limit hooks ++ [.ended report.ending after]
  | request => [.served request (b.serve request).2]

/-- The moments of one request after another. -/
def moments (b : Buffer kind cap α) : List (Request α) → List (Moment kind cap α)
  | [] => []
  | request :: requests => b.momentsOf request ++ (b.serve request).2.moments requests

theorem append_momentsOf_read (past : List (Moment kind cap α)) (b : Buffer kind cap α)
    (limit : Nat) (hooks : Hooks α) :
    past ++ b.momentsOf (.read limit hooks) =
      past ++ [.began limit b] ++ b.insideRead limit hooks ++
        [.ended (b.readHooked limit hooks).1.ending (b.readHooked limit hooks).2] := by
  simp [momentsOf]

/-- What every request keeps of the moments so far and the buffer holds after them all. -/
theorem moments_induct {β : Type} (request : β → Request α)
    {I : List (Moment kind cap α) → Buffer kind cap α → Prop}
    (hserve : ∀ ms b use, I ms b →
      I (ms ++ b.momentsOf (request use)) (b.serve (request use)).2)
    {ms : List (Moment kind cap α)} {b : Buffer kind cap α} (h : I ms b) (uses : List β) :
    ∃ b', I (ms ++ b.moments (uses.map request)) b' := by
  induction uses generalizing ms b with
  | nil => exact ⟨b, by rw [List.map_nil, moments, List.append_nil]; exact h⟩
  | cons use uses ih =>
    obtain ⟨b', h'⟩ := ih (hserve ms b use h)
    exact ⟨b', by rw [List.map_cons, moments, ← List.append_assoc]; exact h'⟩

/-! ## The diary is that of the read -/

/-- The message that is handed over at a moment. -/
def Moment.delivery? : Moment kind cap α → Option (Delivery α)
  | .handed d _ => some d
  | _ => none

/-- What an operation answers at a moment, unless it fails. -/
def Moment.reply? : Moment kind cap α → Option (Reply α)
  | .op _ _ reply _ => if reply.isFailure then none else some reply
  | _ => none

/-- The number that is claimed at a moment, on a whole buffer or through a producer. -/
def Moment.claim? : Moment kind cap α → Option Nat
  | .op before .tryClaim (.index _) _
  | .op before (.claim _) (.claimed ..) _
  | .op before (.publish ..) (.index _) _ => some before.ring.tail
  | _ => none

theorem noteSteps_eq (position : Nat) (steps : List (HookStep α)) (r : Ring kind cap α)
    (handles : Option Handles) (moments : List (Moment kind cap α))
    (deliveries : List (Delivery α)) (replies : List (Nat × Reply α)) :
    ∃ returned r' handles' new,
      noteSteps steps r ⟨handles, moments⟩ = (returned, r', ⟨handles', moments ++ new⟩) ∧
      runSteps position steps r ⟨handles, deliveries, replies⟩ =
        (returned, r', ⟨handles', deliveries,
          ((new.filterMap Moment.reply?).map (position, ·)).reverse ++ replies⟩) ∧
      new.filterMap Moment.delivery? = [] := by
  induction steps generalizing r handles moments replies with
  | nil => exact ⟨true, r, handles, [], by simp [noteSteps], rfl, rfl⟩
  | cons step steps ih =>
    cases step with
    | fail => exact ⟨false, r, handles, [], by simp [noteSteps], rfl, rfl⟩
    | op o =>
      obtain ⟨reply, after, hperform⟩ : ∃ reply after,
        perform ⟨r, handles⟩ o = (reply, after) := ⟨_, _, rfl⟩
      let m : Moment kind cap α := .op ⟨r, handles⟩ o reply after
      by_cases hfail : reply.isFailure = true
      · refine ⟨false, after.ring, after.handles, [m], ?_, ?_, rfl⟩
        · simp only [noteSteps, hperform, hfail, if_true, m]
        · simp only [runSteps, hperform, hfail, if_true, m, List.filterMap_cons, Moment.reply?,
            List.filterMap_nil, List.map_nil, List.reverse_nil, List.nil_append]
      · obtain ⟨returned, r', handles', new, hnote, hrun, hnone⟩ :=
          ih after.ring after.handles (moments ++ [m]) ((position, reply) :: replies)
        refine ⟨returned, r', handles', m :: new, ?_, ?_, ?_⟩
        · simp only [noteSteps, hperform, hfail, Bool.false_eq_true, if_false]
          rw [hnote, List.append_assoc, List.singleton_append]
        · simp only [runSteps, hperform, hfail, Bool.false_eq_true, if_false, m,
            List.filterMap_cons, Moment.reply?, List.map_cons, List.reverse_cons,
            List.append_assoc, List.singleton_append]
          exact hrun
        · simpa [m, Moment.delivery?] using hnone

/-- One callback, noted and recorded. -/
theorem noting_eq (hooks : Hooks α) (d : Delivery α) (r : Ring kind cap α)
    (handles : Option Handles) (moments : List (Moment kind cap α))
    (deliveries : List (Delivery α)) (replies : List (Nat × Reply α)) :
    ∃ returned r' handles' inside answers,
      noting hooks d r ⟨handles, moments⟩ = (returned, r', ⟨handles', moments ++ inside⟩) ∧
      hooked hooks d r ⟨handles, deliveries, replies⟩ =
        (returned, r', ⟨handles', d :: deliveries, answers ++ replies⟩) ∧
      inside.filterMap Moment.delivery? = [d] ∧
      answers.reverse.map (·.2) = inside.filterMap Moment.reply? := by
  let m : Moment kind cap α := .handed d ⟨r, handles⟩
  obtain ⟨returned, r', handles', new, hnote, hrun, hnone⟩ :=
    noteSteps_eq d.position (hooks.at d.position) r handles (moments ++ [m]) (d :: deliveries)
      replies
  refine ⟨returned, r', handles', m :: new, _, ?_, hrun, ?_, ?_⟩
  · rw [List.append_assoc, List.singleton_append] at hnote
    exact hnote
  · simp [m, Moment.delivery?, hnone]
  · have hsame : (m :: new).filterMap Moment.reply? = new.filterMap Moment.reply? := rfl
    simp [hsame, Function.comp_def]

theorem scan_noting (hooks : Hooks α) (start left : Nat) (count : Nat) (r : Ring kind cap α)
    (handles : Option Handles) (moments : List (Moment kind cap α))
    (deliveries : List (Delivery α)) (replies : List (Nat × Reply α)) :
    ∃ ending r' handles' new newReplies,
      Ring.scan (noting hooks) start left count r ⟨handles, moments⟩ =
        (ending, r', ⟨handles', moments ++ new⟩) ∧
      Ring.scan (hooked hooks) start left count r ⟨handles, deliveries, replies⟩ =
        (ending, r', ⟨handles', (new.filterMap Moment.delivery?).reverse ++ deliveries,
          newReplies ++ replies⟩) ∧
      newReplies.reverse.map (·.2) = new.filterMap Moment.reply? := by
  induction left generalizing count r handles moments deliveries replies with
  | zero =>
    refine ⟨.finished count, r.setHead (start + count), handles, [], [], ?_, rfl, rfl⟩
    rw [List.append_nil]
    rfl
  | succ left ih =>
    by_cases hready : r.markOf (start + count) = .ready
    · obtain ⟨d, hd⟩ : ∃ d : Delivery α, ⟨count, start + count, r.slotOf (start + count)⟩ = d :=
        ⟨_, rfl⟩
      obtain ⟨returned, r₁, handles₁, inside, answers, hnote, hrun, hdelivered, hanswered⟩ :=
        noting_eq hooks d r handles moments deliveries replies
      cases returned with
      | false =>
        refine ⟨.failed count, r₁, handles₁, inside, answers, ?_, ?_, hanswered⟩
        · simp only [Ring.scan, if_pos hready, hd, hnote]
        · simp only [Ring.scan, if_pos hready, hd, hrun, hdelivered]
          rfl
      | true =>
        obtain ⟨ending, r', handles', new, newReplies, hscan, hscan', hrest⟩ :=
          ih (count + 1) (r₁.mark (cap.indexOf (start + count)) .empty) handles₁
            (moments ++ inside) (d :: deliveries) (answers ++ replies)
        refine ⟨ending, r', handles', inside ++ new, newReplies ++ answers, ?_, ?_, ?_⟩
        · rw [← List.append_assoc]
          simp only [Ring.scan, if_pos hready, hd, hnote, hscan]
        · rw [List.filterMap_append, hdelivered, List.reverse_append, List.append_assoc,
            List.append_assoc]
          simp only [Ring.scan, if_pos hready, hd, hrun, hscan']
          rfl
        · rw [List.filterMap_append, List.reverse_append, List.map_append, hanswered, hrest]
    · refine ⟨.finished count, r.setHead (start + count), handles, [], [], ?_, ?_, rfl⟩
      · rw [Ring.scan, if_neg hready, List.append_nil]
      · rw [Ring.scan, if_neg hready]
        rfl

/-- The read that notes its moments is the read with the same hooks: it ends as that one does
and leaves the same ring and handles, and it notes the messages and answers of the report. -/
theorem read_noting (b : Buffer kind cap α) (limit : Nat) (hooks : Hooks α) :
    let (report, after) := b.readHooked limit hooks
    b.ring.readLimit (noting hooks) limit ⟨b.handles, []⟩ =
        (report.ending, after.ring, ⟨after.handles, b.insideRead limit hooks⟩) ∧
      (b.insideRead limit hooks).filterMap Moment.delivery? = report.deliveries ∧
      (b.insideRead limit hooks).filterMap Moment.reply? = report.replies.map (·.2) := by
  obtain ⟨ending, r', handles', new, newReplies, hnoting, hhooked, hanswers⟩ :=
    scan_noting hooks b.ring.head (min (distance b.ring.tail b.ring.head) limit) 0 b.ring
      b.handles [] [] []
  have hinside : b.insideRead limit hooks = new := by
    rw [insideRead, Ring.readLimit, hnoting, List.nil_append]
  simp only [readHooked, Ring.readLimit, hhooked, hnoting, hinside, List.append_nil,
    List.nil_append, List.reverse_reverse, hanswers, and_self]

end Buffer

/-! ## What a read keeps -/

open Buffer (Hooks HookStep Moment noting noteSteps)

/-- What every part of a read keeps that starts at the number `start` and hands over at most
`bound` messages. `Between` holds when `count` messages are passed, and `Within` while the
callback for the message after them runs. -/
structure ReadInvariant (start bound : Nat)
    (Between Within : Nat → List (Moment kind cap α) → Buffer kind cap α → Prop) : Prop where
  hand : ∀ {count moments b}, count < bound → Between count moments b →
    b.ring.markOf (start + count) = .ready →
    Within count
      (moments ++ [.handed ⟨count, start + count, b.ring.slotOf (start + count)⟩ b]) b
  perform : ∀ {count moments b} (o : Op α), Within count moments b →
    Within count (moments ++ [.op b o (b.perform o).1 (b.perform o).2]) (b.perform o).2
  pass : ∀ {count moments b}, Within count moments b →
    Between (count + 1) moments ⟨b.ring.mark (cap.indexOf (start + count)) .empty, b.handles⟩

/-- What holds when a read ends: it moved the head, or it is still in a callback. -/
def ReadInvariant.Ends (start : Nat)
    (Between Within : Nat → List (Moment kind cap α) → Buffer kind cap α → Prop) :
    ReadEnd → List (Moment kind cap α) → Buffer kind cap α → Prop
  | .finished n, moments, b =>
    ∃ r, b.ring = r.setHead (start + n) ∧ Between n moments ⟨r, b.handles⟩
  | .failed k, moments, b => Within k moments b

namespace ReadInvariant

variable {start bound : Nat}
  {Between Within : Nat → List (Moment kind cap α) → Buffer kind cap α → Prop}

theorem steps (inv : ReadInvariant start bound Between Within) {count : Nat}
    (steps : List (HookStep α)) {r : Ring kind cap α} {handles : Option Handles}
    {moments : List (Moment kind cap α)} (h : Within count moments ⟨r, handles⟩) :
    let (_, r', diary) := noteSteps steps r ⟨handles, moments⟩
    Within count diary.moments ⟨r', diary.handles⟩ := by
  induction steps generalizing r handles moments with
  | nil => exact h
  | cons step steps ih =>
    cases step with
    | fail => exact h
    | op o =>
      have hnext := inv.perform o h
      simp only [noteSteps]
      split
      · exact hnext
      · exact ih hnext

theorem scan (inv : ReadInvariant start bound Between Within) (hooks : Hooks α) (left : Nat)
    {count : Nat} (hbound : count + left = bound) {r : Ring kind cap α}
    {handles : Option Handles} {moments : List (Moment kind cap α)}
    (h : Between count moments ⟨r, handles⟩) :
    let (ending, r', diary) := Ring.scan (noting hooks) start left count r ⟨handles, moments⟩
    Ends start Between Within ending diary.moments ⟨r', diary.handles⟩ := by
  induction left generalizing count r handles moments with
  | zero => exact ⟨r, rfl, h⟩
  | succ left ih =>
    by_cases hready : r.markOf (start + count) = .ready
    · have hsteps := inv.steps (hooks.at count) (inv.hand (by omega) h hready)
      simp only [Ring.scan, if_pos hready, noting]
      generalize noteSteps (hooks.at count) r _ = result at hsteps ⊢
      obtain ⟨returned, r₁, diary⟩ := result
      cases returned with
      | false => exact hsteps
      | true => exact ih (by omega) (inv.pass hsteps)
    · simp only [Ring.scan, if_neg hready]
      exact ⟨r, rfl, h⟩

/-- A read that starts with what it keeps ends with it. -/
theorem read {b : Buffer kind cap α} {limit : Nat}
    (inv : ReadInvariant b.ring.head (min (distance b.ring.tail b.ring.head) limit)
      Between Within)
    (hooks : Hooks α) (h : Between 0 [] b) :
    let (report, after) := b.readHooked limit hooks
    Ends b.ring.head Between Within report.ending (b.insideRead limit hooks) after := by
  have hscan := inv.scan hooks _ (Nat.zero_add _) h
  obtain ⟨hnoting, -⟩ := b.read_noting limit hooks
  rw [Ring.readLimit] at hnoting
  rw [hnoting] at hscan
  exact hscan

/-- What only speaks of the handles is kept when the head moves, too. -/
theorem read_of_handles {b : Buffer kind cap α} {limit : Nat}
    {Same : List (Moment kind cap α) → Option Handles → Prop}
    (inv : ReadInvariant b.ring.head (min (distance b.ring.tail b.ring.head) limit)
      (fun _ ms other => Same ms other.handles) (fun _ ms other => Same ms other.handles))
    (hooks : Hooks α) (h : Same [] b.handles) :
    Same (b.insideRead limit hooks) (b.readHooked limit hooks).2.handles := by
  have hends := inv.read hooks h
  generalize b.readHooked limit hooks = result at hends ⊢
  obtain ⟨⟨ending, deliveries, replies⟩, after⟩ := result
  cases ending with
  | finished n =>
    obtain ⟨r, -, hsame⟩ := hends
    exact hsame
  | failed k => exact hends

end ReadInvariant

end RingTransport
