/-
  Commits that come while a read is under way, in the callbacks of that read. The read takes the
  tail once, when it begins, but each mark only when it comes to its slot. Main fact: besides
  what was ready when it began, a read hands over every message that was committed before the
  read came to it; the others wait for the next read, and none is lost (`late_commits_seen`).

  So a read does not give what it would have given if its callbacks had committed nothing:
  it goes on as soon as they commit the first message it would have stopped at.
-/
import RingTransport.Proofs.Ring.Orderly

namespace RingTransport

open RingTransport.Ring (Delivery)
open Buffer (HookStep Hooks ReadReport)

variable {kind : Kind} {cap : Capacity} {α : Type}

/-! ## What a read comes to see -/

/-- The messages from position `count` on that are ready, or `late` by their position, without a
gap and at most `left` of them. -/
def Ring.seenFrom (r : Ring kind cap α) (late : Nat → List Nat) :
    (left count : Nat) → List (Nat × α)
  | 0, _ => []
  | left + 1, count =>
    let seq := r.head + count
    if r.markOf seq = .ready ∨ seq ∈ late count then
      (seq, r.slotOf seq) :: r.seenFrom late left (count + 1)
    else []

/-- The number that a step commits through one of the given guards. -/
def Buffer.HookStep.commits? (h : Handles) : HookStep α → Option Nat
  | .op (.commit id) => (h.guard? id).map (·.seq)
  | _ => none

/-- Hooks that do nothing but commit claims. -/
def Buffer.Hooks.OnlyCommit (hooks : Hooks α) : Prop :=
  ∀ position, ∀ step ∈ hooks.at position, ∃ id, step = .op (.commit id)

/-- The numbers that the callbacks before a position commit. -/
def Buffer.Hooks.committedBefore (hooks : Hooks α) (h : Handles) (position : Nat) : List Nat :=
  (List.range position).flatMap fun earlier => (hooks.at earlier).filterMap (HookStep.commits? h)

theorem Buffer.Hooks.mem_committedBefore_succ (hooks : Hooks α) (h : Handles)
    (position s : Nat) :
    s ∈ hooks.committedBefore h (position + 1) ↔ s ∈ hooks.committedBefore h position ∨
      s ∈ (hooks.at position).filterMap (HookStep.commits? h) := by
  rw [committedBefore, List.range_succ, List.flatMap_append, List.mem_append,
    List.flatMap_singleton]
  rfl

namespace Ring

variable {r : Ring kind cap α}

theorem readyFrom_setHead (n left seq : Nat) :
    (r.setHead n).readyFrom left seq = r.readyFrom left seq := by
  induction left generalizing seq with
  | zero => rfl
  | succ left ih => simp only [readyFrom, markOf_setHead, slotOf_setHead, ih]

/-- When nothing is late, only what is ready is seen. -/
theorem seenFrom_nil {late : Nat → List Nat} (hlate : ∀ count, late count = []) (left count : Nat) :
    r.seenFrom late left count = r.readyFrom left (r.head + count) := by
  induction left generalizing count with
  | zero => rfl
  | succ left ih =>
    simp only [seenFrom, readyFrom, hlate, List.not_mem_nil, or_false]
    split
    · rw [ih]
      rfl
    · rfl

/-- More is seen than what is ready exactly if the first message that is not ready is late. -/
theorem seenFrom_eq_readyFrom (late : Nat → List Nat) (left count : Nat) :
    r.seenFrom late left count = r.readyFrom left (r.head + count) ↔
      ¬ ((r.readyFrom left (r.head + count)).length < left ∧
        r.head + (count + (r.readyFrom left (r.head + count)).length) ∈
          late (count + (r.readyFrom left (r.head + count)).length)) := by
  induction left generalizing count with
  | zero => simp [seenFrom, readyFrom]
  | succ left ih =>
    by_cases hready : r.markOf (r.head + count) = .ready
    · have hnext := ih (count + 1)
      rw [← Nat.add_assoc] at hnext
      simp only [seenFrom, readyFrom, hready, true_or, if_true, List.length_cons,
        Nat.add_lt_add_iff_right, List.cons.injEq, true_and]
      rw [hnext, Nat.add_assoc count 1, Nat.add_comm 1]
    · by_cases hlate : r.head + count ∈ late count
      · simp [seenFrom, readyFrom, hready, hlate]
      · simp [seenFrom, readyFrom, hready, hlate]

end Ring

/-! ## Commits inside a read -/

theorem Handles.guard?_dropGuard (h : Handles) (id other : Nat) :
    (h.dropGuard id).guard? other = if other = id then none else h.guard? other := by
  rw [guard?, dropGuard, List.find?_filter]
  split
  · next heq =>
    rw [List.find?_eq_none]
    intro g _
    simp [heq]
  · next hne =>
    show h.guards.find? _ = h.guards.find? _
    congr 1
    funext g
    by_cases hid : g.id = other <;> simp [hid, hne]

/-- A ring and its handles in the middle of a read, after numbers were committed that were not
ready when the ring was `r₀` and its handles `h₀`. -/
structure Lately (r₀ : Ring kind cap α) (h₀ : Handles) (late : Nat → Prop) (start next : Nat)
    (r : Ring kind cap α) (h : Handles) : Prop where
  orderly : Orderly start next r h
  apart : h₀.Apart
  tail_eq : r.tail = r₀.tail
  slots_eq : r.slots = r₀.slots
  ready : ∀ s, next ≤ s → s < r.tail → (r.markOf s = .ready ↔ r₀.markOf s = .ready ∨ late s)
  guards : ∀ id g, h.guard? id = some g ↔ h₀.guard? id = some g ∧ ¬ late g.seq

namespace Lately

variable {r₀ r : Ring kind cap α} {h₀ h : Handles} {late late' : Nat → Prop} {start next : Nat}

theorem congr (hl : Lately r₀ h₀ late start next r h) (hsame : ∀ s, late s ↔ late' s) :
    Lately r₀ h₀ late' start next r h where
  orderly := hl.orderly
  apart := hl.apart
  tail_eq := hl.tail_eq
  slots_eq := hl.slots_eq
  ready := fun s hle hlt => by rw [hl.ready s hle hlt, hsame]
  guards := fun id g => by rw [hl.guards id g, hsame]

/-- A commit through one of the guards, if nobody was faster. -/
theorem commit (hl : Lately r₀ h₀ late start next r h) (id : Nat) :
    ∃ reply r' h', Buffer.performSplit h r (.commit id) = (reply, r', h') ∧
      reply.isFailure = false ∧
      Lately r₀ h₀ (fun s => late s ∨ (h₀.guard? id).map (·.seq) = some s) start next r' h' := by
  cases hid : h.guard? id with
  | none =>
    refine ⟨.misuse, r, h, by rw [Buffer.performSplit, hid], rfl, hl.congr fun s => ?_⟩
    refine ⟨.inl, fun hs => hs.elim (fun hlate => hlate) fun hnew => ?_⟩
    obtain ⟨g, hg, rfl⟩ := Option.map_eq_some_iff.1 hnew
    by_contra hearly
    have hlive := (hl.guards id g).2 ⟨hg, hearly⟩
    rw [hid] at hlive
    exact absurd hlive.symm (Option.some_ne_none g)
  | some g =>
    obtain ⟨hg, hearly⟩ := (hl.guards id g).1 hid
    obtain ⟨hle, hlt, -⟩ := hl.orderly.held g (Handles.mem_of_guard? hid).1
    refine ⟨.done, r.commit (cap.indexOf g.seq), h.dropGuard id,
      by rw [Buffer.performSplit, hid], rfl, ?_⟩
    have hnew : ∀ s, (late s ∨ (h₀.guard? id).map (·.seq) = some s) ↔ late s ∨ g.seq = s := by
      intro s
      rw [hg, Option.map_some, Option.some_inj]
    refine ⟨hl.orderly.split (.commits hid), hl.apart, hl.tail_eq, hl.slots_eq, ?_, ?_⟩
    · intro s hs hs'
      rw [hnew, Ring.markOf_commit]
      by_cases heq : g.seq = s
      · simp [heq]
      · rw [if_neg fun hslot => heq (hl.orderly.unique hle hlt hs hs' hslot), hl.ready s hs hs']
        simp [heq]
    · intro other g'
      rw [hnew, Handles.guard?_dropGuard]
      by_cases hother : other = id
      · subst hother
        rw [if_pos rfl, hg, Option.some_inj]
        constructor
        · exact fun hnone => absurd hnone.symm (Option.some_ne_none g')
        · exact fun h' => absurd (.inr (h'.1 ▸ rfl)) h'.2
      · rw [if_neg hother, hl.guards]
        refine and_congr_right fun hg' => not_congr ⟨.inl, fun hs => hs.resolve_right fun heq => ?_⟩
        obtain ⟨hmem, hgid⟩ := Handles.mem_of_guard? hg
        obtain ⟨hmem', hgid'⟩ := Handles.mem_of_guard? hg'
        have hsame : g = g' := List.inj_on_of_nodup_map hl.apart.seqs hmem hmem' heq
        exact hother (by rw [← hgid', ← hgid, hsame])

theorem runSteps (hl : Lately r₀ h₀ late start next r h) {steps : List (HookStep α)}
    (honly : ∀ step ∈ steps, ∃ id, step = .op (.commit id)) (position : Nat)
    (deliveries : List (Delivery α)) (replies : List (Nat × Reply α)) :
    ∃ r' h' replies', Buffer.runSteps position steps r ⟨some h, deliveries, replies⟩ =
        (true, r', ⟨some h', deliveries, replies'⟩) ∧
      Lately r₀ h₀ (fun s => late s ∨ s ∈ steps.filterMap (HookStep.commits? h₀)) start next
        r' h' := by
  induction steps generalizing r h late replies with
  | nil => exact ⟨r, h, replies, rfl, hl.congr fun s => by simp⟩
  | cons step steps ih =>
    obtain ⟨id, rfl⟩ := honly step (List.mem_cons_self ..)
    obtain ⟨reply, r₁, h₁, hperform, hok, hl₁⟩ := hl.commit id
    obtain ⟨r', h', replies', hsteps, hl'⟩ :=
      ih hl₁ (fun step hmem => honly step (List.mem_cons_of_mem _ hmem))
        ((position, reply) :: replies)
    refine ⟨r', h', replies', ?_, hl'.congr fun s => ?_⟩
    · simp only [Buffer.runSteps, Buffer.perform, hperform, hok, Bool.false_eq_true, if_false,
        hsteps]
    · rw [List.mem_filterMap, List.mem_filterMap, or_assoc]
      simp [HookStep.commits?]

/-- The message at the front is passed. -/
theorem pass (hl : Lately r₀ h₀ late start next r h) (hlt : next < r.tail)
    (hready : r.markOf next = .ready) :
    Lately r₀ h₀ late start (next + 1) (r.mark (cap.indexOf next) .empty) h where
  orderly := hl.orderly.pass hlt hready
  apart := hl.apart
  tail_eq := hl.tail_eq
  slots_eq := hl.slots_eq
  ready := by
    intro s hs hs'
    have hother : cap.indexOf next ≠ cap.indexOf s := fun heq =>
      Nat.ne_of_lt hs (hl.orderly.unique (Nat.le_refl _) hlt (Nat.le_of_succ_le hs) hs' heq)
    rw [Ring.markOf_mark, if_neg hother]
    exact hl.ready s (Nat.le_of_succ_le hs) hs'
  guards := hl.guards

/-- One message: its callback commits what it commits, and the message is passed. -/
theorem hand {hooks : Hooks α} (honly : hooks.OnlyCommit) {count : Nat}
    (hl : Lately r₀ h₀ (· ∈ hooks.committedBefore h₀ count) r₀.head (r₀.head + count) r h)
    (hbelow : r₀.head + count < r.tail) (hready : r.markOf (r₀.head + count) = .ready)
    {d : Delivery α} (hd : d.position = count) (deliveries : List (Delivery α))
    (replies : List (Nat × Reply α)) :
    ∃ r' h' replies', Buffer.hooked hooks d r ⟨some h, deliveries, replies⟩ =
        (true, r', ⟨some h', d :: deliveries, replies'⟩) ∧
      Lately r₀ h₀ (· ∈ hooks.committedBefore h₀ (count + 1)) r₀.head (r₀.head + (count + 1))
        (r'.mark (cap.indexOf (r₀.head + count)) .empty) h' := by
  subst hd
  obtain ⟨r', h', replies', hsteps, hl'⟩ :=
    hl.runSteps (honly d.position) d.position (d :: deliveries) replies
  have hbelow' : r₀.head + d.position < r'.tail := by
    rw [hl'.tail_eq, ← hl.tail_eq]
    exact hbelow
  have hready' : r'.markOf (r₀.head + d.position) = .ready := by
    rw [hl'.ready _ (Nat.le_refl _) hbelow', ← or_assoc]
    exact .inl ((hl.ready _ (Nat.le_refl _) hbelow).1 hready)
  exact ⟨r', h', replies', hsteps, (hl'.pass hbelow' hready').congr fun s =>
    (hooks.mem_committedBefore_succ h₀ d.position s).symm⟩

theorem slotOf_eq (hl : Lately r₀ h₀ late start next r h) (s : Nat) : r.slotOf s = r₀.slotOf s := by
  simp only [Ring.slotOf, hl.slots_eq]

/-- What is ready now was ready from the start or is late. -/
theorem readyFrom_eq (hl : Lately r₀ h₀ late start next r h) {numbers : List Nat}
    (hlate : ∀ s, late s ↔ s ∈ numbers) (left : Nat) {count : Nat} (hle : next ≤ r₀.head + count)
    (hlt : r₀.head + count + left ≤ r.tail) :
    r.readyFrom left (r₀.head + count) = r₀.seenFrom (fun _ => numbers) left count := by
  induction left generalizing count with
  | zero => rfl
  | succ left ih =>
    have hrest := @ih (count + 1) (by omega) (by omega)
    rw [← Nat.add_assoc] at hrest
    simp only [Ring.readyFrom, Ring.seenFrom, hl.ready (r₀.head + count) hle (by omega), hlate,
      hl.slotOf_eq, hrest]

/-- A read whose callbacks only commit goes through the messages that are ready when it comes to
them. -/
theorem scan {hooks : Hooks α} (honly : hooks.OnlyCommit) (left : Nat) {count : Nat}
    (hl : Lately r₀ h₀ (· ∈ hooks.committedBefore h₀ count) r₀.head (r₀.head + count) r h)
    (hlt : r₀.head + count + left ≤ r.tail)
    (deliveries : List (Delivery α)) (replies : List (Nat × Reply α)) :
    ∃ (new : List (Delivery α)) (r' : Ring kind cap α) (h' : Handles)
      (replies' : List (Nat × Reply α)),
      let seen := count + new.length
      Ring.scan (Buffer.hooked hooks) r₀.head left count r ⟨some h, deliveries, replies⟩ =
        (.finished seen, r'.setHead (r₀.head + seen),
          ⟨some h', new.reverse ++ deliveries, replies'⟩) ∧
      new.map (fun d => (d.seq, d.message)) =
        r₀.seenFrom (hooks.committedBefore h₀) left count ∧
      Lately r₀ h₀ (· ∈ hooks.committedBefore h₀ seen) r₀.head (r₀.head + seen) r' h' ∧
      r₀.head + seen ≤ r'.tail := by
  induction left generalizing count r h deliveries replies with
  | zero => exact ⟨[], r, h, replies, rfl, rfl, hl, hlt⟩
  | succ left ih =>
    have hbelow : r₀.head + count < r.tail := by omega
    have hiff := hl.ready (r₀.head + count) (Nat.le_refl _) hbelow
    by_cases hready : r.markOf (r₀.head + count) = .ready
    · obtain ⟨d, hd⟩ : ∃ d : Delivery α,
        ⟨count, r₀.head + count, r.slotOf (r₀.head + count)⟩ = d := ⟨_, rfl⟩
      obtain ⟨r₁, h₁, replies₁, hvisit, hl₁⟩ :=
        hl.hand honly hbelow hready (hd ▸ rfl : d.position = count) deliveries replies
      obtain ⟨new, r', h', replies', hscan, hnew, hl', hle⟩ :=
        ih hl₁ (by rw [hl₁.tail_eq, ← hl.tail_eq]; omega) (d :: deliveries) replies₁
      have hseen : count + (d :: new).length = count + 1 + new.length := by
        rw [List.length_cons]
        omega
      refine ⟨d :: new, r', h', replies', ?_⟩
      rw [hseen]
      refine ⟨?_, ?_, hl', hle⟩
      · rw [List.reverse_cons, List.append_assoc, List.singleton_append, ← hscan]
        simp only [Ring.scan, if_pos hready, hd, hvisit]
      · rw [Ring.seenFrom, if_pos (hiff.1 hready), List.map_cons, hnew, ← hd, hl.slotOf_eq]
    · refine ⟨[], r, h, replies, ?_, ?_, hl, Nat.le_of_lt hbelow⟩
      · rw [Ring.scan, if_neg hready]
        rfl
      · rw [Ring.seenFrom, if_neg (hiff.not.1 hready)]
        rfl

end Lately

namespace Buffer

variable {r : Ring kind cap α} {h : Handles}

theorem lately_nil (hb : InOrder ⟨r, some h⟩) :
    Lately r h (· ∈ Hooks.committedBefore ([] : Hooks α) h 0) r.head (r.head + 0) r h where
  orderly := hb
  apart := hb.apart
  tail_eq := rfl
  slots_eq := rfl
  ready := by simp [Hooks.committedBefore]
  guards := by simp [Hooks.committedBefore]

/-- What a read whose callbacks only commit hands over, and what it leaves. -/
theorem InOrder.read_onlyCommit (hb : InOrder ⟨r, some h⟩) (limit : Nat) {hooks : Hooks α}
    (honly : hooks.OnlyCommit) :
    let (report, after) := readHooked ⟨r, some h⟩ limit hooks
    let n := report.numbered.length
    report.ending = .finished n ∧
      report.numbered = r.seenFrom (hooks.committedBefore h) (min limit r.len) 0 ∧
      ∃ r' h', after = ⟨r'.setHead (r.head + n), some h'⟩ ∧ r.head + n ≤ r'.tail ∧
        Lately r h (· ∈ hooks.committedBefore h n) r.head (r.head + n) r' h' := by
  have hle : r.head ≤ r.tail := hb.next_le
  have hbound : r.head + 0 + min r.len limit ≤ r.tail := by
    rw [Ring.len, distance_of_le hle]
    omega
  obtain ⟨new, r', h', replies, hscan, hnew, hl, hle'⟩ :=
    Lately.scan honly (min r.len limit) (lately_nil hb) hbound [] []
  have hread : readHooked ⟨r, some h⟩ limit hooks =
      (⟨.finished (0 + new.length), new, replies.reverse⟩,
        ⟨r'.setHead (r.head + (0 + new.length)), some h'⟩) := by
    simp only [readHooked, Ring.readLimit]
    rw [show distance r.tail r.head = r.len from rfl, hscan]
    simp
  rw [hread, Nat.min_comm]
  rw [Nat.zero_add] at hl hle' ⊢
  have hlength : (ReadReport.mk (.finished new.length) new replies.reverse).numbered.length =
      new.length := List.length_map ..
  refine ⟨by rw [hlength], hnew, r', h', ?_⟩
  rw [hlength]
  exact ⟨rfl, hle', hl⟩

theorem onlyCommit_nil : Hooks.OnlyCommit ([] : Hooks α) :=
  fun _ _ hmem => absurd hmem List.not_mem_nil

/-- A read whose callbacks do nothing hands over what is ready without a gap. -/
theorem InOrder.read_quiet (hb : InOrder ⟨r, some h⟩) (limit : Nat) :
    (readHooked ⟨r, some h⟩ limit []).1.numbered = r.readyFrom (min limit r.len) r.head := by
  have hnumbered : (readHooked ⟨r, some h⟩ limit []).1.numbered =
      r.seenFrom (Hooks.committedBefore [] h) (min limit r.len) 0 :=
    (hb.read_onlyCommit limit onlyCommit_nil).2.1
  have hlate (count : Nat) : Hooks.committedBefore ([] : Hooks α) h count = [] := by
    simp [Hooks.committedBefore, Hooks.at]
  rw [hnumbered, Ring.seenFrom_nil hlate]
  rfl

end Buffer

/-- A read of a split buffer of either kind, in any state that it can come to, whose callbacks
do nothing but commit claims. If they did nothing it would hand over the messages that are
ready without a gap, up to its limit. It hands over more: every message that was ready when it
began or was committed by a callback before it came to it, as far as there is no gap. The two
are the same unless a callback before it commits the first message that was not ready. The read
after it goes on from there, with all that was committed meanwhile. -/
theorem late_commits_seen {kind : Kind} {cap : Capacity} {α : Type} {b : Buffer kind cap α}
    (hb : b.Reachable) {h : Handles} (hsplit : b.handles = some h) (limit : Nat)
    {hooks : Hooks α} (honly : hooks.OnlyCommit) :
    let left := min limit b.ring.len
    let quiet := b.ring.readyFrom left b.ring.head
    let (report, after) := b.readHooked limit hooks
    let n := report.numbered.length
    (b.readHooked limit []).1.numbered = quiet ∧
    report.ending = .finished n ∧
    report.numbered = b.ring.seenFrom (hooks.committedBefore h) left 0 ∧
    (report.numbered = quiet ↔ ¬ (quiet.length < left ∧
      b.ring.head + quiet.length ∈ hooks.committedBefore h quiet.length)) ∧
    ∀ later, (after.readHooked later []).1.numbered =
      b.ring.seenFrom (fun _ => hooks.committedBefore h n) (min later (b.ring.len - n)) n := by
  obtain ⟨r, handles⟩ := b
  obtain rfl : handles = some h := hsplit
  have hin := hb.inOrder
  have hread := hin.read_onlyCommit limit honly
  generalize Buffer.readHooked ⟨r, some h⟩ limit hooks = result at hread ⊢
  obtain ⟨report, after⟩ := result
  obtain ⟨hending, hnumbered, r', h', rfl, hle, hl⟩ := hread
  refine ⟨hin.read_quiet limit, hending, hnumbered, ?_, fun later => ?_⟩
  · rw [hnumbered]
    have hsame := r.seenFrom_eq_readyFrom (hooks.committedBefore h) (min limit r.len) 0
    rw [Nat.add_zero] at hsame
    simpa only [Nat.zero_add] using hsame
  · obtain ⟨n, hn⟩ : ∃ n, report.numbered.length = n := ⟨_, rfl⟩
    rw [hn] at hle hl ⊢
    have hafter : Buffer.InOrder ⟨r'.setHead (r.head + n), some h'⟩ :=
      Buffer.inOrder_of_orderly hl.orderly.finish
    have hlen : (r'.setHead (r.head + n)).len = r.len - n := by
      have hhead : r.head ≤ r.tail := hin.next_le
      rw [Ring.len, Ring.len, Ring.tail_setHead, Ring.head_setHead, distance_of_le hle,
        distance_of_le hhead, hl.tail_eq]
      omega
    rw [hafter.read_quiet later, hlen]
    have hroom : r.head + n + min later (r.len - n) ≤ r'.tail := by
      have htail := hl.tail_eq
      have hlen : r.len = r.tail - r.head := distance_of_le hin.next_le
      omega
    rw [Ring.readyFrom_setHead]
    exact hl.readyFrom_eq (fun _ => Iff.rfl) _ (Nat.le_refl _) hroom

/-- A buffer with its first two slots claimed: 10 is committed, and 11 is not yet. -/
def oneCommitted (cap : Capacity) : Buffer .manyProducers cap Nat :=
  (Buffer.ofRing (.ofSlots (.replicate _ 0))).split.2.after
    ([.op (.claim 0), .op (.claim 0), .op (.set 0 10), .op (.set 1 11), .op (.commit 0)].map
      Use.request)

/-- The callback for 10 commits 11. -/
def commitsNext : Hooks Nat := [(0, [.op (.commit 1)])]

theorem onlyCommit_commitsNext : commitsNext.OnlyCommit := by
  intro position step hmem
  refine ⟨1, ?_⟩
  by_cases hzero : position = 0
  · subst hzero
    exact List.mem_singleton.1 hmem
  · have hnone : commitsNext.at position = [] := by
      simp [commitsNext, Hooks.at, Ne.symm hzero]
    rw [hnone] at hmem
    exact absurd hmem List.not_mem_nil

theorem commitsNext_read_on :
    (oneCommitted ⟨2, rfl⟩).Reachable ∧ commitsNext.OnlyCommit ∧
      ((oneCommitted ⟨2, rfl⟩).readHooked 2 commitsNext).1.numbered ≠
        ((oneCommitted ⟨2, rfl⟩).readHooked 2 []).1.numbered := by
  have hreachable : (oneCommitted ⟨2, rfl⟩).Reachable := Buffer.reachable_uses _ _
  have hsplit : (oneCommitted ⟨2, rfl⟩).handles = some ⟨[0], 1, [⟨1, 0, 1⟩], 2, 2⟩ := by decide
  obtain ⟨hquiet, -, -, hiff, -⟩ :=
    late_commits_seen hreachable hsplit 2 onlyCommit_commitsNext
  refine ⟨hreachable, onlyCommit_commitsNext, fun hsame => ?_⟩
  rw [hquiet] at hsame
  exact hiff.1 hsame (by decide)

/-- If its callbacks did nothing the read would hand over 10 and leave 11 to the next one. The
callback for 10 commits 11, and the same read hands over both. -/
theorem late_commit_not_deferred :
    ((oneCommitted ⟨2, rfl⟩).readHooked Ring.noLimit []).1.numbered = [(0, 10)] ∧
      ((oneCommitted ⟨2, rfl⟩).readHooked Ring.noLimit commitsNext).1.numbered =
        [(0, 10), (1, 11)] ∧
      (((oneCommitted ⟨2, rfl⟩).readHooked Ring.noLimit commitsNext).2.readHooked
        Ring.noLimit []).1.numbered = [] := by
  decide

end RingTransport
