/-
  Commits of slots that nobody claimed, on a whole buffer for many producers. Any slot number
  may be committed at any time: before it was ever claimed, twice, or late, when its message is
  long read. Main fact: whenever a read hands over a message, its slot was committed after it
  was claimed (`stray_commits_shielded`).

  What shields the message is that its claim marks the slot as claimed, so that no commit before
  it counts. That is kept for every number below the tail (`Shielded.ready`), also for those
  that were read: the next number on their slot marks it again.
-/
import RingTransport.Proofs.Ring.Accounting

namespace RingTransport

open RingTransport.Ring (ReadEnd)
open Buffer (Always Hooks Moment)

variable {kind : Kind} {cap : Capacity} {α : Type}

namespace Buffer

/-- The slot number that is committed at a moment. -/
def Moment.commit? : Moment kind cap α → Option Nat
  | .op _ (.commitIndex i) .done _ => some i
  | _ => none

/-- Whether the buffer is reset at a moment. -/
def Moment.isReset : Moment kind cap α → Bool
  | .served .reset _ => true
  | _ => false

/-- The moments after the last reset. -/
def sinceReset (ms : List (Moment kind cap α)) : List (Moment kind cap α) :=
  ms.foldl (fun kept m => if m.isReset then [] else kept ++ [m]) []

/-- Since the last reset a number was claimed once, and `since` is what came after that. -/
def Claimed (seq : Nat) (ms since : List (Moment kind cap α)) : Prop :=
  ∃ before claim, sinceReset ms = before ++ claim :: since ∧ claim.claim? = some seq ∧
    ∀ m ∈ before ++ since, m.claim? ≠ some seq

/-- After the claim of a number its slot was committed. -/
def CommittedSinceClaim (seq : Nat) (ms : List (Moment kind cap α)) : Prop :=
  ∃ since, Claimed seq ms since ∧ ∃ commit ∈ since, commit.commit? = some (seq % cap.size)

/-- A message that is handed over was committed after it was claimed. -/
def Shown (earlier : List (Moment kind cap α)) (m : Moment kind cap α) : Prop :=
  ∀ d, m.delivery? = some d → CommittedSinceClaim d.seq earlier

variable {ms since : List (Moment kind cap α)} {m : Moment kind cap α} {seq : Nat}

theorem sinceReset_snoc (h : m.isReset = false) :
    sinceReset (ms ++ [m]) = sinceReset ms ++ [m] := by
  rw [sinceReset, List.foldl_append, List.foldl_cons, List.foldl_nil, h]
  rfl

theorem sinceReset_reset (h : m.isReset = true) : sinceReset (ms ++ [m]) = [] := by
  rw [sinceReset, List.foldl_append, List.foldl_cons, List.foldl_nil, h]
  rfl

theorem Claimed.snoc (h : Claimed seq ms since) (hm : m.isReset = false)
    (hclaim : m.claim? ≠ some seq) : Claimed seq (ms ++ [m]) (since ++ [m]) := by
  obtain ⟨before, claim, hsplit, hseq, hother⟩ := h
  refine ⟨before, claim, ?_, hseq, fun other hmem => ?_⟩
  · rw [sinceReset_snoc hm, hsplit, List.append_assoc, List.cons_append]
  · rw [← List.append_assoc] at hmem
    rcases List.mem_append.1 hmem with hold | hnew
    · exact hother other hold
    · rw [List.mem_singleton.1 hnew]
      exact hclaim

theorem CommittedSinceClaim.snoc (h : CommittedSinceClaim seq ms) (hm : m.isReset = false)
    (hclaim : m.claim? ≠ some seq) : CommittedSinceClaim seq (ms ++ [m]) := by
  obtain ⟨since, hclaimed, commit, hmem, hcommit⟩ := h
  exact ⟨since ++ [m], hclaimed.snoc hm hclaim, commit, List.mem_append_left _ hmem, hcommit⟩

/-! ## The shield -/

/-- What the moments so far have to do with a ring: every number below the tail was claimed, no
other was, and a slot is ready for such a number only when it was committed after its claim. -/
structure Shielded (ms : List (Moment kind cap α)) (r : Ring kind cap α) : Prop where
  shown : Always Shown ms
  numbered : ∀ m ∈ sinceReset ms, ∀ seq, m.claim? = some seq → seq < r.tail
  claimed : ∀ seq < r.tail, ∃ since, Claimed seq ms since
  ready : ∀ seq < r.tail, r.markOf seq = .ready → CommittedSinceClaim seq ms

variable {r r' : Ring kind cap α} {b : Buffer kind cap α}

theorem shielded_ofSlots (contents : Vector α cap.size) :
    Shielded [] (.ofSlots contents : Ring kind cap α) where
  shown := always_nil _
  numbered := fun _ hm => absurd hm List.not_mem_nil
  claimed := nofun
  ready := nofun

/-- Slots may become free, and nothing else. -/
theorem Shielded.fewer (h : Shielded ms r) (htail : r'.tail = r.tail)
    (hmark : ∀ seq, r'.markOf seq = .ready → r.markOf seq = .ready) : Shielded ms r' where
  shown := h.shown
  numbered := fun m hm seq hseq => htail ▸ h.numbered m hm seq hseq
  claimed := fun seq hlt => h.claimed seq (htail ▸ hlt)
  ready := fun seq hlt hready => h.ready seq (htail ▸ hlt) (hmark seq hready)

/-- A moment that claims nothing, and after which a slot is ready only if it was or was just
committed. -/
theorem Shielded.snoc (h : Shielded ms r) (hm : m.isReset = false) (hclaim : m.claim? = none)
    (hshown : Shown ms m) (htail : r'.tail = r.tail)
    (hready : ∀ seq, r'.markOf seq = .ready →
      r.markOf seq = .ready ∨ m.commit? = some (seq % cap.size)) :
    Shielded (ms ++ [m]) r' where
  shown := h.shown.snoc hshown
  numbered := by
    intro other hmem seq hseq
    rw [sinceReset_snoc hm] at hmem
    rw [htail]
    rcases List.mem_append.1 hmem with hold | hnew
    · exact h.numbered other hold seq hseq
    · rw [List.mem_singleton.1 hnew, hclaim] at hseq
      exact absurd hseq nofun
  claimed := by
    intro seq hlt
    obtain ⟨since, hclaimed⟩ := h.claimed seq (htail ▸ hlt)
    exact ⟨since ++ [m], hclaimed.snoc hm (hclaim ▸ nofun)⟩
  ready := by
    intro seq hlt hmark
    rw [htail] at hlt
    rcases hready seq hmark with hold | hcommit
    · exact (h.ready seq hlt hold).snoc hm (hclaim ▸ nofun)
    · obtain ⟨since, hclaimed⟩ := h.claimed seq hlt
      exact ⟨since ++ [m], hclaimed.snoc hm (hclaim ▸ nofun), m,
        List.mem_append_right _ (List.mem_singleton_self m), hcommit⟩

/-- A moment at which no message is handed over, nothing claimed and nothing changed. -/
theorem Shielded.still (h : Shielded ms r) (hm : m.isReset = false) (hclaim : m.claim? = none)
    (hdelivery : m.delivery? = none) (htail : r'.tail = r.tail)
    (hmark : ∀ seq, r'.markOf seq = r.markOf seq) : Shielded (ms ++ [m]) r' :=
  h.snoc hm hclaim (fun _ hd => absurd (hdelivery.symm.trans hd) nofun) htail
    fun seq hready => .inl (hmark seq ▸ hready)

/-- A claim of the next number marks its slot as claimed, so a commit from before it is gone. -/
theorem Shielded.claim {r : Ring .manyProducers cap α} {ms : List (Moment .manyProducers cap α)}
    {m : Moment .manyProducers cap α} (h : Shielded ms r) (hm : m.isReset = false)
    (hclaim : m.claim? = some r.tail) (hdelivery : m.delivery? = none) :
    Shielded (ms ++ [m]) r.claimNext := by
  have htail : r.claimNext.tail = r.tail + 1 := r.tail_claimNext
  have hother : ∀ {seq}, seq < r.tail → m.claim? ≠ some seq := fun hlt heq =>
    absurd (Option.some.inj (hclaim.symm.trans heq)) (Nat.ne_of_gt hlt)
  refine ⟨h.shown.snoc fun _ hd => absurd (hdelivery.symm.trans hd) nofun, ?_, ?_, ?_⟩
  · intro other hmem seq hseq
    rw [sinceReset_snoc hm] at hmem
    rw [htail]
    rcases List.mem_append.1 hmem with hold | hnew
    · exact Nat.lt_succ_of_lt (h.numbered other hold seq hseq)
    · rw [List.mem_singleton.1 hnew, hclaim] at hseq
      rw [← Option.some.inj hseq]
      exact Nat.lt_succ_self _
  · intro seq hlt
    rw [htail] at hlt
    rcases Nat.eq_or_lt_of_le (Nat.le_of_lt_succ hlt) with rfl | hlt
    · refine ⟨[], sinceReset ms, m, sinceReset_snoc hm, hclaim, fun other hmem heq => ?_⟩
      rw [List.append_nil] at hmem
      exact Nat.lt_irrefl _ (h.numbered other hmem _ heq)
    · obtain ⟨since, hclaimed⟩ := h.claimed seq hlt
      exact ⟨since ++ [m], hclaimed.snoc hm (hother hlt)⟩
  · intro seq hlt hmark
    rw [htail] at hlt
    have hunclaimed : cap.indexOf r.tail ≠ cap.indexOf seq := fun heq => by
      have hclaimed : r.claimNext.markOf seq = .claimed :=
        (Ring.markOf_mark ..).trans (if_pos heq)
      rw [hclaimed] at hmark
      exact Mark.noConfusion hmark
    have hmark' : r.markOf seq = .ready := by
      rw [Ring.claimNext, Ring.markClaimed, Ring.markOf_mark, if_neg hunclaimed] at hmark
      exact hmark
    rcases Nat.eq_or_lt_of_le (Nat.le_of_lt_succ hlt) with rfl | hlt
    · exact absurd rfl hunclaimed
    · exact (h.ready seq hlt hmark').snoc hm (hother hlt)

theorem Shielded.perform {r : Ring .manyProducers cap α}
    {ms : List (Moment .manyProducers cap α)} (h : Shielded ms r) (o : Op α) :
    let b : Buffer .manyProducers cap α := ⟨r, none⟩
    Shielded (ms ++ [.op b o (b.perform o).1 (b.perform o).2]) (b.perform o).2.ring := by
  obtain ⟨reply, r', hraw, heffect⟩ := performRaw_effect r o
  simp only [Buffer.perform, hraw]
  cases heffect with
  | claims => exact h.claim rfl rfl rfl
  | full => exact h.still rfl rfl rfl rfl fun _ => rfl
  | writes i x => exact h.still rfl rfl rfl rfl fun _ => rfl
  | peeks i => exact h.still rfl rfl rfl rfl fun _ => rfl
  | commits i =>
    have hshown : Shown ms (.op ⟨r, none⟩ (.commitIndex i) .done ⟨r.commit i, none⟩) :=
      fun d hd => absurd hd.symm (Option.some_ne_none d)
    refine h.snoc rfl rfl hshown rfl fun seq hready => ?_
    rw [Ring.markOf_commit] at hready
    split at hready
    · next heq => exact .inr (by rw [← Capacity.indexOf_val, ← heq]; rfl)
    · exact .inl hready
  | dumps => exact h.still rfl rfl rfl rfl fun _ => rfl
  | misses | misuses => exact h.still rfl (by cases o <;> rfl) rfl rfl fun _ => rfl

/-- The reader unmarks a slot. -/
theorem Shielded.clear (h : Shielded ms r) (i : Fin cap.size) : Shielded ms (r.mark i .empty) := by
  refine h.fewer rfl fun seq hready => ?_
  rw [Ring.markOf_mark] at hready
  split at hready
  · exact Mark.noConfusion hready
  · exact hready

theorem Shielded.reset (h : Shielded ms r) (b : Buffer kind cap α) :
    Shielded (ms ++ [.served .reset b]) r.reset where
  shown := h.shown.snoc nofun
  numbered := by
    rw [sinceReset_reset rfl]
    exact fun _ hm => absurd hm List.not_mem_nil
  claimed := nofun
  ready := nofun

/-! ## Reads -/

/-- The shield in the middle of a read. -/
structure Shields (start bound handed : Nat) (ms : List (Moment kind cap α))
    (b : Buffer kind cap α) : Prop where
  underway : Account.Underway start bound handed ms b
  shielded : Shielded ms b.ring

theorem readShields (start bound : Nat) (past : List (Moment .manyProducers cap α)) :
    ReadInvariant start bound
      (fun count ms b => Shields start bound count (past ++ ms) b)
      (fun count ms b => Shields start bound (count + 1) (past ++ ms) b) where
  hand := by
    intro count ms b hlt h hready
    have hbelow : start + count < b.ring.tail := by
      have hle : start + bound ≤ b.ring.tail := h.underway.le_tail
      omega
    rw [← List.append_assoc]
    refine ⟨h.underway.hand hlt, h.shielded.snoc rfl rfl ?_ rfl fun _ => .inl⟩
    intro d hd
    obtain rfl := Option.some.inj hd
    exact h.shielded.ready _ hbelow hready
  perform := by
    intro count ms b o h
    have hnext := h.underway.perform o
    obtain ⟨r, handles⟩ := b
    obtain rfl : handles = none := h.underway.whole
    rw [← List.append_assoc]
    exact ⟨hnext, h.shielded.perform o⟩
  pass := fun h => ⟨h.underway.mark _ _, h.shielded.clear _⟩

/-- The shield when nothing is under way. -/
structure Safe (ms : List (Moment kind cap α)) (b : Buffer kind cap α) : Prop where
  settled : Account.Settled ms b
  shielded : Shielded ms b.ring

theorem shielded_ended {start bound : Nat} {past inside : List (Moment kind cap α)}
    {ending : ReadEnd} {after : Buffer kind cap α}
    (h : ReadInvariant.Ends start
      (fun count ms b => Shields start bound count (past ++ ms) b)
      (fun count ms b => Shields start bound (count + 1) (past ++ ms) b) ending inside after) :
    Shielded (past ++ inside ++ [.ended ending after]) after.ring := by
  cases ending with
  | finished n =>
    obtain ⟨r, hring, hr⟩ := h
    rw [hring]
    exact hr.shielded.still rfl rfl rfl rfl fun _ => rfl
  | failed k =>
    have hr : Shields start bound (k + 1) (past ++ inside) after := h
    exact hr.shielded.still rfl rfl rfl rfl fun _ => rfl

theorem Safe.read {ms : List (Moment .manyProducers cap α)} {b : Buffer .manyProducers cap α}
    (h : Safe ms b) (limit : Nat) (hooks : Hooks α) :
    Shielded (ms ++ b.momentsOf (.read limit hooks)) (b.readHooked limit hooks).2.ring := by
  have hbegan : Shielded (ms ++ [.began limit b]) b.ring :=
    h.shielded.still rfl rfl rfl rfl fun _ => rfl
  have hends := (readShields _ _ (ms ++ [.began limit b])).read hooks
    (by rw [List.append_nil]; exact ⟨h.settled.begin limit, hbegan⟩)
  rw [append_momentsOf_read]
  exact shielded_ended hends

theorem Safe.serve {ms : List (Moment .manyProducers cap α)} {b : Buffer .manyProducers cap α}
    (h : Safe ms b) (use : RawUse α) :
    Safe (ms ++ b.momentsOf use.request) (b.serve use.request).2 := by
  refine ⟨h.settled.serve use, ?_⟩
  obtain ⟨r, handles⟩ := b
  obtain rfl : handles = none := h.settled.whole
  cases use with
  | op o => exact h.shielded.perform o
  | reset => exact h.shielded.reset _
  | info => exact h.shielded.still rfl rfl rfl rfl fun _ => rfl
  | read limit hooks => exact h.read limit hooks

end Buffer

/-- Whatever is done with a whole buffer for many producers by raw slot numbers, also in the
callbacks of its reads, with slots committed that nobody claimed, or claimed and committed
twice or late, with callbacks that fail and with resets: whenever a message is handed over, its
number was claimed once since the last reset, and its slot was committed after that claim. -/
theorem stray_commits_shielded {cap : Capacity} {α : Type} (contents : Vector α cap.size)
    (uses : List (RawUse α)) :
    Always Buffer.Shown ((Buffer.ofRing (.ofSlots contents : Ring .manyProducers cap α)).moments
      (uses.map RawUse.request)) := by
  obtain ⟨after, hsafe⟩ := Buffer.moments_induct RawUse.request (I := Buffer.Safe)
    (fun _ _ use h => h.serve use)
    ⟨Account.settled_ofSlots contents, Buffer.shielded_ofSlots contents⟩ uses
  exact hsafe.shielded.shown

end RingTransport
