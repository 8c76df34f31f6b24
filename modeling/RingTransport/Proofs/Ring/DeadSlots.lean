/-
  Claimed numbers of a split buffer that nobody will ever commit: they are not ready, and no
  guard holds them (`Buffer.Dead`). Main fact: what makes numbers dead, operation by operation
  and read by read, and that from then on the number stays dead, no message from it on is
  handed over, and no number a lap after it is claimed (`dead_slots_stall`).

  An operation or a read changes the deserted numbers by exactly the ones that it abandons,
  and a read besides by the ones that it passed (`Orderly.deserted_split`, `readTracks`). The
  head never gets past a deserted number, and claims stay within a lap of the head.
-/
import RingTransport.Proofs.Ring.Orderly

namespace RingTransport

open RingTransport.Ring (Delivery ReadEnd)
open Buffer (Always Hooks Moment Request)

variable {kind : Kind} {cap : Capacity} {α : Type}

/-! ## Deserted numbers -/

/-- A claimed number that is not ready, and that no guard can commit. -/
structure Deserted (r : Ring kind cap α) (h : Handles) (s : Nat) : Prop where
  lt_tail : s < r.tail
  unready : r.markOf s ≠ .ready
  unheld : ∀ g ∈ h.guards, g.seq ≠ s

variable {start next s t : Nat} {r r' : Ring kind cap α} {h h' : Handles}

theorem Deserted.congr (hd : Deserted r h s) (htail : r'.tail = r.tail)
    (hmark : r'.markOf s = r.markOf s) (hguards : h'.guards = h.guards) : Deserted r' h' s :=
  ⟨htail ▸ hd.lt_tail, hmark ▸ hd.unready, hguards ▸ hd.unheld⟩

namespace Orderly

theorem deserted_claim (ho : Orderly start next r h) (hroom : r.len < cap.size) (hs : start ≤ s) :
    Deserted r.claimNext h s ↔ Deserted r h s ∨ s = r.tail := by
  have htail := ho.tail_lt hroom
  have hmark (hlt : s < r.tail) : r.claimNext.markOf s = r.markOf s :=
    Ring.markOf_claimNext fun heq => Nat.ne_of_lt hlt
      (cap.eq_of_indexOf_eq (Nat.le_of_lt hlt) (by omega) heq.symm)
  constructor
  · intro hd
    have hlt := hd.lt_tail
    rw [Ring.tail_claimNext] at hlt
    rcases Nat.eq_or_lt_of_le (Nat.le_of_lt_succ hlt) with heq | hlt
    · exact .inr heq
    · exact .inl ⟨hlt, hmark hlt ▸ hd.unready, hd.unheld⟩
  · rintro (hd | rfl)
    · refine ⟨?_, (hmark hd.lt_tail).symm ▸ hd.unready, hd.unheld⟩
      rw [Ring.tail_claimNext]
      exact Nat.lt_succ_of_lt hd.lt_tail
    · refine ⟨?_, ho.claimNext_open hroom, ho.tail_free⟩
      rw [Ring.tail_claimNext]
      exact Nat.lt_succ_self _

theorem deserted_commit (ho : Orderly start next r h) (hs : start ≤ s) (ht : start ≤ t)
    (ht' : t < r.tail) :
    Deserted (r.commit (cap.indexOf t)) h s ↔ Deserted r h s ∧ s ≠ t := by
  have hlap := ho.le_lap
  have hmark (hlt : s < r.tail) (hne : s ≠ t) :
      (r.commit (cap.indexOf t)).markOf s = r.markOf s := by
    rw [Ring.markOf_commit, if_neg fun heq => hne
      (cap.eq_of_indexOf_eq_of_lap ht (by omega) hs (by omega) heq).symm]
  constructor
  · intro hd
    have hne : s ≠ t := by
      rintro rfl
      exact hd.unready ((r.markOf_commit _ s).trans (if_pos rfl))
    exact ⟨⟨hd.lt_tail, hmark hd.lt_tail hne ▸ hd.unready, hd.unheld⟩, hne⟩
  · rintro ⟨hd, hne⟩
    exact ⟨hd.lt_tail, (hmark hd.lt_tail hne).symm ▸ hd.unready, hd.unheld⟩

theorem deserted_addGuard (p : Nat) :
    Deserted r (h.addGuard p t).2 s ↔ Deserted r h s ∧ s ≠ t := by
  constructor
  · intro hd
    refine ⟨⟨hd.lt_tail, hd.unready, fun g hg => hd.unheld g (List.mem_append_left _ hg)⟩, ?_⟩
    exact (hd.unheld _ (List.mem_append_right _ (List.mem_singleton_self _))).symm
  · rintro ⟨hd, hne⟩
    refine ⟨hd.lt_tail, hd.unready, fun g hg => ?_⟩
    rcases List.mem_append.1 hg with hold | hnew
    · exact hd.unheld g hold
    · rw [List.mem_singleton.1 hnew]
      exact hne.symm

/-- Guards that go leave their numbers deserted. -/
theorem deserted_filter (ho : Orderly start next r h) (lost : Guard → Bool)
    (hkept : h'.guards = h.guards.filter fun g => !lost g) :
    Deserted r h' s ↔ Deserted r h s ∨ s ∈ (h.guards.filter lost).map (·.seq) := by
  constructor
  · intro hd
    by_cases hheld : ∃ g ∈ h.guards, g.seq = s
    · obtain ⟨g, hg, rfl⟩ := hheld
      have hlost : lost g = true := by
        by_contra hkeep
        exact hd.unheld g (hkept ▸ List.mem_filter.2 ⟨hg, by simp [hkeep]⟩) rfl
      exact .inr (List.mem_map_of_mem (List.mem_filter.2 ⟨hg, hlost⟩))
    · exact .inl ⟨hd.lt_tail, hd.unready, fun g hg heq => hheld ⟨g, hg, heq⟩⟩
  · rintro (hd | hlost)
    · refine ⟨hd.lt_tail, hd.unready, fun g hg => hd.unheld g ?_⟩
      exact (List.mem_filter.1 (hkept ▸ hg)).1
    · obtain ⟨g, hg, rfl⟩ := List.mem_map.1 hlost
      obtain ⟨hg, hglost⟩ := List.mem_filter.1 hg
      obtain ⟨-, hlt, hopen⟩ := ho.held g hg
      refine ⟨hlt, hopen, fun other hother heq => ?_⟩
      obtain ⟨hother, hkeep⟩ := List.mem_filter.1 (hkept ▸ hother)
      rw [List.inj_on_of_nodup_map ho.apart.seqs hother hg heq, hglost] at hkeep
      exact Bool.noConfusion hkeep

/-- An operation deserts the numbers whose guards it abandons, and no others. -/
theorem deserted_split (ho : Orderly start next r h) (hs : start ≤ s) {o : Op α}
    {reply : Reply α} (heffect : SplitEffect h r o reply r' h') :
    Deserted r' h' s ↔ Deserted r h s ∨ s ∈ h.abandoned o := by
  have hnone : Deserted r h s ↔ Deserted r h s ∨ s ∈ ([] : List Nat) := by simp
  have hbelow : start ≤ r.tail := Nat.le_trans ho.le_next ho.next_le
  have hfresh : (Deserted r h s ∨ s = r.tail) ∧ s ≠ r.tail ↔ Deserted r h s :=
    ⟨fun hd => hd.1.resolve_right hd.2, fun hd => ⟨.inl hd, Nat.ne_of_lt hd.lt_tail⟩⟩
  cases heffect with
  | claims hroom x =>
    rw [deserted_addGuard, ho.deserted_claim hroom hs, hfresh]
    exact hnone
  | fills hroom x =>
    have hlt : r.tail < r.claimNext.tail := by rw [Ring.tail_claimNext]; exact Nat.lt_succ_self _
    have hwritten : Deserted (r.claimNext.write (cap.indexOf r.tail) x) h s ↔
        Deserted r.claimNext h s :=
      ⟨fun hd => hd.congr rfl rfl rfl, fun hd => hd.congr rfl rfl rfl⟩
    rw [((ho.claim hroom).write _ x).deserted_commit hs hbelow hlt, hwritten,
      ho.deserted_claim hroom hs, hfresh]
    exact hnone
  | writes | clones =>
    refine Iff.trans ?_ hnone
    exact ⟨fun hd => hd.congr rfl rfl rfl, fun hd => hd.congr rfl rfl rfl⟩
  | @commits id g hid =>
    obtain ⟨hg, hgid⟩ := Handles.mem_of_guard? hid
    obtain ⟨hle, hlt, -⟩ := ho.held g hg
    have hdrop : Deserted r (h.dropGuard id) s ↔ _ := ho.deserted_filter (·.id == id) rfl
    refine Iff.trans ?_ hnone
    rw [(ho.dropGuard id).deserted_commit hs (Nat.le_trans ho.le_next hle) hlt, hdrop]
    constructor
    · rintro ⟨hd | hlost, hne⟩
      · exact hd
      · obtain ⟨other, hother, rfl⟩ := List.mem_map.1 hlost
        obtain ⟨hother, hotherId⟩ := List.mem_filter.1 hother
        have hsame : other = g := List.inj_on_of_nodup_map ho.apart.ids hother hg
          ((beq_iff_eq.1 hotherId).trans hgid.symm)
        exact absurd (hsame ▸ rfl) hne
    · exact fun hd => ⟨.inl hd, (hd.unheld g hg).symm⟩
  | abandons hid => exact ho.deserted_filter _ rfl
  | @drops p hp =>
    rw [Handles.abandoned, if_pos hp]
    exact ho.deserted_filter _ rfl
  | idles hkept =>
    rw [hkept]
    exact hnone

/-- A number that is passed is deserted, until the head moves. -/
theorem deserted_pass (ho : Orderly start next r h) (hlt : next < r.tail)
    (hready : r.markOf next = .ready) (hs : start ≤ s) :
    Deserted (r.mark (cap.indexOf next) .empty) h s ↔ Deserted r h s ∨ s = next := by
  have hlap := ho.le_lap
  have hle := ho.le_next
  constructor
  · intro hd
    by_cases hne : s = next
    · exact .inr hne
    · refine .inl ⟨hd.lt_tail, fun hmark => hd.unready ?_, hd.unheld⟩
      have hlt' : s < r.tail := hd.lt_tail
      rw [Ring.markOf_mark, if_neg fun heq => hne
        (cap.eq_of_indexOf_eq_of_lap hle (by omega) hs (by omega) heq).symm]
      exact hmark
  · rintro (hd | rfl)
    · exact ⟨hd.lt_tail, fun hmark => hd.unready (Ring.ready_of_clear hmark).2, hd.unheld⟩
    · exact ⟨hlt, fun hmark => (Ring.ready_of_clear hmark).1 rfl,
        fun g hg heq => (ho.held g hg).2.2 (heq ▸ hready)⟩

end Orderly

theorem Buffer.Moment.claim?_eq_none {before after : Buffer kind cap α} {o : Op α}
    {reply : Reply α} (h : reply.slot? = none) :
    (Moment.op before o reply after).claim? = none := by
  unfold claim?
  split
  · next heq => cases heq; cases h
  · next heq => cases heq; cases h
  · next heq => cases heq; cases h
  · rfl

/-- A claim stays within a lap of the head. -/
theorem SplitEffect.claim_lt {o : Op α} {reply : Reply α} (ho : Orderly start next r h)
    (heffect : SplitEffect h r o reply r' h') {after : Buffer kind cap α}
    (ht : (Moment.op ⟨r, some h⟩ o reply after).claim? = some t) : t < start + cap.size := by
  cases heffect with
  | claims hroom | fills hroom =>
    obtain rfl := Option.some.inj ht
    exact ho.tail_lt hroom
  | idles _ hslot => rw [Buffer.Moment.claim?_eq_none hslot] at ht; exact absurd ht nofun
  | writes | commits | abandons | clones | drops => exact absurd ht nofun

theorem Handles.mem_of_abandoned {o : Op α} (hs : s ∈ h.abandoned o) :
    ∃ g ∈ h.guards, g.seq = s := by
  have hfilter {lost : Guard → Bool} (hs : s ∈ (h.guards.filter lost).map (·.seq)) :
      ∃ g ∈ h.guards, g.seq = s := by
    obtain ⟨g, hg, rfl⟩ := List.mem_map.1 hs
    exact ⟨g, (List.mem_filter.1 hg).1, rfl⟩
  cases o with
  | abandon id => exact hfilter hs
  | dropProducer p =>
    rw [abandoned] at hs
    split at hs
    · exact hfilter hs
    · exact absurd hs List.not_mem_nil
  | _ => exact absurd hs List.not_mem_nil

namespace Buffer

/-! ## Dead numbers in reads -/

/-- A number of a split buffer that is claimed, not read, not ready, and that nobody can
commit. -/
structure Dead (b : Buffer kind cap α) (s : Nat) : Prop where
  split : b.handles ≠ none
  head_le : b.ring.head ≤ s
  deserted : Deserted b.ring b.inUse s

/-- The numbers whose guards go uncommitted at a moment. -/
def Moment.abandoned : Moment kind cap α → List Nat
  | .op before o _ _ => before.inUse.abandoned o
  | _ => []

/-- What may still happen when the number `s` is dead: a message before it is handed over, or a
number less than a lap after it is claimed. -/
structure Moment.Before (s : Nat) (m : Moment kind cap α) : Prop where
  handed : ∀ d, m.delivery? = some d → d.seq < s
  claimed : ∀ t, m.claim? = some t → t < s + cap.size

/-- How a read at position `count` changed the deserted numbers: there are those that `were`
deserted when it began, those that were abandoned, none of which it can have passed, and those
that it has passed. -/
structure Tracks (start count : Nat) (were : Nat → Prop) (ms : List (Moment kind cap α))
    (b : Buffer kind cap α) : Prop where
  deserted : ∀ s, start ≤ s →
    (Deserted b.ring b.inUse s ↔ were s ∨ s ∈ ms.flatMap Moment.abandoned ∨ s < start + count)
  ahead : ∀ s, were s ∨ s ∈ ms.flatMap Moment.abandoned → start + count ≤ s
  stalled : ∀ s, were s → ∀ m ∈ ms, m.Before s

variable {start bound count : Nat} {were : Nat → Prop} {ms : List (Moment kind cap α)}
  {b : Buffer kind cap α}

/-- A message that is ready comes before every number that was deserted. -/
theorem Tracks.lt (ht : Tracks start count were ms b)
    (hready : b.ring.markOf (start + count) = .ready) {s : Nat}
    (hs : were s ∨ s ∈ ms.flatMap Moment.abandoned) : start + count < s := by
  have hle := ht.ahead s hs
  refine Nat.lt_of_le_of_ne hle fun heq => ?_
  have hd := (ht.deserted s (by omega)).2 (hs.imp id .inl)
  exact hd.unready (heq ▸ hready)

theorem Tracks.hand (ht : Tracks start count were ms b)
    (hready : b.ring.markOf (start + count) = .ready) (x : α) :
    Tracks start count were (ms ++ [.handed ⟨count, start + count, x⟩ b]) b := by
  have hsame : (ms ++ [Moment.handed ⟨count, start + count, x⟩ b]).flatMap Moment.abandoned =
      ms.flatMap Moment.abandoned := by
    rw [List.flatMap_append]
    exact List.append_nil _
  refine ⟨hsame ▸ ht.deserted, hsame ▸ ht.ahead, fun s hs m hm => ?_⟩
  rcases List.mem_append.1 hm with hold | hnew
  · exact ht.stalled s hs m hold
  · rw [List.mem_singleton.1 hnew]
    refine ⟨fun d hd => ?_, nofun⟩
    obtain rfl := Option.some.inj hd
    exact ht.lt hready (.inl hs)

theorem Tracks.perform (ht : Tracks start count were ms b)
    (ho : Orderly start (start + count) b.ring b.inUse) (hsplit : b.handles ≠ none) (o : Op α) :
    Tracks start count were (ms ++ [.op b o (b.perform o).1 (b.perform o).2])
      (b.perform o).2 := by
  obtain ⟨r, _ | h⟩ := b
  · exact absurd rfl hsplit
  obtain ⟨reply, r', h', hperform, heffect⟩ := performSplit_effect h r o
  simp only [Buffer.perform, hperform]
  have habandoned : ∀ s, s ∈ (ms ++ [Moment.op ⟨r, some h⟩ o reply ⟨r', some h'⟩]).flatMap
      Moment.abandoned ↔ s ∈ ms.flatMap Moment.abandoned ∨ s ∈ h.abandoned o := by
    intro s
    rw [List.flatMap_append, List.mem_append, List.flatMap_singleton]
    rfl
  refine ⟨fun s hs => ?_, fun s hs => ?_, fun s hs m hm => ?_⟩
  · have hop : Deserted r' h' s ↔ Deserted r h s ∨ s ∈ h.abandoned o :=
      Orderly.deserted_split ho hs heffect
    have hold : Deserted r h s ↔ _ := ht.deserted s hs
    show Deserted r' h' s ↔ _
    rw [hop, hold, habandoned, or_assoc, or_right_comm]
  · rw [habandoned, ← or_assoc] at hs
    rcases hs with hold | hnew
    · exact ht.ahead s hold
    · obtain ⟨g, hg, rfl⟩ := Handles.mem_of_abandoned hnew
      exact (ho.held g hg).1
  · rcases List.mem_append.1 hm with hold | hnew
    · exact ht.stalled s hs m hold
    · rw [List.mem_singleton.1 hnew]
      refine ⟨fun d hd => absurd hd.symm (Option.some_ne_none d), fun t hclaim => ?_⟩
      have hlap : t < start + cap.size := SplitEffect.claim_lt ho heffect hclaim
      have hle := ht.ahead s (.inl hs)
      omega

theorem Tracks.pass (ht : Tracks start count were ms b)
    (ho : Orderly start (start + count) b.ring b.inUse) (hlt : start + count < b.ring.tail)
    (hready : b.ring.markOf (start + count) = .ready) :
    Tracks start (count + 1) were ms
      ⟨b.ring.mark (cap.indexOf (start + count)) .empty, b.handles⟩ where
  deserted := by
    intro s hs
    have hpass : Deserted (b.ring.mark (cap.indexOf (start + count)) .empty) b.inUse s ↔
        Deserted b.ring b.inUse s ∨ s = start + count := ho.deserted_pass hlt hready hs
    have hsucc : s < start + (count + 1) ↔ s < start + count ∨ s = start + count := by omega
    show Deserted (b.ring.mark (cap.indexOf (start + count)) .empty) b.inUse s ↔ _
    rw [hpass, ht.deserted s hs, hsucc, or_assoc, or_assoc]
  ahead := fun _ hs => ht.lt hready hs
  stalled := ht.stalled

/-- A read of a split buffer keeps track of the deserted numbers. -/
theorem readTracks (start bound : Nat) (were : Nat → Prop) (past : List (Moment kind cap α)) :
    ReadInvariant start bound
      (fun count ms b => OrderlyBetween start bound count (past ++ ms) b ∧ b.handles ≠ none ∧
        Tracks start count were ms b)
      (fun count ms b => OrderlyWithin start bound count (past ++ ms) b ∧ b.handles ≠ none ∧
        Tracks start count were ms b) where
  hand := by
    rintro count ms b hlt ⟨ho, hsplit, ht⟩ hready
    exact ⟨(readOrderly start bound past).hand hlt ho hready, hsplit, ht.hand hready _⟩
  perform := by
    rintro count ms b o ⟨ho, hsplit, ht⟩
    refine ⟨(readOrderly start bound past).perform o ho, mt (b.isNone_perform o).1 hsplit, ?_⟩
    exact ht.perform (ho.orderly fun hnone => absurd hnone hsplit).1 hsplit o
  pass := by
    rintro count ms b ⟨ho, hsplit, ht⟩
    obtain ⟨horderly, hle, hready⟩ := ho.orderly fun hnone => absurd hnone hsplit
    have hlt := ho.lt_bound
    exact ⟨(readOrderly start bound past).pass ho, hsplit,
      ht.pass horderly (by omega) hready⟩

/-! ## Uses of a split buffer -/

theorem dead_iff (hsplit : b.handles ≠ none) {s : Nat} :
    b.Dead s ↔ b.ring.head ≤ s ∧ Deserted b.ring b.inUse s :=
  ⟨fun h => ⟨h.head_le, h.deserted⟩, fun h => ⟨hsplit, h.1, h.2⟩⟩

theorem tracks_nil (hsplit : b.handles ≠ none) :
    Tracks b.ring.head 0 b.Dead [] b where
  deserted := by
    intro s hs
    rw [dead_iff hsplit]
    simp [hs, Nat.not_lt_of_le hs]
  ahead := fun s hs => (hs.resolve_right List.not_mem_nil).head_le
  stalled := fun _ _ _ hm => absurd hm List.not_mem_nil

/-- What is dead when the head did not move. -/
theorem Tracks.dead_iff {after : Buffer kind cap α}
    (ht : Tracks b.ring.head count b.Dead ms after) (hhead : after.ring.head = b.ring.head)
    (hsplit : after.handles ≠ none) (s : Nat) :
    after.Dead s ↔ b.Dead s ∨ s ∈ ms.flatMap Moment.abandoned ∨
      b.ring.head ≤ s ∧ s < b.ring.head + count := by
  rw [Buffer.dead_iff hsplit, hhead]
  constructor
  · rintro ⟨hle, hd⟩
    exact ((ht.deserted s hle).1 hd).imp id fun h => h.imp id fun hlt => ⟨hle, hlt⟩
  · intro hs
    have hle : b.ring.head ≤ s := by
      rcases hs with hdead | hlost | ⟨hle, -⟩
      · exact hdead.head_le
      · exact Nat.le_trans (Nat.le_add_right ..) (ht.ahead s (.inr hlost))
      · exact hle
    exact ⟨hle, (ht.deserted s hle).2 (hs.imp id fun h => h.imp id fun hlt => hlt.2)⟩

theorem InOrder.tracks_perform (hb : b.InOrder) (hsplit : b.handles ≠ none) (o : Op α) :
    Tracks b.ring.head 0 b.Dead (b.momentsOf (.op o)) (b.perform o).2 :=
  (tracks_nil hsplit).perform hb hsplit o

/-- The dead numbers after an operation are those before and the ones it abandons. -/
theorem InOrder.dead_perform (hb : b.InOrder) (hsplit : b.handles ≠ none) (o : Op α) (s : Nat) :
    (b.perform o).2.Dead s ↔ b.Dead s ∨ s ∈ b.inUse.abandoned o := by
  have hbegun : b.ring.head ≤
      b.ring.head + (([] : List (Moment kind cap α)).filterMap Moment.delivery?).length :=
    Nat.le_refl _
  have hhead : (b.perform o).2.ring.head = b.ring.head :=
    (perform_orderly hb o hbegun fun hnone => absurd hnone hsplit).1.head_eq
  rw [(hb.tracks_perform hsplit o).dead_iff hhead (mt (b.isNone_perform o).1 hsplit)]
  have habandoned : (b.momentsOf (.op o)).flatMap Moment.abandoned = b.inUse.abandoned o :=
    List.flatMap_singleton ..
  have hempty : ¬ (b.ring.head ≤ s ∧ s < b.ring.head + 0) := by omega
  rw [habandoned, or_iff_left hempty]

/-- How a read changes the dead numbers, by what it abandons and where it fails. -/
structure DeadRead (b : Buffer kind cap α) (inside : List (Moment kind cap α))
    (ending : ReadEnd) (after : Buffer kind cap α) : Prop where
  split : after.handles ≠ none
  inOrder : after.InOrder
  stalled : ∀ s, b.Dead s → ∀ m ∈ inside, m.Before s
  finished : ∀ n, ending = .finished n →
    ∀ s, after.Dead s ↔ b.Dead s ∨ s ∈ inside.flatMap Moment.abandoned
  failed : ∀ k, ending = .failed k → after.ring.head = b.ring.head ∧
    ∀ s, after.Dead s ↔ b.Dead s ∨ s ∈ inside.flatMap Moment.abandoned ∨
      b.ring.head ≤ s ∧ s < b.ring.head + k

theorem InOrder.dead_read (hb : b.InOrder) (hsplit : b.handles ≠ none) (limit : Nat)
    (hooks : Hooks α) :
    DeadRead b (b.insideRead limit hooks) (b.readHooked limit hooks).1.ending
      (b.readHooked limit hooks).2 := by
  have hends := (readTracks _ _ b.Dead [.began limit b]).read hooks
    ⟨hb.begin limit, hsplit, tracks_nil hsplit⟩
  generalize b.readHooked limit hooks = result at hends ⊢
  obtain ⟨⟨ending, deliveries, replies⟩, after⟩ := result
  cases ending with
  | finished n =>
    obtain ⟨r, hring, ho, hsplit', ht⟩ := hends
    have horderly := (ho.orderly fun hnone => absurd hnone hsplit').1
    have hr : Orderly _ _ after.ring after.inUse := hring ▸ horderly.finish
    refine ⟨hsplit', inOrder_of_orderly hr, ht.stalled, fun n' _ s => ?_, nofun⟩
    have hhead : after.ring.head = b.ring.head + n := hr.head_eq
    have hsame : Deserted after.ring after.inUse s ↔ Deserted r after.inUse s := by
      rw [hring]
      exact ⟨fun hd => hd.congr rfl rfl rfl, fun hd => hd.congr rfl rfl rfl⟩
    show after.Dead s ↔ _
    rw [dead_iff (show after.handles ≠ none from hsplit'), hhead, hsame]
    constructor
    · rintro ⟨hle, hd⟩
      have hcases := (ht.deserted s (by omega)).1 hd
      exact hcases.imp id fun h => h.resolve_right (Nat.not_lt_of_le hle)
    · intro hs
      have hle := ht.ahead s hs
      exact ⟨hle, (ht.deserted s (by omega)).2 (hs.imp id .inl)⟩
  | failed k =>
    obtain ⟨ho, hsplit', ht⟩ := hends
    have hr := (ho.orderly fun hnone => absurd hnone hsplit').1.giveUp
    have hhead : after.ring.head = b.ring.head := hr.head_eq
    refine ⟨hsplit', inOrder_of_orderly hr, ht.stalled, nofun, fun k' hk => ⟨hhead, ?_⟩⟩
    obtain rfl := ReadEnd.failed.inj hk
    exact ht.dead_iff hhead hsplit'

/-- A read that fails on its first message, in a callback that ran no operation, leaves the
buffer as it was. -/
theorem readHooked_failed_first (b : Buffer kind cap α) (limit : Nat) (hooks : Hooks α)
    (hfail : (b.readHooked limit hooks).1.ending = .failed 0)
    (hnone : ∀ before o reply after, .op before o reply after ∉ b.insideRead limit hooks) :
    (b.readHooked limit hooks).2 = b := by
  let Unmoved (count : Nat) (ms : List (Moment kind cap α)) (other : Buffer kind cap α) : Prop :=
    (∀ before o reply after, .op before o reply after ∉ ms) → count = 0 → other = b
  have hinv : ReadInvariant b.ring.head (min (distance b.ring.tail b.ring.head) limit)
      Unmoved Unmoved :=
    ⟨fun _ h _ hno => h fun before o reply after hm =>
        hno before o reply after (List.mem_append_left _ hm),
      fun o _ hno => absurd (List.mem_append_right _ (List.mem_singleton_self _)) (hno _ o _ _),
      fun _ _ hzero => absurd hzero (Nat.succ_ne_zero _)⟩
  have hends := hinv.read hooks fun _ _ => rfl
  generalize b.readHooked limit hooks = result at hends hfail ⊢
  obtain ⟨⟨ending, deliveries, replies⟩, after⟩ := result
  obtain rfl : ending = .failed 0 := hfail
  exact hends hnone rfl

theorem InOrder.dead_serve (hb : b.InOrder) {s : Nat} (hdead : b.Dead s) (use : Use α) :
    (b.serve use.request).2.InOrder ∧ (b.serve use.request).2.Dead s ∧
      ∀ m ∈ b.momentsOf use.request, m.Before s := by
  have hsplit := hdead.split
  cases use with
  | op o =>
    exact ⟨hb.perform o fun hnone => absurd hnone hsplit,
      (hb.dead_perform hsplit o s).2 (.inl hdead), (hb.tracks_perform hsplit o).stalled s hdead⟩
  | info =>
    refine ⟨hb, hdead, fun m hm => ?_⟩
    rw [List.mem_singleton.1 hm]
    exact ⟨nofun, nofun⟩
  | read limit hooks =>
    have hread := hb.dead_read hsplit limit hooks
    have hdead' : (b.readHooked limit hooks).2.Dead s := by
      cases hending : (b.readHooked limit hooks).1.ending with
      | finished n => exact (hread.finished n hending s).2 (.inl hdead)
      | failed k => exact ((hread.failed k hending).2 s).2 (.inl hdead)
    refine ⟨hread.inOrder, hdead', fun m hm => ?_⟩
    rcases List.mem_append.1 hm with hm | hm
    · rcases List.mem_cons.1 hm with rfl | hm
      · exact ⟨nofun, nofun⟩
      · exact hread.stalled s hdead m hm
    · rw [List.mem_singleton.1 hm]
      exact ⟨nofun, nofun⟩

/-- A number that is dead stays so, and nothing gets past it. -/
theorem InOrder.dead_run (hb : b.InOrder) {s : Nat} (hdead : b.Dead s) (uses : List (Use α)) :
    (b.after (uses.map Use.request)).Dead s ∧
      ∀ m ∈ b.moments (uses.map Use.request), m.Before s := by
  induction uses generalizing b with
  | nil => exact ⟨hdead, fun _ hm => absurd hm List.not_mem_nil⟩
  | cons use uses ih =>
    obtain ⟨hb', hdead', hbefore⟩ := hb.dead_serve hdead use
    obtain ⟨hlast, hrest⟩ := ih hb' hdead'
    refine ⟨hlast, fun m hm => ?_⟩
    rcases List.mem_append.1 hm with hnow | hlater
    · exact hbefore m hnow
    · exact hrest m hlater

end Buffer

/-- A split buffer of either kind, in any state that it can come to. An operation makes dead
exactly the numbers whose guards it lets go without a commit, and so does a read that returns.
A read that fails in its callback at position `k` leaves the head where it was and makes dead
the `k` numbers from there on besides; it changes nothing at all if it failed at position 0 in
a callback without operations. And a number `s` that is dead stays dead whatever the buffer is
used for: no message from `s` on is handed over again, and no number from `s` plus the capacity
on is claimed. -/
theorem dead_slots_stall {kind : Kind} {cap : Capacity} {α : Type} {b : Buffer kind cap α}
    (hb : b.Reachable) (hsplit : b.handles ≠ none) :
    (∀ o s, (b.perform o).2.Dead s ↔ b.Dead s ∨ s ∈ b.inUse.abandoned o) ∧
    (∀ limit hooks,
      let (report, after) := b.readHooked limit hooks
      let inside := b.insideRead limit hooks
      (∀ n, report.ending = .finished n →
        ∀ s, after.Dead s ↔ b.Dead s ∨ s ∈ inside.flatMap Moment.abandoned) ∧
      (∀ k, report.ending = .failed k → after.ring.head = b.ring.head ∧
        ∀ s, after.Dead s ↔ b.Dead s ∨ s ∈ inside.flatMap Moment.abandoned ∨
          b.ring.head ≤ s ∧ s < b.ring.head + k) ∧
      (report.ending = .failed 0 → (∀ before o reply after, .op before o reply after ∉ inside) →
        after = b)) ∧
    ∀ s, b.Dead s → ∀ uses : List (Use α), (b.after (uses.map Use.request)).Dead s ∧
      ∀ m ∈ b.moments (uses.map Use.request), m.Before s := by
  refine ⟨hb.inOrder.dead_perform hsplit, fun limit hooks => ?_,
    fun s hdead uses => hb.inOrder.dead_run hdead uses⟩
  have hread := hb.inOrder.dead_read hsplit limit hooks
  exact ⟨hread.finished, hread.failed, b.readHooked_failed_first limit hooks⟩

/-- Once a read has failed on 11, the number of 10 is dead, and only that. -/
theorem second_failed_first_dead :
    (twoPublished .manyProducers).Reachable ∧ (twoPublished .manyProducers).handles ≠ none ∧
      (secondFailed .manyProducers).1.ending = .failed 1 ∧
      ∀ s, (secondFailed .manyProducers).2.Dead s ↔ s = 0 := by
  have hreachable : (twoPublished .manyProducers).Reachable := Buffer.reachable_uses _ _
  have hsplit : (twoPublished .manyProducers).handles ≠ none := by decide
  have hfail : (secondFailed .manyProducers).1.ending = .failed 1 := by decide
  obtain ⟨-, hread, -⟩ := dead_slots_stall hreachable hsplit
  obtain ⟨-, hfailed, -⟩ := hread 4 [(1, [.fail])]
  refine ⟨hreachable, hsplit, hfail, fun s => ?_⟩
  have halive : ¬ (twoPublished .manyProducers).Dead s := fun hdead => by
    have hlt : s < 2 := hdead.deserted.lt_tail
    have hready : ∀ seq < 2, (twoPublished .manyProducers).ring.markOf seq = .ready := by decide
    exact hdead.deserted.unready (hready s hlt)
  have hdead : (secondFailed .manyProducers).2.Dead s ↔
      (twoPublished .manyProducers).Dead s ∨ s ∈ [] ∨ 0 ≤ s ∧ s < 0 + 1 := (hfailed 1 hfail).2 s
  rw [hdead]
  simp only [halive, List.not_mem_nil, false_or]
  omega

end RingTransport
