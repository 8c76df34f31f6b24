/-
  The states that a buffer can come to, whole or split, through any requests (`Reachable`). One
  thing is asked of its owner: with one producer, raw commits keep to slots that were claimed
  and not handed over (`Lawful`). Main fact: every such state is orderly (`Reachable.orderly`):
  the tail is at most a lap ahead of the head, the guards hold claimed numbers that are not
  ready, each its own, and with one producer no slot that is up for a claim is marked.

  `performRaw_effect` and `performSplit_effect` say what an operation can do; what it keeps is
  then proved case by case. While a read is under way the numbers below `next` are passed.
-/
import RingTransport.Proofs.Ring.Accounting
import RingTransport.Proofs.Ring.FailedRead

namespace RingTransport

open Buffer (Always Hooks Moment Request)

variable {kind : Kind} {cap : Capacity} {α : Type}

/-! ## What an operation on a split buffer does -/

/-- The slot of a claim that an operation answers with. -/
def Reply.slot? : Reply α → Option Nat
  | .index i | .claimed _ i _ => some i
  | _ => none

/-- The numbers whose guards an operation lets go without a commit. -/
def Handles.abandoned (h : Handles) : Op α → List Nat
  | .abandon id => (h.guards.filter (·.id == id)).map (·.seq)
  | .dropProducer p =>
    if p ∈ h.producers then (h.guards.filter (·.producer == p)).map (·.seq) else []
  | _ => []

/-- All that an operation on a split buffer can do to its ring and its handles. -/
inductive SplitEffect (h : Handles) (r : Ring kind cap α) :
    Op α → Reply α → Ring kind cap α → Handles → Prop
  | claims {p : Nat} (hroom : r.len < cap.size) (x : α) :
    SplitEffect h r (.claim p) (.claimed h.nextGuard (cap.indexOf r.tail) x) r.claimNext
      (h.addGuard p r.tail).2
  | fills {p : Nat} (hroom : r.len < cap.size) (x : α) :
    SplitEffect h r (.publish x p) (.index (cap.indexOf r.tail))
      ((r.claimNext.write (cap.indexOf r.tail) x).commit (cap.indexOf r.tail)) h
  | writes {id : Nat} {g : Guard} (hid : h.guard? id = some g) (x : α) :
    SplitEffect h r (.set id x) .done (r.write (cap.indexOf g.seq) x) h
  | commits {id : Nat} {g : Guard} (hid : h.guard? id = some g) :
    SplitEffect h r (.commit id) .done (r.commit (cap.indexOf g.seq)) (h.dropGuard id)
  | abandons {id : Nat} {g : Guard} (hid : h.guard? id = some g) :
    SplitEffect h r (.abandon id) .done r (h.dropGuard id)
  | clones {p : Nat} : SplitEffect h r (.clone p) (.producer h.nextProducer) r h.addProducer.2
  | drops {p : Nat} (hp : p ∈ h.producers) :
    SplitEffect h r (.dropProducer p) .done r (h.dropProducer p)
  | idles {o : Op α} {reply : Reply α} (hkept : h.abandoned o = []) (hslot : reply.slot? = none) :
    SplitEffect h r o reply r h

theorem performSplit_effect (h : Handles) (r : Ring kind cap α) (o : Op α) :
    ∃ reply r' h', Buffer.performSplit h r o = (reply, r', h') ∧ SplitEffect h r o reply r' h' := by
  cases o with
  | claim p =>
    by_cases hp : p ∈ h.producers
    · simp only [Buffer.performSplit, if_pos hp]
      rcases r.tryClaim_cases with ⟨hroom, hclaim⟩ | ⟨-, hclaim⟩
      · rw [hclaim]
        exact ⟨_, _, _, rfl, .claims hroom _⟩
      · rw [hclaim]
        exact ⟨_, _, _, rfl, .idles rfl rfl⟩
    · exact ⟨_, _, _, if_neg hp, .idles rfl rfl⟩
  | publish x p =>
    by_cases hp : p ∈ h.producers
    · simp only [Buffer.performSplit, if_pos hp]
      rcases r.tryClaim_cases with ⟨hroom, hclaim⟩ | ⟨-, hclaim⟩
      · rw [hclaim]
        exact ⟨_, _, _, rfl, .fills hroom x⟩
      · rw [hclaim]
        exact ⟨_, _, _, rfl, .idles rfl rfl⟩
    · exact ⟨_, _, _, if_neg hp, .idles rfl rfl⟩
  | set id x =>
    cases hid : h.guard? id with
    | none => exact ⟨_, _, _, by rw [Buffer.performSplit, hid], .idles rfl rfl⟩
    | some g => exact ⟨_, _, _, by rw [Buffer.performSplit, hid], .writes hid x⟩
  | get id =>
    cases hid : h.guard? id with
    | none => exact ⟨_, _, _, by rw [Buffer.performSplit, hid], .idles rfl rfl⟩
    | some g => exact ⟨_, _, _, by rw [Buffer.performSplit, hid], .idles rfl rfl⟩
  | commit id =>
    cases hid : h.guard? id with
    | none => exact ⟨_, _, _, by rw [Buffer.performSplit, hid], .idles rfl rfl⟩
    | some g => exact ⟨_, _, _, by rw [Buffer.performSplit, hid], .commits hid⟩
  | abandon id =>
    cases hid : h.guard? id with
    | none =>
      have hnone : h.guards.filter (·.id == id) = [] :=
        List.filter_eq_nil_iff.2 (List.find?_eq_none.1 hid)
      exact ⟨_, _, _, by rw [Buffer.performSplit, hid],
        .idles (by rw [Handles.abandoned, hnone, List.map_nil]) rfl⟩
    | some g => exact ⟨_, _, _, by rw [Buffer.performSplit, hid], .abandons hid⟩
  | clone p =>
    by_cases hp : kind = .manyProducers ∧ p ∈ h.producers
    · exact ⟨_, _, _, if_pos hp, .clones⟩
    · exact ⟨_, _, _, if_neg hp, .idles rfl rfl⟩
  | dropProducer p =>
    by_cases hp : p ∈ h.producers
    · exact ⟨_, _, _, if_pos hp, .drops hp⟩
    · exact ⟨_, _, _, if_neg hp, .idles (if_neg hp) rfl⟩
  | producerInfo p =>
    by_cases hp : p ∈ h.producers
    · exact ⟨_, _, _, if_pos hp, .idles rfl rfl⟩
    · exact ⟨_, _, _, if_neg hp, .idles rfl rfl⟩
  | tryClaim | write | peek | commitIndex | dump => exact ⟨_, _, _, rfl, .idles rfl rfl⟩

/-! ## Marks under claims and commits -/

namespace Ring

variable {r : Ring kind cap α}

/-- A claim makes no slot ready. -/
theorem ready_of_claimNext {seq : Nat} (h : r.claimNext.markOf seq = .ready) :
    r.markOf seq = .ready := by
  cases kind with
  | oneProducer => exact h
  | manyProducers =>
    rw [claimNext, markClaimed, markOf_mark] at h
    split at h
    · exact Mark.noConfusion h
    · exact h

theorem ready_of_clear {i : Fin cap.size} {seq : Nat}
    (h : (r.mark i .empty).markOf seq = .ready) : i ≠ cap.indexOf seq ∧ r.markOf seq = .ready := by
  rw [markOf_mark] at h
  split at h
  · exact Mark.noConfusion h
  · next hne => exact ⟨hne, h⟩

/-- A claim changes no mark but that of its own slot. -/
theorem markOf_claimNext {seq : Nat} (h : cap.indexOf r.tail ≠ cap.indexOf seq) :
    r.claimNext.markOf seq = r.markOf seq := by
  cases kind with
  | oneProducer => rfl
  | manyProducers => rw [claimNext, markClaimed, markOf_mark, if_neg h, markOf_setTail]

end Ring

/-! ## Orderly states -/

/-- No two guards hold the same number or go by the same one, and the next guard is new. -/
structure Handles.Apart (h : Handles) : Prop where
  seqs : (h.guards.map (·.seq)).Nodup
  ids : (h.guards.map (·.id)).Nodup
  lt_next : ∀ g ∈ h.guards, g.id < h.nextGuard

/-- A ring whose head is `start`, in a read that has passed the numbers below `next`. Its guards
hold numbers that are claimed, not passed and not ready. With one producer, which marks no
claim, a slot that can be claimed before the head moves again past `next` is not ready. -/
structure Orderly (start next : Nat) (r : Ring kind cap α) (h : Handles) : Prop where
  head_eq : r.head = start
  le_next : start ≤ next
  next_le : next ≤ r.tail
  le_lap : r.tail ≤ start + cap.size
  held : ∀ g ∈ h.guards, next ≤ g.seq ∧ g.seq < r.tail ∧ r.markOf g.seq ≠ .ready
  apart : h.Apart
  clean : kind = .oneProducer →
    ∀ seq, r.tail ≤ seq → seq < next + cap.size → r.markOf seq ≠ .ready

namespace Orderly

variable {start next : Nat} {r r' : Ring kind cap α} {h h' : Handles}

theorem ofSlots (contents : Vector α cap.size) :
    Orderly 0 0 (.ofSlots contents : Ring kind cap α) .fresh where
  head_eq := rfl
  le_next := Nat.le_refl _
  next_le := Nat.le_refl _
  le_lap := Nat.zero_le _
  held := nofun
  apart := ⟨List.nodup_nil, List.nodup_nil, nofun⟩
  clean := by
    intro _ seq _ _
    simp [Ring.markOf, Ring.ofSlots]

/-- Starting over leaves nothing of what was before. -/
theorem reset (r : Ring kind cap α) : Orderly 0 0 r.reset .fresh where
  head_eq := rfl
  le_next := Nat.le_refl _
  next_le := Nat.le_refl _
  le_lap := Nat.zero_le _
  held := nofun
  apart := ⟨List.nodup_nil, List.nodup_nil, nofun⟩
  clean := by
    intro _ seq _ _
    simp [Ring.markOf, Ring.reset]

theorem tail_lt (ho : Orderly start next r h) (hroom : r.len < cap.size) :
    r.tail < start + cap.size := by
  have hlen : r.len = r.tail - r.head :=
    distance_of_le (ho.head_eq ▸ Nat.le_trans ho.le_next ho.next_le)
  have hhead := ho.head_eq
  omega

/-- No two numbers that are claimed and not passed share a slot. -/
theorem unique (ho : Orderly start next r h) {s t : Nat} (hs : next ≤ s) (hs' : s < r.tail)
    (ht : next ≤ t) (ht' : t < r.tail) (heq : cap.indexOf s = cap.indexOf t) : s = t := by
  have hlap : r.tail ≤ next + cap.size :=
    Nat.le_trans ho.le_lap (Nat.add_le_add_right ho.le_next _)
  exact cap.eq_of_indexOf_eq_of_lap hs (Nat.lt_of_lt_of_le hs' hlap) ht
    (Nat.lt_of_lt_of_le ht' hlap) heq

theorem claim (ho : Orderly start next r h) (hroom : r.len < cap.size) :
    Orderly start next r.claimNext h where
  head_eq := by rw [Ring.head_claimNext]; exact ho.head_eq
  le_next := ho.le_next
  next_le := by rw [Ring.tail_claimNext]; exact Nat.le_succ_of_le ho.next_le
  le_lap := by rw [Ring.tail_claimNext]; exact ho.tail_lt hroom
  held := by
    intro g hg
    obtain ⟨hle, hlt, hopen⟩ := ho.held g hg
    rw [Ring.tail_claimNext]
    exact ⟨hle, Nat.lt_succ_of_lt hlt, fun hready => hopen (Ring.ready_of_claimNext hready)⟩
  apart := ho.apart
  clean := by
    intro hkind seq hle hlt hready
    rw [Ring.tail_claimNext] at hle
    exact ho.clean hkind seq (Nat.le_of_succ_le hle) hlt (Ring.ready_of_claimNext hready)

/-- A number that was just claimed is not ready: with many producers its claim marks it, and
with one producer its slot was not marked. -/
theorem claimNext_open (ho : Orderly start next r h) (hroom : r.len < cap.size) :
    r.claimNext.markOf r.tail ≠ .ready := by
  cases kind with
  | oneProducer =>
    have hlt : r.tail < next + cap.size :=
      Nat.lt_of_lt_of_le (ho.tail_lt hroom) (Nat.add_le_add_right ho.le_next _)
    exact ho.clean rfl r.tail (Nat.le_refl _) hlt
  | manyProducers =>
    rw [Ring.claimNext, Ring.markClaimed, Ring.markOf_mark, if_pos rfl]
    exact fun hready => Mark.noConfusion hready

theorem write (ho : Orderly start next r h) (i : Fin cap.size) (x : α) :
    Orderly start next (r.write i x) h :=
  ⟨ho.head_eq, ho.le_next, ho.next_le, ho.le_lap, ho.held, ho.apart, ho.clean⟩

theorem commit (ho : Orderly start next r h) {seq : Nat} (hle : next ≤ seq) (hlt : seq < r.tail)
    (hfree : ∀ g ∈ h.guards, g.seq ≠ seq) : Orderly start next (r.commit (cap.indexOf seq)) h where
  head_eq := ho.head_eq
  le_next := ho.le_next
  next_le := ho.next_le
  le_lap := ho.le_lap
  held := by
    intro g hg
    obtain ⟨hgle, hglt, hopen⟩ := ho.held g hg
    rw [Ring.markOf_commit, if_neg fun heq => hfree g hg (ho.unique hle hlt hgle hglt heq).symm]
    exact ⟨hgle, hglt, hopen⟩
  apart := ho.apart
  clean := by
    intro hkind other hole holt
    have hlt' : seq < other := Nat.lt_of_lt_of_le hlt hole
    have hother : cap.indexOf seq ≠ cap.indexOf other := fun heq =>
      Nat.ne_of_lt hlt' (cap.eq_of_indexOf_eq (Nat.le_of_lt hlt') (by omega) heq)
    rw [Ring.markOf_commit, if_neg hother]
    exact ho.clean hkind other hole holt

theorem addGuard (ho : Orderly start next r h) {seq : Nat} (hle : next ≤ seq) (hlt : seq < r.tail)
    (hopen : r.markOf seq ≠ .ready) (hfree : ∀ g ∈ h.guards, g.seq ≠ seq) (p : Nat) :
    Orderly start next r (h.addGuard p seq).2 where
  head_eq := ho.head_eq
  le_next := ho.le_next
  next_le := ho.next_le
  le_lap := ho.le_lap
  held := by
    intro g hg
    rcases List.mem_append.1 hg with hold | hnew
    · exact ho.held g hold
    · rw [List.mem_singleton.1 hnew]
      exact ⟨hle, hlt, hopen⟩
  apart := by
    have hnodup {f : Guard → Nat} (hf : (h.guards.map f).Nodup)
        (hnew : ∀ g ∈ h.guards, f g ≠ f ⟨h.nextGuard, p, seq⟩) :
        ((h.addGuard p seq).2.guards.map f).Nodup := by
      show ((h.guards ++ [⟨h.nextGuard, p, seq⟩] : List Guard).map f).Nodup
      rw [List.map_append, List.nodup_append]
      refine ⟨hf, List.nodup_singleton _, ?_⟩
      intro n hn m hm
      obtain ⟨g, hg, rfl⟩ := List.mem_map.1 hn
      rw [List.mem_singleton.1 hm]
      exact hnew g hg
    refine ⟨hnodup ho.apart.seqs hfree,
      hnodup ho.apart.ids fun g hg => Nat.ne_of_lt (ho.apart.lt_next g hg), ?_⟩
    intro g hg
    rcases List.mem_append.1 hg with hold | hnew
    · exact Nat.lt_succ_of_lt (ho.apart.lt_next g hold)
    · rw [List.mem_singleton.1 hnew]
      exact Nat.lt_succ_self _
  clean := ho.clean

/-- Guards may go. -/
theorem forget (ho : Orderly start next r h) (hsub : h'.guards.Sublist h.guards)
    (hnext : h.nextGuard ≤ h'.nextGuard) : Orderly start next r h' where
  head_eq := ho.head_eq
  le_next := ho.le_next
  next_le := ho.next_le
  le_lap := ho.le_lap
  held := fun g hg => ho.held g (hsub.subset hg)
  apart := ⟨ho.apart.seqs.sublist (hsub.map _), ho.apart.ids.sublist (hsub.map _),
    fun g hg => Nat.lt_of_lt_of_le (ho.apart.lt_next g (hsub.subset hg)) hnext⟩
  clean := ho.clean

/-- All handles may go. -/
theorem whole (ho : Orderly start next r h) : Orderly start next r .fresh where
  head_eq := ho.head_eq
  le_next := ho.le_next
  next_le := ho.next_le
  le_lap := ho.le_lap
  held := nofun
  apart := ⟨List.nodup_nil, List.nodup_nil, nofun⟩
  clean := ho.clean

theorem dropGuard (ho : Orderly start next r h) (id : Nat) :
    Orderly start next r (h.dropGuard id) :=
  ho.forget List.filter_sublist (Nat.le_refl _)

/-- Once a guard is gone, no guard holds its number. -/
theorem free_of_dropGuard (ho : Orderly start next r h) {id : Nat} {g : Guard}
    (hid : h.guard? id = some g) : ∀ other ∈ (h.dropGuard id).guards, other.seq ≠ g.seq := by
  intro other hother heq
  obtain ⟨hmem, hne⟩ := List.mem_filter.1 hother
  obtain ⟨hg, rfl⟩ := Handles.mem_of_guard? hid
  rw [List.inj_on_of_nodup_map ho.apart.seqs hmem hg heq] at hne
  simp at hne

/-- No guard holds the number of the next claim. -/
theorem tail_free (ho : Orderly start next r h) : ∀ g ∈ h.guards, g.seq ≠ r.tail :=
  fun g hg => Nat.ne_of_lt (ho.held g hg).2.1

theorem split (ho : Orderly start next r h) {o : Op α} {reply : Reply α}
    (heffect : SplitEffect h r o reply r' h') : Orderly start next r' h' := by
  cases heffect with
  | claims hroom x =>
    have hlt : r.tail < r.claimNext.tail := by rw [Ring.tail_claimNext]; exact Nat.lt_succ_self _
    exact (ho.claim hroom).addGuard ho.next_le hlt (ho.claimNext_open hroom) ho.tail_free _
  | fills hroom x =>
    have hlt : r.tail < r.claimNext.tail := by rw [Ring.tail_claimNext]; exact Nat.lt_succ_self _
    exact ((ho.claim hroom).write _ x).commit ho.next_le hlt ho.tail_free
  | writes hid x => exact ho.write _ x
  | commits hid =>
    obtain ⟨hle, hlt, -⟩ := ho.held _ (Handles.mem_of_guard? hid).1
    exact (ho.dropGuard _).commit hle hlt (ho.free_of_dropGuard hid)
  | abandons => exact ho.dropGuard _
  | clones => exact ho.forget (.refl _) (Nat.le_refl _)
  | drops => exact ho.forget List.filter_sublist (Nat.le_refl _)
  | idles => exact ho

/-- An operation on a whole buffer, of which nobody holds a guard. With many producers any slot
may be committed. -/
theorem raw (ho : Orderly start next r .fresh) {o : Op α} {reply : Reply α}
    (heffect : RawEffect r o reply r')
    (hlawful : kind = .oneProducer → ∀ i : Fin cap.size, o = .commitIndex i →
      ∃ seq, next ≤ seq ∧ seq < r.tail ∧ cap.indexOf seq = i) :
    Orderly start next r' .fresh := by
  cases heffect with
  | claims hroom => exact ho.claim hroom
  | writes i x => exact ho.write i x
  | commits i =>
    cases kind with
    | oneProducer =>
      obtain ⟨seq, hle, hlt, rfl⟩ := hlawful rfl i rfl
      exact ho.commit hle hlt nofun
    | manyProducers =>
      exact ⟨ho.head_eq, ho.le_next, ho.next_le, ho.le_lap, nofun, ho.apart, nofun⟩
  | full | peeks | misses | dumps | misuses => exact ho

/-! ## Reads -/

/-- The reader passes a message: it clears its mark. No guard holds its number, for it was
ready. -/
theorem pass (ho : Orderly start next r h) (hlt : next < r.tail)
    (hready : r.markOf next = .ready) :
    Orderly start (next + 1) (r.mark (cap.indexOf next) .empty) h where
  head_eq := ho.head_eq
  le_next := Nat.le_succ_of_le ho.le_next
  next_le := hlt
  le_lap := ho.le_lap
  held := by
    intro g hg
    obtain ⟨hgle, hglt, hopen⟩ := ho.held g hg
    have hne : next ≠ g.seq := fun heq => hopen (heq ▸ hready)
    exact ⟨Nat.lt_of_le_of_ne hgle hne, hglt, fun h => hopen (Ring.ready_of_clear h).2⟩
  apart := ho.apart
  clean := by
    intro hkind seq hle hlt' hmark
    obtain ⟨hother, hmark'⟩ := Ring.ready_of_clear hmark
    have hlap : seq ≠ next + cap.size := fun heq =>
      hother (by rw [heq, Capacity.indexOf_add_size])
    exact ho.clean hkind seq hle (by omega) hmark'

/-- The head moves over the messages that were passed. -/
theorem finish (ho : Orderly start next r h) : Orderly next next (r.setHead next) h where
  head_eq := rfl
  le_next := Nat.le_refl _
  next_le := ho.next_le
  le_lap := Nat.le_trans ho.le_lap (Nat.add_le_add_right ho.le_next _)
  held := ho.held
  apart := ho.apart
  clean := ho.clean

/-- A read that is given up leaves its marks cleared and the head where it was. -/
theorem giveUp (ho : Orderly start next r h) : Orderly start start r h where
  head_eq := ho.head_eq
  le_next := Nat.le_refl _
  next_le := Nat.le_trans ho.le_next ho.next_le
  le_lap := ho.le_lap
  held := fun g hg => by
    obtain ⟨hle, hlt⟩ := ho.held g hg
    exact ⟨Nat.le_trans ho.le_next hle, hlt⟩
  apart := ho.apart
  clean := fun hkind seq hle hlt => ho.clean hkind seq hle
    (Nat.lt_of_lt_of_le hlt (Nat.add_le_add_right ho.le_next _))

end Orderly

/-- The tail only moves on, and what is ready below it stays ready. -/
structure Advances (start : Nat) (r r' : Ring kind cap α) : Prop where
  tail_le : r.tail ≤ r'.tail
  ready : ∀ seq, start ≤ seq → seq < r.tail → r.markOf seq = .ready → r'.markOf seq = .ready

namespace Advances

variable {start next : Nat} {r r' r'' : Ring kind cap α} {h h' : Handles}

theorem refl (r : Ring kind cap α) : Advances start r r :=
  ⟨Nat.le_refl _, fun _ _ _ hready => hready⟩

theorem trans (hadv : Advances start r r') (hadv' : Advances start r' r'') :
    Advances start r r'' where
  tail_le := Nat.le_trans hadv.tail_le hadv'.tail_le
  ready := fun seq hle hlt hready => hadv'.ready seq hle (Nat.lt_of_lt_of_le hlt hadv.tail_le)
    (hadv.ready seq hle hlt hready)

theorem claim (ho : Orderly start next r h) (hroom : r.len < cap.size) :
    Advances start r r.claimNext where
  tail_le := by rw [Ring.tail_claimNext]; exact Nat.le_succ _
  ready := by
    intro seq hle hlt hready
    have htail := ho.tail_lt hroom
    rw [Ring.markOf_claimNext fun heq => Nat.ne_of_lt hlt
      (cap.eq_of_indexOf_eq (Nat.le_of_lt hlt) (by omega) heq.symm)]
    exact hready

theorem commit (r : Ring kind cap α) (i : Fin cap.size) : Advances start r (r.commit i) where
  tail_le := Nat.le_refl _
  ready := by
    intro seq _ _ hready
    rw [Ring.markOf_commit, hready, ite_self]

theorem write_commit (r : Ring kind cap α) (i : Fin cap.size) (x : α) :
    Advances start r ((r.write i x).commit i) where
  tail_le := Nat.le_refl _
  ready := (commit (r.write i x) i).ready

theorem raw (ho : Orderly start next r h) {o : Op α} {reply : Reply α}
    (heffect : RawEffect r o reply r') : Advances start r r' := by
  cases heffect with
  | claims hroom => exact claim ho hroom
  | writes i x => exact ⟨Nat.le_refl _, fun _ _ _ hready => hready⟩
  | commits i => exact commit r i
  | full | peeks | misses | dumps | misuses => exact refl r

theorem split (ho : Orderly start next r h) {o : Op α} {reply : Reply α}
    (heffect : SplitEffect h r o reply r' h') : Advances start r r' := by
  cases heffect with
  | claims hroom x => exact claim ho hroom
  | fills hroom x =>
    exact (claim ho hroom).trans (write_commit r.claimNext _ x)
  | writes hid x => exact ⟨Nat.le_refl _, fun _ _ _ hready => hready⟩
  | commits hid => exact commit r _
  | abandons | clones | drops | idles => exact refl r

end Advances

/-! ## Reachable states -/

namespace Buffer

/-- The handles in use: none is when the buffer is whole. -/
def inUse (b : Buffer kind cap α) : Handles := b.handles.getD .fresh

/-- What is asked of raw commits when there is one producer: the slot is that of a number that
was claimed and that the read under way, if there is one, has not handed over. The mark of any
other slot would stay until the slot is claimed, and a guard would then hold a number that can
be read. -/
def Lawful (earlier : List (Moment kind cap α)) : Moment kind cap α → Prop
  | .op ⟨r, none⟩ (.commitIndex i) _ _ =>
    kind = .oneProducer → i < cap.size →
      ∃ seq, r.head + (earlier.filterMap Moment.delivery?).length ≤ seq ∧ seq < r.tail ∧
        seq % cap.size = i
  | _ => True

/-- The states that a buffer can come to through any requests, those of an owner that keeps to
what is lawful. -/
inductive Reachable : Buffer kind cap α → Prop
  | made (contents : Vector α cap.size) : Reachable (.ofRing (.ofSlots contents))
  | served {b : Buffer kind cap α} (hb : Reachable b) (request : Request α)
    (hlawful : Always Lawful (b.momentsOf request)) : Reachable (b.serve request).2

variable {start bound next count : Nat} {b : Buffer kind cap α} {ms : List (Moment kind cap α)}

theorem perform_orderly (ho : Orderly start next b.ring b.inUse) (o : Op α)
    (hnext : next ≤ start + (ms.filterMap Moment.delivery?).length)
    (hlawful : b.handles = none → Lawful ms (.op b o (b.perform o).1 (b.perform o).2)) :
    Orderly start next (b.perform o).2.ring (b.perform o).2.inUse ∧
      Advances start b.ring (b.perform o).2.ring := by
  obtain ⟨r, handles⟩ := b
  cases handles with
  | none =>
    obtain ⟨reply, r', hraw, heffect⟩ := performRaw_effect r o
    simp only [Buffer.perform, hraw] at hlawful ⊢
    refine ⟨Orderly.raw ho heffect fun hkind i hi => ?_, Advances.raw ho heffect⟩
    subst hi
    obtain ⟨seq, hle, hlt, hseq⟩ := hlawful trivial hkind i.isLt
    have hhead : r.head = start := ho.head_eq
    exact ⟨seq, by omega, hlt, Fin.ext (by rw [Capacity.indexOf_val, hseq])⟩
  | some h =>
    obtain ⟨reply, r', h', hsplit, heffect⟩ := performSplit_effect h r o
    simp only [Buffer.perform, hsplit]
    exact ⟨Orderly.split ho heffect, Advances.split ho heffect⟩

theorem isNone_perform (b : Buffer kind cap α) (o : Op α) :
    (b.perform o).2.handles = none ↔ b.handles = none := by
  obtain ⟨r, handles⟩ := b
  cases handles <;> simp [Buffer.perform]

theorem Always.of_snoc {P : List (Moment kind cap α) → Moment kind cap α → Prop}
    {m : Moment kind cap α} (h : Always P (ms ++ [m])) : Always P ms ∧ P ms m :=
  ⟨fun earlier other later heq => h earlier other (later ++ [m]) (by rw [heq]; simp),
    h ms m [] rfl⟩

/-- An orderly buffer between two messages of a read. -/
structure OrderlyBetween (start bound count : Nat) (ms : List (Moment kind cap α))
    (b : Buffer kind cap α) : Prop where
  handed : (ms.filterMap Moment.delivery?).length = count
  orderly : (b.handles = none → Always Lawful ms) →
    Orderly start (start + count) b.ring b.inUse ∧ start + bound ≤ b.ring.tail

/-- An orderly buffer while a callback has the message at position `count`, which stays ready
until the callback returns. -/
structure OrderlyWithin (start bound count : Nat) (ms : List (Moment kind cap α))
    (b : Buffer kind cap α) : Prop where
  handed : (ms.filterMap Moment.delivery?).length = count + 1
  lt_bound : count < bound
  orderly : (b.handles = none → Always Lawful ms) →
    Orderly start (start + count) b.ring b.inUse ∧ start + bound ≤ b.ring.tail ∧
      b.ring.markOf (start + count) = .ready

theorem OrderlyWithin.perform (h : OrderlyWithin start bound count ms b) (o : Op α) :
    OrderlyWithin start bound count (ms ++ [.op b o (b.perform o).1 (b.perform o).2])
      (b.perform o).2 := by
  refine ⟨?_, h.lt_bound, fun hlawful => ?_⟩
  · rw [List.filterMap_append, List.length_append, h.handed]
    rfl
  · have hpast (hnone : b.handles = none) := Always.of_snoc (hlawful ((b.isNone_perform o).2 hnone))
    obtain ⟨ho, hle, hready⟩ := h.orderly fun hnone => (hpast hnone).1
    have hnext : start + count ≤ start + (ms.filterMap Moment.delivery?).length := by
      rw [h.handed]
      omega
    obtain ⟨ho', hadv⟩ := perform_orderly ho o hnext fun hnone => (hpast hnone).2
    have hlt := h.lt_bound
    exact ⟨ho', Nat.le_trans hle hadv.tail_le,
      hadv.ready _ (Nat.le_add_right ..) (by omega) hready⟩

theorem readOrderly (start bound : Nat) (past : List (Moment kind cap α)) :
    ReadInvariant start bound
      (fun count ms b => OrderlyBetween start bound count (past ++ ms) b)
      (fun count ms b => OrderlyWithin start bound count (past ++ ms) b) where
  hand := by
    intro count ms b hlt h hready
    rw [← List.append_assoc]
    refine ⟨?_, hlt, fun hlawful => ?_⟩
    · rw [List.filterMap_append, List.length_append, h.handed]
      rfl
    · obtain ⟨ho, hle⟩ := h.orderly fun hnone => (Always.of_snoc (hlawful hnone)).1
      exact ⟨ho, hle, hready⟩
  perform := by
    intro count ms b o h
    rw [← List.append_assoc]
    exact h.perform o
  pass := by
    intro count ms b h
    refine ⟨h.handed, fun hlawful => ?_⟩
    obtain ⟨ho, hle, hready⟩ := h.orderly hlawful
    have hlt := h.lt_bound
    exact ⟨ho.pass (by omega) hready, hle⟩

/-- A read leaves a whole buffer whole, and a split one split. -/
theorem isNone_readHooked (b : Buffer kind cap α) (limit : Nat) (hooks : Hooks α) :
    (b.readHooked limit hooks).2.handles = none ↔ b.handles = none := by
  let Same (_ : List (Moment kind cap α)) (handles : Option Handles) : Prop :=
    handles = none ↔ b.handles = none
  have hsame : ReadInvariant b.ring.head (min (distance b.ring.tail b.ring.head) limit)
      (fun _ ms (other : Buffer kind cap α) => Same ms other.handles)
      (fun _ ms other => Same ms other.handles) :=
    ⟨fun _ h _ => h, fun o h => (isNone_perform _ o).trans h, fun h => h⟩
  exact hsame.read_of_handles hooks Iff.rfl

/-- A buffer that is orderly, with no read under way. -/
def InOrder (b : Buffer kind cap α) : Prop := Orderly b.ring.head b.ring.head b.ring b.inUse

theorem inOrder_of_orderly (ho : Orderly start start b.ring b.inUse) : b.InOrder := by
  rw [InOrder, ho.head_eq]
  exact ho

theorem InOrder.perform (h : b.InOrder) (o : Op α)
    (hlawful : b.handles = none → Always Lawful (b.momentsOf (.op o))) :
    (b.perform o).2.InOrder :=
  inOrder_of_orderly (perform_orderly h o (Nat.le_refl _)
    fun hnone => hlawful hnone [] _ [] rfl).1

theorem InOrder.reset (h : b.InOrder) : b.reset.2.InOrder := by
  obtain ⟨r, handles⟩ := b
  cases handles with
  | none => exact Orderly.reset r
  | some h' => exact h

theorem InOrder.split (h : b.InOrder) : b.split.2.InOrder := by
  obtain ⟨r, handles⟩ := b
  cases handles with
  | none => exact h
  | some h' => exact h

theorem InOrder.reunite (h : b.InOrder) (p : Nat) : (b.reunite p).2.InOrder := by
  obtain ⟨r, handles⟩ := b
  cases handles with
  | none => exact h
  | some h' =>
    simp only [Buffer.reunite]
    split
    · split
      · exact Orderly.whole h
      · exact Orderly.forget h List.filter_sublist (Nat.le_refl _)
    · exact h

/-- What a read finds when it begins. -/
theorem InOrder.begin (h : b.InOrder) (limit : Nat) :
    OrderlyBetween b.ring.head (min (distance b.ring.tail b.ring.head) limit) 0
      ([.began limit b] ++ []) b := by
  refine ⟨rfl, fun _ => ⟨h, ?_⟩⟩
  have hle : b.ring.head ≤ b.ring.tail := h.next_le
  rw [distance_of_le hle]
  omega

theorem InOrder.read (h : b.InOrder) (limit : Nat) (hooks : Hooks α)
    (hlawful : b.handles = none → Always Lawful (b.momentsOf (.read limit hooks))) :
    (b.readHooked limit hooks).2.InOrder := by
  have hends := (readOrderly _ _ [.began limit b]).read hooks (h.begin limit)
  have hpast : (b.readHooked limit hooks).2.handles = none →
      Always Lawful (.began limit b :: b.insideRead limit hooks) := fun hnone =>
    (Always.of_snoc (hlawful ((b.isNone_readHooked limit hooks).1 hnone))).1
  generalize b.readHooked limit hooks = result at hends hpast ⊢
  obtain ⟨⟨ending, deliveries, replies⟩, after⟩ := result
  cases ending with
  | finished n =>
    obtain ⟨r, hring, hr⟩ := hends
    have ho : Orderly _ _ after.ring after.inUse := hring ▸ (hr.orderly hpast).1.finish
    exact inOrder_of_orderly ho
  | failed k =>
    have hr : OrderlyWithin _ _ k _ after := hends
    exact inOrder_of_orderly (hr.orderly hpast).1.giveUp

theorem Reachable.inOrder (hb : Reachable b) : b.InOrder := by
  induction hb with
  | made contents => exact Orderly.ofSlots contents
  | served _ request hlawful ih =>
    cases request with
    | op o => exact ih.perform o fun _ => hlawful
    | reset => exact ih.reset
    | split => exact ih.split
    | reunite p => exact ih.reunite p
    | info => exact ih
    | read limit hooks => exact ih.read limit hooks fun _ => hlawful

/-! ## What a split buffer is used for is lawful -/

theorem lawful_op (hsplit : b.handles ≠ none) (o : Op α) (reply : Reply α)
    (after : Buffer kind cap α) : Lawful ms (.op b o reply after) := by
  obtain ⟨r, _ | h⟩ := b
  · exact absurd rfl hsplit
  · trivial

theorem always_lawful (hsplit : b.handles ≠ none) (use : Use α) :
    Always Lawful (b.momentsOf use.request) := by
  cases use with
  | op o => exact (always_nil _).snoc (lawful_op hsplit o _ _)
  | info => exact (always_nil _).snoc trivial
  | read limit hooks =>
    let Kept (ms : List (Moment kind cap α)) (handles : Option Handles) : Prop :=
      handles ≠ none ∧ Always Lawful ([.began limit b] ++ ms)
    have hkept : ReadInvariant b.ring.head (min (distance b.ring.tail b.ring.head) limit)
        (fun _ ms other => Kept ms other.handles) (fun _ ms other => Kept ms other.handles) := by
      refine ⟨fun _ h _ => ⟨h.1, ?_⟩, fun o h => ⟨mt (isNone_perform _ o).1 h.1, ?_⟩, fun h => h⟩
      · rw [← List.append_assoc]
        exact h.2.snoc trivial
      · rw [← List.append_assoc]
        exact h.2.snoc (lawful_op h.1 o _ _)
    exact (hkept.read_of_handles hooks ⟨hsplit, (always_nil _).snoc trivial⟩).2.snoc trivial

theorem isNone_serve (b : Buffer kind cap α) (use : Use α) :
    (b.serve use.request).2.handles = none ↔ b.handles = none := by
  cases use with
  | op o => exact isNone_perform b o
  | info => rfl
  | read limit hooks => exact isNone_readHooked b limit hooks

/-- Whatever the handles of a buffer are used for, it comes to a state that it can come to. -/
theorem Reachable.after (hb : Reachable b) (hsplit : b.handles ≠ none) (uses : List (Use α)) :
    (b.after (uses.map Use.request)).Reachable := by
  induction uses generalizing b with
  | nil => exact hb
  | cons use uses ih =>
    exact ih (hb.served use.request (always_lawful hsplit use)) (mt (isNone_serve b use).1 hsplit)

theorem reachable_uses (contents : Vector α cap.size) (uses : List (Use α)) :
    ((ofRing (.ofSlots contents : Ring kind cap α)).split.2.after
      (uses.map Use.request)).Reachable :=
  ((Reachable.made contents).served .split ((always_nil _).snoc trivial)).after nofun uses

end Buffer

end RingTransport
