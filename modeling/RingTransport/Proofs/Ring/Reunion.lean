/-
  Reunions of a consumer with a producer, in a family of any number of buffers. A ring that is
  shared keeps the number of its shares and nothing else of its handles. That this number is
  that of the producers, and one for the consumer, holds of every buffer whatever is asked of
  it (`Buffer.Counted.serve`). Main fact: a consumer gets the whole buffer back exactly when it
  is offered the only producer of that buffer, and then the ring is as it was; any other
  producer is gone, and nothing else has changed (`reunites_iff_only_producer`).

  That nothing else has changed is told by answers: what is asked of any buffer without the
  producer that is gone is answered as if it were still there (`Family.answers_without`).
-/
import RingTransport.Proofs.Ring.Unfinished
import RingTransport.Ring.Family

namespace RingTransport

open Buffer (Hooks Moment Request)

variable {kind : Kind} {cap : Capacity} {α : Type}

/-! ## The shares of a ring -/

namespace Handles

variable {h : Handles}

/-- Each producer has a number of its own, and the ring is shared between the producers and
the consumer. -/
structure Shared (h : Handles) : Prop where
  nodup : h.producers.Nodup
  lt_next : ∀ p ∈ h.producers, p < h.nextProducer
  shares_eq : h.shares = h.producers.length + 1

theorem shared_fresh : fresh.Shared where
  nodup := List.nodup_singleton 0
  lt_next := by
    intro p hp
    rw [List.mem_singleton.1 hp]
    exact Nat.one_pos
  shares_eq := rfl

theorem Shared.addProducer (hs : h.Shared) : h.addProducer.2.Shared where
  nodup := by
    show (h.producers ++ [h.nextProducer]).Nodup
    rw [List.nodup_append]
    refine ⟨hs.nodup, List.nodup_singleton _, fun p hp q hq => ?_⟩
    rw [List.mem_singleton.1 hq]
    exact Nat.ne_of_lt (hs.lt_next p hp)
  lt_next := by
    intro p hp
    rcases List.mem_append.1 hp with hold | hnew
    · exact Nat.lt_succ_of_lt (hs.lt_next p hold)
    · rw [List.mem_singleton.1 hnew]
      exact Nat.lt_succ_self _
  shares_eq := by
    show h.shares + 1 = (h.producers ++ [h.nextProducer]).length + 1
    rw [hs.shares_eq, List.length_append, List.length_singleton]

/-- A producer that goes gives its own share back, and no other. -/
theorem Shared.length_dropProducer (hs : h.Shared) {p : Nat} (hp : p ∈ h.producers) :
    (h.dropProducer p).producers.length + 1 = h.producers.length := by
  show (h.producers.filter (· != p)).length + 1 = _
  rw [← hs.nodup.erase_eq_filter, List.length_erase_of_mem hp]
  exact Nat.sub_add_cancel (List.length_pos_of_mem hp)

theorem Shared.dropProducer (hs : h.Shared) {p : Nat} (hp : p ∈ h.producers) :
    (h.dropProducer p).Shared where
  nodup := hs.nodup.filter _
  lt_next := fun q hq => hs.lt_next q (List.mem_of_mem_filter hq)
  shares_eq := by
    rw [hs.length_dropProducer hp]
    show h.shares - 1 = _
    rw [hs.shares_eq, Nat.add_sub_cancel]

end Handles

namespace Buffer

variable {b : Buffer kind cap α}

/-- The shares of the ring are counted right. -/
def Counted (b : Buffer kind cap α) : Prop := ∀ h, b.handles = some h → h.Shared

theorem counted_ofRing (r : Ring kind cap α) : (ofRing r).Counted := nofun

theorem Counted.perform (hb : b.Counted) (o : Op α) : (b.perform o).2.Counted := by
  obtain ⟨r, handles⟩ := b
  cases handles with
  | none => exact nofun
  | some h =>
    obtain ⟨reply, r', h', hsplit, heffect⟩ := performSplit_effect h r o
    have hs : h.Shared := hb h rfl
    simp only [Buffer.perform, hsplit]
    intro other hother
    obtain rfl := Option.some.inj hother
    cases heffect with
    | claims | commits | abandons => exact ⟨hs.nodup, hs.lt_next, hs.shares_eq⟩
    | clones => exact hs.addProducer
    | drops hp => exact hs.dropProducer hp
    | fills | writes | idles => exact hs

theorem Counted.read (hb : b.Counted) (limit : Nat) (hooks : Hooks α) :
    (b.readHooked limit hooks).2.Counted := by
  let Same (_ : List (Moment kind cap α)) (handles : Option Handles) : Prop :=
    ∀ h, handles = some h → h.Shared
  have hsame : ReadInvariant b.ring.head (min (distance b.ring.tail b.ring.head) limit)
      (fun _ ms (other : Buffer kind cap α) => Same ms other.handles)
      (fun _ ms other => Same ms other.handles) :=
    ⟨fun _ h _ => h, fun o h => Counted.perform h o, fun h => h⟩
  exact hsame.read_of_handles hooks hb

theorem Counted.reunite (hb : b.Counted) (p : Nat) : (b.reunite p).2.Counted := by
  obtain ⟨r, handles⟩ := b
  cases handles with
  | none => exact hb
  | some h =>
    simp only [Buffer.reunite]
    split
    · next hp =>
      split
      · exact counted_ofRing r
      · intro other hother
        obtain rfl := Option.some.inj hother
        exact (hb h rfl).dropProducer hp
    · exact hb

/-- Whatever is asked of a buffer, the shares of its ring stay counted right. -/
theorem Counted.serve (hb : b.Counted) (request : Request α) : (b.serve request).2.Counted := by
  cases request with
  | op o => exact hb.perform o
  | info => exact hb
  | read limit hooks => exact hb.read limit hooks
  | reunite p => exact hb.reunite p
  | reset =>
    obtain ⟨r, _ | h⟩ := b
    · exact counted_ofRing _
    · exact hb
  | split =>
    obtain ⟨r, _ | h⟩ := b
    · intro h hh
      obtain rfl := Option.some.inj hh
      exact Handles.shared_fresh
    · exact hb

/-- By the shares of the ring a reunion finds out whether its producer is the only one. -/
theorem reunite_eq {r : Ring kind cap α} {h : Handles} (hs : h.Shared) {p : Nat}
    (hp : p ∈ h.producers) :
    Buffer.reunite ⟨r, some h⟩ p =
      if ∀ q ∈ h.producers, q = p then (.reunited true, ⟨r, none⟩)
      else (.reunited false, ⟨r, some (h.dropProducer p)⟩) := by
  have honly : (h.dropProducer p).shares = 1 ↔ ∀ q ∈ h.producers, q = p := by
    rw [(hs.dropProducer hp).shares_eq, Nat.add_eq_right, List.length_eq_zero_iff]
    show h.producers.filter (· != p) = [] ↔ _
    simp only [List.filter_eq_nil_iff, bne_iff_ne, ne_eq, not_not]
  simp only [Buffer.reunite, if_pos hp, honly]

end Buffer

/-! ## What is done through the other handles -/

/-- The operation is made through a producer, or through a guard of one of its claims. -/
def Op.IsThrough (h : Handles) (producer : Nat) : Op α → Prop
  | .claim p | .publish _ p | .clone p | .dropProducer p | .producerInfo p => p = producer
  | .set id _ | .get id | .commit id | .abandon id =>
    ∃ g, h.guard? id = some g ∧ g.producer = producer
  | _ => False

/-- The request has nothing to do with a producer: an operation that is not made through it, or
a read whose callbacks make no operation. -/
def Buffer.Request.Spares (h : Handles) (producer : Nat) : Request α → Prop
  | .op o => ¬ o.IsThrough h producer
  | .info => True
  | .read _ hooks => hooks = []
  | _ => False

namespace Handles

variable {h : Handles} {p q : Nat}

theorem mem_dropProducer_iff : q ∈ (h.dropProducer p).producers ↔ q ∈ h.producers ∧ q ≠ p := by
  rw [dropProducer, List.mem_filter, bne_iff_ne]

/-- The guards of other producers are still found by their numbers. -/
theorem guard?_dropProducer {id : Nat} (hother : ∀ g, h.guard? id = some g → g.producer ≠ p) :
    (h.dropProducer p).guard? id = h.guard? id := by
  show (h.guards.filter (·.producer != p)).find? (·.id == id) = _
  rw [List.find?_filter]
  cases hid : h.guard? id with
  | none =>
    rw [List.find?_eq_none]
    intro g hg
    have hmiss := List.find?_eq_none.1 hid g hg
    exact fun hboth => hmiss (of_decide_eq_true hboth).2
  | some g =>
    obtain ⟨hmatch, before, later, hguards, hbefore⟩ := List.find?_eq_some_iff_append.1 hid
    rw [List.find?_eq_some_iff_append]
    refine ⟨decide_eq_true ⟨bne_iff_ne.2 (hother g hid), hmatch⟩, before, later, hguards, ?_⟩
    intro other hin
    have hmiss := hbefore other hin
    rw [Bool.not_eq_true'] at hmiss ⊢
    exact decide_eq_false fun hboth => Bool.noConfusion (hmiss.symm.trans hboth.2)

theorem addGuard_dropProducer (hne : q ≠ p) (seq : Nat) :
    (h.dropProducer p).addGuard q seq =
      ((h.addGuard q seq).1, (h.addGuard q seq).2.dropProducer p) := by
  simp [addGuard, dropProducer, hne]

theorem dropGuard_dropProducer (id : Nat) :
    (h.dropProducer p).dropGuard id = (h.dropGuard id).dropProducer p := by
  simp only [dropGuard, dropProducer, List.filter_filter, Bool.and_comm]

theorem dropProducer_comm :
    (h.dropProducer p).dropProducer q = (h.dropProducer q).dropProducer p := by
  simp only [dropProducer, List.filter_filter, Bool.and_comm]

theorem Shared.addProducer_dropProducer (hs : h.Shared) (hp : p ∈ h.producers) :
    (h.dropProducer p).addProducer = (h.addProducer.1, h.addProducer.2.dropProducer p) := by
  have hnew : h.nextProducer ≠ p := (Nat.ne_of_lt (hs.lt_next p hp)).symm
  have hshares : h.shares - 1 + 1 = h.shares + 1 - 1 := by
    have heq := hs.shares_eq
    omega
  simp [Handles.addProducer, Handles.dropProducer, hnew, hshares]

end Handles

namespace Buffer

variable {r : Ring kind cap α} {h : Handles} {p : Nat}

/-- A buffer without one of its producers. -/
def without (b : Buffer kind cap α) (p : Nat) : Buffer kind cap α :=
  ⟨b.ring, b.handles.map (·.dropProducer p)⟩

/-- What is not done through a producer has the same answer, and does the same, whether the
producer is gone or not. -/
theorem performSplit_dropProducer (hs : h.Shared) (hp : p ∈ h.producers) {o : Op α}
    (ho : ¬ o.IsThrough h p) :
    performSplit (h.dropProducer p) r o = ((performSplit h r o).1, (performSplit h r o).2.1,
      (performSplit h r o).2.2.dropProducer p) := by
  have hmem {q : Nat} (hne : q ≠ p) : q ∈ (h.dropProducer p).producers ↔ q ∈ h.producers :=
    Handles.mem_dropProducer_iff.trans (and_iff_left hne)
  have hguard {id : Nat} (hnot : ¬ ∃ g, h.guard? id = some g ∧ g.producer = p) :
      (h.dropProducer p).guard? id = h.guard? id :=
    Handles.guard?_dropProducer fun g hid heq => hnot ⟨g, hid, heq⟩
  cases o with
  | claim q =>
    simp only [performSplit, hmem ho]
    split
    · split
      · rfl
      · rw [Handles.addGuard_dropProducer ho]
    · rfl
  | publish x q =>
    simp only [performSplit, hmem ho]
    split
    · split <;> rfl
    · rfl
  | clone q =>
    simp only [performSplit, hmem ho]
    split
    · rw [hs.addProducer_dropProducer hp]
    · rfl
  | dropProducer q =>
    simp only [performSplit, hmem ho]
    split
    · rw [Handles.dropProducer_comm]
    · rfl
  | producerInfo q =>
    simp only [performSplit, hmem ho]
    split <;> rfl
  | set id | get id =>
    simp only [performSplit, hguard ho]
    split <;> rfl
  | commit id | abandon id =>
    simp only [performSplit, hguard ho, Handles.dropGuard_dropProducer]
    split <;> rfl
  | tryClaim | write | peek | commitIndex | dump => rfl

/-- A read whose callbacks do nothing does not look at the handles. -/
theorem scan_hooked_nil (start left count : Nat) (r : Ring kind cap α) (log : ReadLog α)
    (handles : Option Handles) :
    Ring.scan (hooked []) start left count r ⟨handles, log.deliveries, log.replies⟩ =
      ((Ring.scan (hooked []) start left count r log).1,
        (Ring.scan (hooked []) start left count r log).2.1,
        ⟨handles, (Ring.scan (hooked []) start left count r log).2.2.deliveries,
          (Ring.scan (hooked []) start left count r log).2.2.replies⟩) ∧
      (Ring.scan (hooked []) start left count r log).2.2.handles = log.handles := by
  induction left generalizing count r log with
  | zero => exact ⟨rfl, rfl⟩
  | succ left ih =>
    simp only [Ring.scan]
    split
    · exact ih (count + 1) _ ⟨log.handles, _ :: log.deliveries, log.replies⟩
    · exact ⟨rfl, rfl⟩

theorem serve_without (hs : h.Shared) (hp : p ∈ h.producers) {request : Request α}
    (hspare : request.Spares h p) :
    (without ⟨r, some h⟩ p).serve request =
      ((serve ⟨r, some h⟩ request).1, (serve ⟨r, some h⟩ request).2.without p) := by
  cases request with
  | op o =>
    simp only [serve, without, Option.map_some, perform, performSplit_dropProducer hs hp hspare]
  | info => rfl
  | read limit hooks =>
    obtain rfl : hooks = [] := hspare
    obtain ⟨hgone, hkept⟩ := scan_hooked_nil r.head (min (distance r.tail r.head) limit) 0 r
      ⟨some h, [], []⟩ (some (h.dropProducer p))
    simp only [serve, without, readHooked, Ring.readLimit, Option.map_some, hgone, hkept]
  | reset | split | reunite => exact hspare.elim

/-- What has nothing to do with a producer leaves it live. -/
theorem handles_of_spares (hp : p ∈ h.producers) {request : Request α}
    (hspare : request.Spares h p) :
    ∃ h', (serve ⟨r, some h⟩ request).2.handles = some h' ∧ p ∈ h'.producers := by
  cases request with
  | op o =>
    obtain ⟨reply, r', h', hsplit, heffect⟩ := performSplit_effect h r o
    have hafter : (serve ⟨r, some h⟩ (.op o)).2.handles = some h' := by
      simp only [serve, perform, hsplit]
    refine ⟨h', hafter, ?_⟩
    cases heffect with
    | clones => exact List.mem_append_left _ hp
    | drops => exact Handles.mem_dropProducer_iff.2 ⟨hp, fun heq => hspare heq.symm⟩
    | claims | fills | writes | commits | abandons | idles => exact hp
  | info => exact ⟨h, rfl, hp⟩
  | read limit hooks =>
    obtain rfl : hooks = [] := hspare
    exact ⟨h, (scan_hooked_nil r.head (min (distance r.tail r.head) limit) 0 r ⟨some h, [], []⟩
      none).2, hp⟩
  | reset | split | reunite => exact hspare.elim

end Buffer

/-! ## Families -/

namespace Family

/-- New buffers over given contents, all of them whole. -/
def made (contents : List ((cap : Capacity) × Vector α cap.size)) : Family kind α :=
  contents.map fun c => ⟨c.1, .ofRing (.ofSlots c.2)⟩

/-- The family that requests leave. -/
def after (bs : Family kind α) (requests : List (Request α)) : Family kind α :=
  requests.foldl (fun bs request => (bs.serve request).2) bs

/-- What the buffers can be asked for when a request to the family is served: the number of the
buffer, and the request that it gets. -/
def Request.parts : Request α → List (Nat × Buffer.Request α)
  | .to n request => [(n, request)]
  | .reunite consumer p =>
    [(consumer, .reunite p.number), (p.buffer, .op (.dropProducer p.number))]

variable {bs : Family kind α} {n : Nat} {m : (cap : Capacity) × Buffer kind cap α}

theorem serveAt_of_mem (hm : bs[n]? = some m) (request : Buffer.Request α) :
    bs.serveAt n request = ((m.2.serve request).1, bs.set n ⟨m.1, (m.2.serve request).2⟩) := by
  induction bs generalizing n with
  | nil => cases hm
  | cons b bs ih =>
    cases n with
    | zero =>
      obtain rfl : b = m := Option.some.inj hm
      rfl
    | succ n => simp only [serveAt, ih hm, List.set_cons_succ]

theorem serveAt_of_none (hnone : bs[n]? = none) (request : Buffer.Request α) :
    bs.serveAt n request = (.reply .misuse, bs) := by
  induction bs generalizing n with
  | nil => rfl
  | cons b bs ih =>
    cases n with
    | zero => cases hnone
    | succ n => simp only [serveAt, ih hnone]

/-- A request leaves a buffer alone, or the buffer serves a part of it. -/
theorem serve_cases (bs : Family kind α) (request : Request α) (n : Nat) :
    (bs.serve request).2[n]? = bs[n]? ∨ ∃ m, bs[n]? = some m ∧ ∃ part, (n, part) ∈ request.parts ∧
      (bs.serve request).2[n]? = some ⟨m.1, (m.2.serve part).2⟩ := by
  have hone (k : Nat) (part : Buffer.Request α) : (bs.serveAt k part).2[n]? = bs[n]? ∨
      ∃ m, bs[n]? = some m ∧ n = k ∧
        (bs.serveAt k part).2[n]? = some ⟨m.1, (m.2.serve part).2⟩ := by
    cases hm : bs[k]? with
    | none => exact .inl (by rw [serveAt_of_none hm])
    | some m =>
      rw [serveAt_of_mem hm]
      by_cases hk : n = k
      · subst hk
        exact .inr ⟨m, hm, rfl, List.getElem?_set_self (List.getElem?_eq_some_iff.1 hm).1⟩
      · exact .inl (List.getElem?_set_ne (Ne.symm hk))
  obtain ⟨k, part⟩ | ⟨consumer, p⟩ := request
  · exact (hone k part).imp_right fun ⟨m, hm, hk, hset⟩ =>
      ⟨m, hm, part, hk ▸ List.mem_singleton_self _, hset⟩
  · simp only [serve]
    split
    · exact (hone consumer (.reunite p.number)).imp_right fun ⟨m, hm, hk, hset⟩ =>
        ⟨m, hm, _, hk ▸ List.mem_cons_self .., hset⟩
    · split
      · exact .inl rfl
      · have hdrop := hone p.buffer (.op (.dropProducer p.number))
        split <;>
        · next heq =>
          rw [heq] at hdrop
          exact hdrop.imp_right fun ⟨m, hm, hk, hset⟩ =>
            ⟨m, hm, _, hk ▸ List.mem_cons_of_mem _ (List.mem_singleton_self _), hset⟩

/-- What a buffer keeps of each part that it serves, it keeps of all requests. -/
theorem after_keeps {I : (cap : Capacity) × Buffer kind cap α → Prop}
    {requests : List (Request α)}
    (hkeep : ∀ request ∈ requests, ∀ part, (n, part) ∈ request.parts → ∀ m, I m →
      I ⟨m.1, (m.2.serve part).2⟩)
    (h : ∀ m, bs[n]? = some m → I m) : ∀ m, (bs.after requests)[n]? = some m → I m := by
  induction requests generalizing bs with
  | nil => exact h
  | cons request requests ih =>
    refine ih (fun other hother => hkeep other (List.mem_cons_of_mem _ hother)) fun m hm => ?_
    rcases bs.serve_cases request n with hsame | ⟨m₀, hm₀, part, hpart, hset⟩
    · exact h m (hsame ▸ hm)
    · obtain rfl := Option.some.inj (hset.symm.trans hm)
      exact hkeep request (List.mem_cons_self ..) part hpart m₀ (h m₀ hm₀)

/-- The shares of every ring are counted right. -/
def Counted (bs : Family kind α) : Prop :=
  ∀ (n : Nat) (m : (cap : Capacity) × Buffer kind cap α), bs[n]? = some m → m.2.Counted

theorem Counted.after (h : bs.Counted) (requests : List (Request α)) :
    (bs.after requests).Counted :=
  fun n => after_keeps (fun _ _ part _ _ hm => hm.serve part) (h n)

theorem counted_made (contents : List ((cap : Capacity) × Vector α cap.size)) :
    (made contents : Family kind α).Counted := by
  intro n m hm
  obtain ⟨c, -, rfl⟩ := List.mem_map.1 (List.mem_of_getElem? hm)
  exact Buffer.counted_ofRing _

/-- No slot is committed by its number. -/
def ByHandles (requests : List (Request α)) : Prop :=
  ∀ request ∈ requests, ∀ part ∈ request.parts, ∀ i, ¬ part.2.Asks (.commitIndex i)

theorem reachable_after (contents : List ((cap : Capacity) × Vector α cap.size))
    {requests : List (Request α)} (hby : ByHandles requests) :
    ∀ m, ((made contents : Family kind α).after requests)[n]? = some m → m.2.Reachable := by
  refine after_keeps (fun request hrequest part hpart m hm => ?_) fun m hm => ?_
  · exact hm.served part (Buffer.always_lawful_of_no_commit (hby request hrequest _ hpart))
  · obtain ⟨c, -, rfl⟩ := List.mem_map.1 (List.mem_of_getElem? hm)
    exact .made c.2

/-! ## Producers of a family -/

/-- The producer is a live handle of a buffer. -/
def Live (bs : Family kind α) (p : ProducerRef) : Prop :=
  ∃ h, bs.handlesOf p.buffer = some h ∧ p.number ∈ h.producers

/-- The producer is the only one of the consumer's buffer. -/
def OnlyProducer (bs : Family kind α) (consumer : Nat) (p : ProducerRef) : Prop :=
  p.buffer = consumer ∧ bs.Live p ∧ ∀ q, bs.Live q → q.buffer = consumer → q = p

/-- The family when a producer is gone. -/
def without (bs : Family kind α) (p : ProducerRef) : Family kind α :=
  bs.modify p.buffer fun m => ⟨m.1, m.2.without p.number⟩

variable {cap : Capacity} {r : Ring kind cap α} {h : Handles} {p q : ProducerRef} {consumer : Nat}

theorem handlesOf_of_mem (hm : bs[n]? = some ⟨cap, ⟨r, some h⟩⟩) : bs.handlesOf n = some h := by
  rw [handlesOf, hm]
  rfl

theorem Live.mem (hp : bs.Live p) : ∃ cap, ∃ r : Ring kind cap α, ∃ h,
    bs[p.buffer]? = some ⟨cap, ⟨r, some h⟩⟩ ∧ p.number ∈ h.producers := by
  obtain ⟨h, hh, hmem⟩ := hp
  obtain ⟨⟨cap, r, handles⟩, hm, hhandles⟩ := Option.bind_eq_some_iff.1 hh
  obtain rfl : handles = some h := hhandles
  exact ⟨cap, r, h, hm, hmem⟩

theorem without_eq (hm : bs[p.buffer]? = some m) :
    bs.without p = bs.set p.buffer ⟨m.1, m.2.without p.number⟩ := by
  rw [without, List.modify_eq_set_getElem?, hm]
  rfl

theorem getElem?_without_self : (bs.without p)[p.buffer]? =
    bs[p.buffer]?.map fun m => ⟨m.1, m.2.without p.number⟩ := by
  rw [without, List.getElem?_modify_eq]
  rfl

theorem getElem?_without_ne (hn : n ≠ p.buffer) : (bs.without p)[n]? = bs[n]? := by
  rw [without, List.getElem?_modify_ne _ _ (Ne.symm hn)]

theorem handlesOf_without_self :
    (bs.without p).handlesOf p.buffer = (bs.handlesOf p.buffer).map (·.dropProducer p.number) := by
  rw [handlesOf, handlesOf, getElem?_without_self]
  cases bs[p.buffer]? <;> rfl

theorem handlesOf_without_ne (hn : n ≠ p.buffer) : (bs.without p).handlesOf n = bs.handlesOf n := by
  rw [handlesOf, handlesOf, getElem?_without_ne hn]

theorem isSome_handlesOf_without :
    ((bs.without p).handlesOf n).isSome = (bs.handlesOf n).isSome := by
  by_cases hn : n = p.buffer
  · rw [hn, handlesOf_without_self, Option.isSome_map]
  · rw [handlesOf_without_ne hn]

theorem live_without : (bs.without p).Live q ↔ bs.Live q ∧ q ≠ p := by
  by_cases hq : q.buffer = p.buffer
  · have hne : q ≠ p ↔ q.number ≠ p.number := by
      refine not_congr ⟨congrArg _, fun hnumber => ?_⟩
      obtain ⟨buffer, number⟩ := q
      obtain rfl : buffer = p.buffer := hq
      obtain rfl : number = p.number := hnumber
      rfl
    rw [Live, Live, hq, handlesOf_without_self, hne]
    simp only [Option.map_eq_some_iff]
    constructor
    · rintro ⟨-, ⟨h, hh, rfl⟩, hmem⟩
      obtain ⟨hold, hnumber⟩ := Handles.mem_dropProducer_iff.1 hmem
      exact ⟨⟨h, hh, hold⟩, hnumber⟩
    · rintro ⟨⟨h, hh, hold⟩, hnumber⟩
      exact ⟨_, ⟨h, hh, rfl⟩, Handles.mem_dropProducer_iff.2 ⟨hold, hnumber⟩⟩
  · have hne : q ≠ p := fun heq => hq (heq ▸ rfl)
    rw [Live, Live, handlesOf_without_ne hq]
    exact (and_iff_left hne).symm

/-- A request that has nothing to do with a producer leaves it live. -/
theorem live_of_spares (hp : bs.Live p) {part : Buffer.Request α}
    (hspare : n = p.buffer → ∀ h, bs.handlesOf n = some h → part.Spares h p.number) :
    (bs.serve (.to n part)).2.Live p := by
  obtain ⟨cap, r, h, hm, hmem⟩ := hp.mem
  rcases bs.serve_cases (.to n part) p.buffer with hsame | ⟨m, hm', other, hpart, hset⟩
  · exact ⟨h, handlesOf_of_mem (hsame.trans hm), hmem⟩
  · obtain rfl := Option.some.inj (hm.symm.trans hm')
    obtain ⟨rfl, rfl⟩ := Prod.mk.inj (List.mem_singleton.1 hpart)
    obtain ⟨h', hh', hmem'⟩ := (Buffer.handles_of_spares (r := r) hmem
      (hspare rfl h (handlesOf_of_mem hm)))
    exact ⟨h', by rw [handlesOf, hset]; exact hh', hmem'⟩

/-- What has nothing to do with a producer goes the same way when the producer is gone. -/
theorem serve_without (hcounted : bs.Counted) (hp : bs.Live p)
    {part : Buffer.Request α}
    (hspare : n = p.buffer → ∀ h, bs.handlesOf n = some h → part.Spares h p.number) :
    (bs.without p).serve (.to n part) =
      ((bs.serve (.to n part)).1, (bs.serve (.to n part)).2.without p) := by
  obtain ⟨cap, r, h, hm, hmem⟩ := hp.mem
  show (bs.without p).serveAt n part =
    ((bs.serveAt n part).1, (bs.serveAt n part).2.without p)
  by_cases hn : n = p.buffer
  · subst hn
    have hone := Buffer.serve_without (r := r) (hcounted _ _ hm h rfl) hmem
      (hspare rfl h (handlesOf_of_mem hm))
    have hgone : (bs.without p)[p.buffer]? = some ⟨cap, Buffer.without ⟨r, some h⟩ p.number⟩ := by
      rw [getElem?_without_self, hm]
      rfl
    rw [serveAt_of_mem hm, serveAt_of_mem hgone, hone, without_eq hm,
      without_eq (List.getElem?_set_self (List.getElem?_eq_some_iff.1 hm).1), List.set_set,
      List.set_set]
  · have hsame : (bs.without p)[n]? = bs[n]? := getElem?_without_ne hn
    cases hother : bs[n]? with
    | none => rw [serveAt_of_none hother, serveAt_of_none (hsame.trans hother)]
    | some m =>
      have hset : (bs.set n ⟨m.1, (m.2.serve part).2⟩)[p.buffer]? = some ⟨cap, ⟨r, some h⟩⟩ :=
        (List.getElem?_set_ne hn).trans hm
      rw [serveAt_of_mem hother, serveAt_of_mem (hsame.trans hother), without_eq hm,
        without_eq hset, List.set_comm _ _ (Ne.symm hn)]

/-- The answers to requests, one after another, each to the buffer of a number. -/
def answers : Family kind α → List (Nat × Buffer.Request α) → List (Buffer.Answer α)
  | _, [] => []
  | bs, (n, part) :: rest =>
    let (answer, bs) := bs.serve (.to n part)
    answer :: answers bs rest

/-- Each of the requests, when its turn comes, has nothing to do with a producer. -/
def AllSpare (p : ProducerRef) : Family kind α → List (Nat × Buffer.Request α) → Prop
  | _, [] => True
  | bs, (n, part) :: rest =>
    (n = p.buffer → ∀ h, bs.handlesOf n = some h → part.Spares h p.number) ∧
      AllSpare p (bs.serve (.to n part)).2 rest

theorem answers_without (hcounted : bs.Counted) (hp : bs.Live p)
    {requests : List (Nat × Buffer.Request α)} (hspare : AllSpare p bs requests) :
    (bs.without p).answers requests = bs.answers requests := by
  induction requests generalizing bs with
  | nil => rfl
  | cons request rest ih =>
    obtain ⟨n, part⟩ := request
    obtain ⟨hfirst, hrest⟩ := hspare
    have hcounted' := hcounted.after [.to n part]
    simp only [answers, serve_without hcounted hp hfirst]
    exact congrArg _ (ih hcounted' (live_of_spares hp hfirst) hrest)

/-! ## Reunions -/

theorem onlyProducer_iff (hm : bs[consumer]? = some ⟨cap, ⟨r, some h⟩⟩) :
    bs.OnlyProducer consumer p ↔
      p.buffer = consumer ∧ p.number ∈ h.producers ∧ ∀ k ∈ h.producers, k = p.number := by
  have hhandles := handlesOf_of_mem hm
  constructor
  · rintro ⟨rfl, ⟨h', hh', hmem⟩, honly⟩
    obtain rfl := Option.some.inj (hhandles.symm.trans hh')
    exact ⟨rfl, hmem, fun k hk =>
      congrArg ProducerRef.number (honly ⟨p.buffer, k⟩ ⟨h, hhandles, hk⟩ rfl)⟩
  · rintro ⟨rfl, hmem, hall⟩
    refine ⟨rfl, ⟨h, hhandles, hmem⟩, ?_⟩
    rintro ⟨buffer, number⟩ ⟨h', hh', hk⟩ hsame
    obtain rfl : buffer = p.buffer := hsame
    obtain rfl := Option.some.inj (hhandles.symm.trans hh')
    rw [hall number hk]

/-- The consumer is offered the only producer of its buffer. -/
theorem serve_reunite_only (hcounted : bs.Counted) (hm : bs[consumer]? = some ⟨cap, ⟨r, some h⟩⟩)
    (honly : bs.OnlyProducer consumer p) :
    bs.serve (.reunite consumer p) =
      (.reply (.reunited true), bs.set consumer ⟨cap, .ofRing r⟩) := by
  obtain ⟨hbuffer, hmem, hall⟩ := (onlyProducer_iff hm).1 honly
  simp only [serve, if_pos hbuffer, serveAt_of_mem hm, Buffer.serve,
    Buffer.reunite_eq (hcounted _ _ hm h rfl) hmem, if_pos hall, Buffer.ofRing]

/-- The consumer is offered any other producer. -/
theorem serve_reunite_other (hcounted : bs.Counted) (hm : bs[consumer]? = some ⟨cap, ⟨r, some h⟩⟩)
    (hp : bs.Live p) (hnot : ¬ bs.OnlyProducer consumer p) :
    bs.serve (.reunite consumer p) = (.reply (.reunited false), bs.without p) := by
  obtain ⟨cap', r', h', hm', hmem⟩ := hp.mem
  rw [without_eq hm']
  by_cases hbuffer : p.buffer = consumer
  · subst hbuffer
    cases Option.some.inj (hm.symm.trans hm')
    have hmore : ¬ ∀ k ∈ h.producers, k = p.number := fun hall =>
      hnot ((onlyProducer_iff hm).2 ⟨rfl, hmem, hall⟩)
    simp only [serve, if_true, serveAt_of_mem hm, Buffer.serve,
      Buffer.reunite_eq (hcounted _ _ hm h rfl) hmem, if_neg hmore]
    rfl
  · have hsome : (bs.handlesOf consumer).isNone = false := by
      rw [handlesOf_of_mem hm]
      rfl
    simp only [serve, if_neg hbuffer, hsome, serveAt_of_mem hm', Buffer.serve, Buffer.perform,
      Buffer.performSplit, if_pos hmem]
    rfl

/-- A producer is gone from a family and nothing else: every ring is as it was, each other
producer is live, and whatever has nothing to do with the one that is gone has the answers that
it would have with it. -/
structure Loses (bs : Family kind α) (p : ProducerRef) (left : Family kind α) : Prop where
  others : ∀ n, n ≠ p.buffer → left[n]? = bs[n]?
  rings : left.map (fun m => (⟨m.1, m.2.ring⟩ : (cap : Capacity) × Ring kind cap α)) =
    bs.map fun m => ⟨m.1, m.2.ring⟩
  isSome : ∀ n, (left.handlesOf n).isSome = (bs.handlesOf n).isSome
  live : ∀ q, left.Live q ↔ bs.Live q ∧ q ≠ p
  usable : ∀ requests, AllSpare p bs requests → left.answers requests = bs.answers requests

theorem loses_without (hcounted : bs.Counted) (hp : bs.Live p) : Loses bs p (bs.without p) where
  others := fun n hn => getElem?_without_ne hn
  rings := by
    refine List.ext_getElem? fun n => ?_
    rw [List.getElem?_map, List.getElem?_map]
    by_cases hn : n = p.buffer
    · rw [hn, getElem?_without_self, Option.map_map]
      rfl
    · rw [getElem?_without_ne hn]
  isSome := fun n => isSome_handlesOf_without
  live := fun q => live_without
  usable := fun requests hspare => answers_without hcounted hp hspare

theorem ne_reset_of_mem_parts {request : Request α} (hreset : request ≠ .to n .reset)
    {part : Buffer.Request α} (hpart : (n, part) ∈ request.parts) : part ≠ .reset := by
  rintro rfl
  obtain ⟨k, part⟩ | ⟨consumer, p⟩ := request
  · obtain ⟨rfl, rfl⟩ := Prod.mk.inj (List.mem_singleton.1 hpart)
    exact hreset rfl
  · simp [Request.parts] at hpart

/-- A number that nobody holds stays so while the buffer is not reset. -/
theorem left_after (contents : List ((cap : Capacity) × Vector α cap.size))
    {early late : List (Request α)} (hby : ByHandles (early ++ late))
    (hreset : ∀ request ∈ late, request ≠ .to n .reset) {s : Nat}
    (hleft : ∀ m, ((made contents : Family kind α).after early)[n]? = some m → m.2.Left s) :
    ∀ m, ((made contents : Family kind α).after (early ++ late))[n]? = some m → m.2.Left s := by
  have hearly : ByHandles early := fun request hin => hby request (List.mem_append_left _ hin)
  have hboth : ∀ m, (((made contents : Family kind α).after early).after late)[n]? = some m →
      m.2.Reachable ∧ m.2.Left s := by
    refine after_keeps (fun request hrequest part hpart m ⟨hreach, hm⟩ => ?_)
      fun m hm => ⟨reachable_after contents hearly m hm, hleft m hm⟩
    have hno := hby request (List.mem_append_right _ hrequest) _ hpart
    exact ⟨hreach.served part (Buffer.always_lawful_of_no_commit hno),
      hm.serve hreach.inOrder (ne_reset_of_mem_parts (hreset request hrequest) hpart) hno⟩
  rw [after, List.foldl_append]
  exact fun m hm => (hboth m hm).2

/-- A consumer has its whole buffer back. The ring is as it was: the numbers that are not
finished are still counted by its length, and no read gets to one of them unless its own
callback commits the slot. -/
structure Regains (bs : Family kind α) (consumer : Nat) (r : Ring kind cap α)
    (left : Family kind α) : Prop where
  whole : left[consumer]? = some ⟨cap, .ofRing r⟩
  others : ∀ n, n ≠ consumer → left[n]? = bs[n]?
  counts : ∀ s, r.Unfinished s → s < r.head + r.len
  blocks : ∀ s, r.Unfinished s → ∀ limit hooks,
    CommittedIn s ((Buffer.ofRing r).insideRead limit hooks) ∨
      ∀ d ∈ ((Buffer.ofRing r).readHooked limit hooks).1.deliveries, d.seq < s

theorem regains_set (hm : bs[consumer]? = some ⟨cap, ⟨r, some h⟩⟩) :
    Regains bs consumer r (bs.set consumer ⟨cap, .ofRing r⟩) where
  whole := List.getElem?_set_self (List.getElem?_eq_some_iff.1 hm).1
  others := fun _ hn => List.getElem?_set_ne (Ne.symm hn)
  counts := fun _ hs => hs.counts
  blocks := fun _ hs limit hooks => (hs.blocks limit hooks).imp_right And.right

/-- Buffers of any capacities, in any state that requests of all sorts bring them to, where a
consumer is offered a live producer. It gets its buffer back if and only if the producer is of
that buffer and no other producer of it is live. Then the ring is as it was; if no slot was ever
committed by its number, the claims that the guards hold and those that were abandoned at any
time since the buffer was last reset are unfinished in it. Otherwise the producer is gone and
nothing else, and whenever a later history leaves the consumer's buffer one producer, a reunion
with that one succeeds. -/
theorem reunites_iff_only_producer {kind : Kind} {α : Type}
    (contents : List ((cap : Capacity) × Vector α cap.size)) (past : List (Request α))
    (consumer : Nat) (p : ProducerRef) {cap : Capacity} {r : Ring kind cap α} {h : Handles} :
    let bs : Family kind α := (made contents).after past
    bs[consumer]? = some ⟨cap, ⟨r, some h⟩⟩ → bs.Live p →
      let (answer, left) := bs.serve (.reunite consumer p)
      (answer = .reply (.reunited true) ↔ bs.OnlyProducer consumer p) ∧
      (bs.OnlyProducer consumer p → Regains bs consumer r left ∧
        (ByHandles past → (∀ g ∈ h.guards, r.Unfinished g.seq) ∧
          ∀ early late, past = early ++ late → (∀ request ∈ late, request ≠ .to consumer .reset) →
            ∀ m s, ((made contents : Family kind α).after early)[consumer]? = some m →
              m.2.Left s → r.Unfinished s)) ∧
      (¬ bs.OnlyProducer consumer p → answer = .reply (.reunited false) ∧ Loses bs p left ∧
        ∀ later q, (left.after later).OnlyProducer consumer q →
          ((left.after later).serve (.reunite consumer q)).1 = .reply (.reunited true)) := by
  intro bs hm hp
  have hcounted : bs.Counted := (counted_made contents).after past
  by_cases honly : bs.OnlyProducer consumer p
  · rw [serve_reunite_only hcounted hm honly]
    refine ⟨iff_of_true rfl honly, fun _ => ⟨regains_set hm, fun hby => ⟨fun g hg => ?_, ?_⟩⟩,
      fun hnot => absurd honly hnot⟩
    · obtain ⟨hle, hlt, hopen⟩ := (reachable_after contents hby _ hm).inOrder.held g hg
      exact ⟨hle, hlt, hopen⟩
    · rintro early late rfl hreset m₀ s hm₀ hleft
      refine (left_after contents hby hreset (fun m hearly => ?_) _ hm).unfinished
      obtain rfl := Option.some.inj (hm₀.symm.trans hearly)
      exact hleft
  · rw [serve_reunite_other hcounted hm hp honly]
    refine ⟨iff_of_false nofun honly, fun honly' => absurd honly' honly,
      fun _ => ⟨rfl, loses_without hcounted hp, fun later q hq => ?_⟩⟩
    have hcounted' := hcounted.after (.reunite consumer p :: later)
    rw [after, List.foldl_cons, serve_reunite_other hcounted hm hp honly] at hcounted'
    obtain ⟨cap', r', h', hm', -⟩ := hq.2.1.mem
    rw [hq.1] at hm'
    exact congrArg Prod.fst (serve_reunite_only hcounted' hm' hq)

/-- Two buffers of two slots. The producer of the first has a clone. -/
def cloned : List (Request Nat) := [.to 0 .split, .to 1 .split, .to 0 (.op (.clone 0))]

/-- Its claim of number 0 is abandoned, and the consumer is offered this producer in vain, and
then the producer of the second buffer. -/
def turnedAway : List (Request Nat) :=
  [.to 0 (.op (.claim 0)), .to 0 (.op (.abandon 0)), .reunite 0 ⟨0, 0⟩, .reunite 0 ⟨1, 0⟩]

/-- The clone is now the only producer of the first buffer, and brings it back, where number 0 is
unfinished. -/
theorem clone_reunites :
    let bs : Family .manyProducers Nat :=
      (made [⟨⟨2, rfl⟩, #v[10, 11]⟩, ⟨⟨2, rfl⟩, #v[20, 21]⟩]).after (cloned ++ turnedAway)
    bs.OnlyProducer 0 ⟨0, 1⟩ ∧ (bs.serve (.reunite 0 ⟨0, 1⟩)).1 = .reply (.reunited true) ∧
      ∃ r : Ring .manyProducers ⟨2, rfl⟩ Nat, Regains bs 0 r (bs.serve (.reunite 0 ⟨0, 1⟩)).2 ∧
        r.Unfinished 0 := by
  intro bs
  let r : Ring .manyProducers ⟨2, rfl⟩ Nat := ⟨0, 1, #v[.claimed, .empty], #v[10, 11]⟩
  have hm : bs[0]? = some ⟨⟨2, rfl⟩, ⟨r, some ⟨[1], 2, [], 1, 2⟩⟩⟩ := rfl
  have hp : bs.Live ⟨0, 1⟩ := ⟨_, handlesOf_of_mem hm, List.mem_singleton_self 1⟩
  have honly : bs.OnlyProducer 0 ⟨0, 1⟩ :=
    (onlyProducer_iff hm).2 ⟨rfl, List.mem_singleton_self 1, fun k hk => List.mem_singleton.1 hk⟩
  have hby : ByHandles (cloned ++ turnedAway) := by
    simp [ByHandles, cloned, turnedAway, Request.parts, Buffer.Request.Asks, -Prod.forall]
  obtain ⟨hiff, hregains, -⟩ := reunites_iff_only_producer _ _ 0 ⟨0, 1⟩ hm hp
  obtain ⟨hregains, hclaims⟩ := hregains honly
  refine ⟨honly, hiff.2 honly, r, hregains, ?_⟩
  have habandoned : cloned ++ turnedAway = (cloned ++ turnedAway.take 2) ++ turnedAway.drop 2 := rfl
  refine (hclaims hby).2 _ _ habandoned (by simp [turnedAway]) _ 0 rfl ?_
  exact ⟨by decide, by decide, by decide, nofun⟩

end Family

end RingTransport
