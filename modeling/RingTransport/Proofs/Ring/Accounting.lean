/-
  A whole buffer under any use by raw slot numbers: slots are written and committed whether
  they are claimed or not, and callbacks do the same and may fail. An account is kept of what
  the owner sees (`Account`): the claims that succeeded and the messages that reads counted,
  both since the last reset, and how far a read has come. Main fact: at every moment, also
  inside the callbacks, the account gives the length of the ring, the answer of every claim
  and the slot of every message that is handed over (`raw_use_accounted`).

  The marks play no part in it. The head is the number of counted messages and the tail that of
  the claims (`Account.Tallies`), whatever the marks are.
-/
import RingTransport.Proofs.Ring.Moments

namespace RingTransport

open RingTransport.Ring (Delivery ReadEnd)
open Buffer (Always Hooks Moment Request)

variable {kind : Kind} {cap : Capacity} {α : Type}

/-- What the owner of a whole buffer does with it. -/
inductive RawUse (α : Type) where
  | op (o : Op α)
  | reset
  | info
  | read (limit : Nat) (hooks : Hooks α)

/-- The request to the buffer. -/
def RawUse.request : RawUse α → Request α
  | .op o => .op o
  | .reset => .reset
  | .info => .info
  | .read limit hooks => .read limit hooks

/-- The slot number that an operation is given. -/
def Op.slot? : Op α → Option Nat
  | .write i _ | .peek i | .commitIndex i => some i
  | _ => none

/-- A ring whose next number was claimed. -/
def Ring.claimNext (r : Ring kind cap α) : Ring kind cap α :=
  (r.setTail (r.tail + 1)).markClaimed r.tail

@[simp] theorem Ring.head_claimNext (r : Ring kind cap α) : r.claimNext.head = r.head :=
  Ring.head_markClaimed ..

@[simp] theorem Ring.tail_claimNext (r : Ring kind cap α) : r.claimNext.tail = r.tail + 1 :=
  Ring.tail_markClaimed ..

theorem Ring.tryClaim_cases (r : Ring kind cap α) :
    r.len < cap.size ∧ r.tryClaim = (some r.tail, r.claimNext) ∨
      ¬ r.len < cap.size ∧ r.tryClaim = (none, r) := by
  by_cases hroom : r.len < cap.size
  · exact .inl ⟨hroom, if_neg (Nat.not_le_of_lt hroom)⟩
  · exact .inr ⟨hroom, if_pos (Nat.le_of_not_lt hroom)⟩

/-- All that an operation on a whole buffer can do to its ring. -/
inductive RawEffect (r : Ring kind cap α) : Op α → Reply α → Ring kind cap α → Prop
  | claims (hroom : r.len < cap.size) :
    RawEffect r .tryClaim (.index (cap.indexOf r.tail)) r.claimNext
  | full (hfull : ¬ r.len < cap.size) : RawEffect r .tryClaim .full r
  | writes (i : Fin cap.size) (x : α) : RawEffect r (.write i x) .done (r.write i x)
  | peeks (i : Fin cap.size) : RawEffect r (.peek i) (.message (r.slots.get i)) r
  | commits (i : Fin cap.size) : RawEffect r (.commitIndex i) .done (r.commit i)
  | misses {o : Op α} {i : Nat} (hslot : o.slot? = some i) (hi : cap.size ≤ i) :
    RawEffect r o .noSlot r
  | dumps : RawEffect r .dump (.contents r.slots.toList) r
  | misuses {o : Op α} (hslot : o.slot? = none) (hclaim : o ≠ .tryClaim) : RawEffect r o .misuse r

theorem performRaw_effect (r : Ring kind cap α) (o : Op α) :
    ∃ reply r', Buffer.performRaw r o = (reply, r') ∧ RawEffect r o reply r' := by
  have hindex (i : Nat) :
      (∃ j : Fin cap.size, j.val = i ∧ Ring.index? cap i = some j) ∨
        cap.size ≤ i ∧ Ring.index? cap i = none := by
    rcases Nat.lt_or_ge i cap.size with hi | hi
    · exact .inl ⟨⟨i, hi⟩, rfl, dif_pos hi⟩
    · exact .inr ⟨hi, dif_neg (Nat.not_lt_of_le hi)⟩
  cases o with
  | tryClaim =>
    rcases r.tryClaim_cases with ⟨hroom, hclaim⟩ | ⟨hfull, hclaim⟩
    · exact ⟨_, _, by rw [Buffer.performRaw, hclaim], .claims hroom⟩
    · exact ⟨_, _, by rw [Buffer.performRaw, hclaim], .full hfull⟩
  | write i x =>
    rcases hindex i with ⟨j, rfl, hj⟩ | ⟨hi, hnone⟩
    · exact ⟨_, _, by rw [Buffer.performRaw, hj], .writes j x⟩
    · exact ⟨_, _, by rw [Buffer.performRaw, hnone], .misses rfl hi⟩
  | peek i =>
    rcases hindex i with ⟨j, rfl, hj⟩ | ⟨hi, hnone⟩
    · exact ⟨_, _, by rw [Buffer.performRaw, hj], .peeks j⟩
    · exact ⟨_, _, by rw [Buffer.performRaw, hnone], .misses rfl hi⟩
  | commitIndex i =>
    rcases hindex i with ⟨j, rfl, hj⟩ | ⟨hi, hnone⟩
    · exact ⟨_, _, by rw [Buffer.performRaw, hj], .commits j⟩
    · exact ⟨_, _, by rw [Buffer.performRaw, hnone], .misses rfl hi⟩
  | dump => exact ⟨_, _, rfl, .dumps⟩
  | claim | set | get | commit | abandon | publish | clone | dropProducer | producerInfo =>
    exact ⟨_, _, rfl, .misuses rfl nofun⟩

/-! ## The account -/

/-- How far a read has come: the messages that it may hand over at most, and those that it
has handed over. -/
structure ReadAccount where
  bound : Nat
  handed : Nat

/-- What is known of a ring from what was done with it since it was reset. -/
structure Account where
  /-- The claims that succeeded. -/
  claims : Nat
  /-- The messages counted by the reads that returned. -/
  counted : Nat
  /-- The read that is under way. -/
  reading : Option ReadAccount

namespace Account

/-- The account of a ring that was never used, or was reset. -/
def fresh : Account := ⟨0, 0, none⟩

/-- A moment is entered into the account. -/
def enter (a : Account) : Moment kind cap α → Account
  | .op _ .tryClaim (.index _) _ => { a with claims := a.claims + 1 }
  | .began limit b => { a with reading := some ⟨min limit b.ring.len, 0⟩ }
  | .handed _ _ =>
    { a with reading := a.reading.map fun read => { read with handed := read.handed + 1 } }
  | .ended (.finished n) _ => { a with counted := a.counted + n, reading := none }
  | .ended (.failed _) _ => { a with reading := none }
  | .served .reset _ => fresh
  | _ => a

/-- The account of some moments. -/
def of (ms : List (Moment kind cap α)) : Account := ms.foldl enter fresh

theorem of_snoc (ms : List (Moment kind cap α)) (m : Moment kind cap α) :
    of (ms ++ [m]) = (of ms).enter m :=
  List.foldl_append ..

/-- The length of a ring is the number of claims less that of the counted messages, and it is
at most the capacity. -/
def Balances (a : Account) (r : Ring kind cap α) : Prop :=
  a.counted + r.len = a.claims ∧ r.len ≤ cap.size

/-- What the account says of the moment that comes next. -/
def Allows (a : Account) : Moment kind cap α → Prop
  | .op before .tryClaim reply _ =>
    a.Balances before.ring ∧
      reply = if before.ring.len < cap.size then .index (a.claims % cap.size) else .full
  | .op before o reply after =>
    a.Balances before.ring ∧
      match o.slot? with
      | none => reply.isFailure = false
      | some i => if i < cap.size then reply.isFailure = false else reply = .noSlot ∧ after = before
  | .handed d b => ∃ read, a.reading = some read ∧ read.handed < read.bound ∧
    d.position = read.handed ∧ d.seq = a.counted + read.handed ∧
      b.ring.slots[(a.counted + read.handed) % cap.size]? = some d.message
  | .ended (.finished n) _ => ∃ read, a.reading = some read ∧ n = read.handed
  | .ended (.failed k) _ => ∃ read, a.reading = some read ∧ k + 1 = read.handed
  | .began _ _ | .served _ _ => a.reading = none

/-- A moment is as the account of those before it says, and the account is right after it. -/
def Explains (earlier : List (Moment kind cap α)) (m : Moment kind cap α) : Prop :=
  (of earlier).Allows m ∧ (of (earlier ++ [m])).Balances m.after.ring

/-! ## The counters are the account -/

/-- The head is the number of counted messages, and the tail that of the claims. -/
structure Tallies (a : Account) (r : Ring kind cap α) : Prop where
  head_eq : r.head = a.counted
  tail_eq : r.tail = a.claims
  head_le : r.head ≤ r.tail
  le_lap : r.tail ≤ r.head + cap.size

variable {a : Account} {r : Ring kind cap α} {ms : List (Moment kind cap α)}

theorem Tallies.len_eq (h : a.Tallies r) : r.len = r.tail - r.head := distance_of_le h.head_le

theorem Tallies.balances (h : a.Tallies r) : a.Balances r := by
  have hlen := h.len_eq
  have hhead := h.head_eq
  have htail := h.tail_eq
  have hle := h.head_le
  have hlap := h.le_lap
  unfold Balances
  omega

theorem tallies_ofSlots (contents : Vector α cap.size) :
    fresh.Tallies (.ofSlots contents : Ring kind cap α) :=
  ⟨rfl, rfl, Nat.le_refl _, Nat.zero_le _⟩

/-- Marks and contents are no matter. -/
theorem Tallies.congr {r' : Ring kind cap α} (h : a.Tallies r) (hhead : r'.head = r.head)
    (htail : r'.tail = r.tail) : a.Tallies r' where
  head_eq := hhead.trans h.head_eq
  tail_eq := htail.trans h.tail_eq
  head_le := by rw [hhead, htail]; exact h.head_le
  le_lap := by rw [hhead, htail]; exact h.le_lap

theorem Tallies.claim (h : a.Tallies r) (hroom : r.len < cap.size) :
    { a with claims := a.claims + 1 }.Tallies r.claimNext where
  head_eq := by rw [Ring.head_claimNext]; exact h.head_eq
  tail_eq := by rw [Ring.tail_claimNext, h.tail_eq]
  head_le := by
    rw [Ring.head_claimNext, Ring.tail_claimNext]
    exact Nat.le_succ_of_le h.head_le
  le_lap := by
    rw [Ring.head_claimNext, Ring.tail_claimNext]
    have := h.len_eq
    omega

/-- A read of `n` messages that returns is counted. -/
theorem Tallies.finish {n : Nat} (h : a.Tallies r) (hn : r.head + n ≤ r.tail) :
    { a with counted := a.counted + n, reading := none }.Tallies (r.setHead (r.head + n)) where
  head_eq := by rw [Ring.head_setHead, h.head_eq]
  tail_eq := h.tail_eq
  head_le := hn
  le_lap := by
    have := h.le_lap
    rw [Ring.head_setHead, Ring.tail_setHead]
    omega

/-! ## Operations -/

/-- What an operation on a whole buffer does to it and to the account. -/
structure Performed (ms : List (Moment kind cap α)) (r : Ring kind cap α) (m : Moment kind cap α)
    (after : Buffer kind cap α) : Prop where
  explains : Explains ms m
  whole : after.handles = none
  tallies : (of (ms ++ [m])).Tallies after.ring
  reading_eq : (of (ms ++ [m])).reading = (of ms).reading
  head_eq : after.ring.head = r.head
  tail_le : r.tail ≤ after.ring.tail

/-- An operation that moves no counter and is no claim. -/
theorem Tallies.still (h : (of ms).Tallies r) {o : Op α} {reply : Reply α}
    {r' : Ring kind cap α} (henter : (of ms).enter (.op ⟨r, none⟩ o reply ⟨r', none⟩) = of ms)
    (hallows : (of ms).Allows (.op ⟨r, none⟩ o reply ⟨r', none⟩)) (hhead : r'.head = r.head)
    (htail : r'.tail = r.tail) :
    Performed ms r (.op ⟨r, none⟩ o reply ⟨r', none⟩) ⟨r', none⟩ where
  explains := by
    rw [Explains, of_snoc, henter]
    exact ⟨hallows, (h.congr hhead htail).balances⟩
  whole := rfl
  tallies := by
    rw [of_snoc, henter]
    exact h.congr hhead htail
  reading_eq := by rw [of_snoc, henter]
  head_eq := hhead
  tail_le := Nat.le_of_eq htail.symm

theorem Tallies.perform (h : (of ms).Tallies r) (o : Op α) :
    let b : Buffer kind cap α := ⟨r, none⟩
    Performed ms r (.op b o (b.perform o).1 (b.perform o).2) (b.perform o).2 := by
  obtain ⟨reply, r', hraw, heffect⟩ := performRaw_effect r o
  simp only [Buffer.perform, hraw]
  cases heffect with
  | claims hroom =>
    have hnext := h.claim hroom
    refine ⟨⟨⟨h.balances, ?_⟩, ?_⟩, rfl, ?_, ?_, ?_, ?_⟩
    · rw [if_pos hroom, Capacity.indexOf_val, h.tail_eq]
    · rw [of_snoc]
      exact hnext.balances
    · rw [of_snoc]
      exact hnext
    · rw [of_snoc]
      rfl
    · exact Ring.head_claimNext r
    · rw [Ring.tail_claimNext]
      exact Nat.le_succ _
  | full hfull => exact h.still rfl ⟨h.balances, (if_neg hfull).symm⟩ rfl rfl
  | writes i x => exact h.still rfl ⟨h.balances, (if_pos i.isLt).mpr rfl⟩ rfl rfl
  | peeks i => exact h.still rfl ⟨h.balances, (if_pos i.isLt).mpr rfl⟩ rfl rfl
  | commits i => exact h.still rfl ⟨h.balances, (if_pos i.isLt).mpr rfl⟩ rfl rfl
  | misses hslot hi =>
    have hreply : (of ms).Allows (.op ⟨r, none⟩ o .noSlot ⟨r, none⟩) := by
      cases o <;> cases hslot <;>
        exact ⟨h.balances, (if_neg (Nat.not_lt_of_le hi)).mpr ⟨rfl, rfl⟩⟩
    exact h.still (by cases o <;> cases hslot <;> rfl) hreply rfl rfl
  | dumps => exact h.still rfl ⟨h.balances, rfl⟩ rfl rfl
  | misuses hslot hclaim =>
    have hreply : (of ms).Allows (.op ⟨r, none⟩ o .misuse ⟨r, none⟩) := by
      cases o <;> first | exact absurd rfl hclaim | exact ⟨h.balances, rfl⟩ | cases hslot
    exact h.still (by cases o <;> rfl) hreply rfl rfl

/-! ## Reads -/

/-- The account in the middle of a read that began at `start`, with `handed` messages handed
over. -/
structure Underway (start bound handed : Nat) (ms : List (Moment kind cap α))
    (b : Buffer kind cap α) : Prop where
  whole : b.handles = none
  explained : Always Explains ms
  tallies : (of ms).Tallies b.ring
  reading : (of ms).reading = some ⟨bound, handed⟩
  head_eq : b.ring.head = start
  handed_le : handed ≤ bound
  le_tail : start + bound ≤ b.ring.tail

variable {start bound handed : Nat} {b : Buffer kind cap α}

theorem Underway.hand (h : Underway start bound handed ms b) (hlt : handed < bound) :
    Underway start bound (handed + 1)
      (ms ++ [.handed ⟨handed, start + handed, b.ring.slotOf (start + handed)⟩ b]) b := by
  have hread : (of ms).reading = some ⟨bound, handed⟩ := h.reading
  have htallies : (of (ms ++ [.handed ⟨handed, start + handed,
      b.ring.slotOf (start + handed)⟩ b])).Tallies b.ring := by
    rw [of_snoc]
    exact ⟨h.tallies.head_eq, h.tallies.tail_eq, h.tallies.head_le, h.tallies.le_lap⟩
  have hcounted : (of ms).counted = start := h.tallies.head_eq.symm.trans h.head_eq
  have hslot : b.ring.slots[((of ms).counted + handed) % cap.size]? =
      some (b.ring.slotOf (start + handed)) := by
    rw [hcounted, ← Capacity.indexOf_val]
    exact Vector.getElem?_eq_getElem (cap.indexOf (start + handed)).isLt
  refine ⟨h.whole, h.explained.snoc ⟨⟨_, hread, hlt, rfl, by rw [hcounted], hslot⟩,
    htallies.balances⟩, htallies, ?_, h.head_eq, hlt, h.le_tail⟩
  rw [of_snoc]
  show (of ms).reading.map _ = _
  rw [hread]
  rfl

theorem Underway.perform (h : Underway start bound handed ms b) (o : Op α) :
    Underway start bound handed (ms ++ [.op b o (b.perform o).1 (b.perform o).2])
      (b.perform o).2 := by
  obtain ⟨r, handles⟩ := b
  obtain rfl : handles = none := h.whole
  have hdone := h.tallies.perform o
  exact ⟨hdone.whole, h.explained.snoc hdone.explains, hdone.tallies,
    hdone.reading_eq.trans h.reading, hdone.head_eq.trans h.head_eq, h.handed_le,
    Nat.le_trans h.le_tail hdone.tail_le⟩

theorem Underway.mark (h : Underway start bound handed ms b) (i : Fin cap.size) (m : Mark) :
    Underway start bound handed ms ⟨b.ring.mark i m, b.handles⟩ :=
  ⟨h.whole, h.explained, h.tallies.congr rfl rfl, h.reading, h.head_eq, h.handed_le, h.le_tail⟩

/-- While a callback runs, its message is already entered. -/
theorem readInvariant (start bound : Nat) (past : List (Moment kind cap α)) :
    ReadInvariant start bound
      (fun count ms b => Underway start bound count (past ++ ms) b)
      (fun count ms b => Underway start bound (count + 1) (past ++ ms) b) where
  hand := by
    intro count ms b hlt h _
    rw [← List.append_assoc]
    exact h.hand hlt
  perform := by
    intro count ms b o h
    rw [← List.append_assoc]
    exact h.perform o
  pass := fun h => h.mark _ _

/-! ## Between operations and reads -/

/-- The account when nothing is under way. -/
structure Settled (ms : List (Moment kind cap α)) (b : Buffer kind cap α) : Prop where
  whole : b.handles = none
  explained : Always Explains ms
  tallies : (of ms).Tallies b.ring
  idle : (of ms).reading = none

theorem settled_ofSlots (contents : Vector α cap.size) :
    Settled [] (.ofRing (.ofSlots contents) : Buffer kind cap α) :=
  ⟨rfl, Buffer.always_nil _, tallies_ofSlots contents, rfl⟩

theorem Settled.perform (h : Settled ms b) (o : Op α) :
    Settled (ms ++ b.momentsOf (.op o)) (b.perform o).2 := by
  obtain ⟨r, handles⟩ := b
  obtain rfl : handles = none := h.whole
  have hdone := h.tallies.perform o
  exact ⟨hdone.whole, h.explained.snoc hdone.explains, hdone.tallies,
    hdone.reading_eq.trans h.idle⟩

theorem Settled.reset (h : Settled ms b) :
    Settled (ms ++ b.momentsOf .reset) b.reset.2 := by
  obtain ⟨r, handles⟩ := b
  obtain rfl : handles = none := h.whole
  have hfresh : (of (ms ++ [.served .reset ⟨r.reset, none⟩])).Tallies r.reset := by
    rw [of_snoc]
    exact ⟨rfl, rfl, Nat.le_refl _, Nat.zero_le _⟩
  refine ⟨rfl, h.explained.snoc ⟨h.idle, hfresh.balances⟩, hfresh, ?_⟩
  show (of (ms ++ [.served .reset ⟨r.reset, none⟩])).reading = none
  rw [of_snoc]
  rfl

theorem Settled.info (h : Settled ms b) : Settled (ms ++ b.momentsOf .info) b := by
  have hsame : of (ms ++ [.served .info b]) = of ms := of_snoc ..
  have hbalances : (of (ms ++ [.served .info b])).Balances b.ring := hsame ▸ h.tallies.balances
  exact ⟨h.whole, h.explained.snoc ⟨h.idle, hbalances⟩, hsame ▸ h.tallies, hsame ▸ h.idle⟩

/-- A read begins. -/
theorem Settled.begin (h : Settled ms b) (limit : Nat) :
    Underway b.ring.head (min (distance b.ring.tail b.ring.head) limit) 0
      (ms ++ [.began limit b]) b := by
  have htallies : (of (ms ++ [.began limit b])).Tallies b.ring := by
    rw [of_snoc]
    exact ⟨h.tallies.head_eq, h.tallies.tail_eq, h.tallies.head_le, h.tallies.le_lap⟩
  refine ⟨h.whole, h.explained.snoc ⟨h.idle, htallies.balances⟩, htallies, ?_, rfl,
    Nat.zero_le _, ?_⟩
  · rw [of_snoc, Nat.min_comm]
    rfl
  · have hlen : distance b.ring.tail b.ring.head = b.ring.tail - b.ring.head := h.tallies.len_eq
    have hle := h.tallies.head_le
    omega

/-- A read ends, by its return or by a failure. -/
theorem settled_ended {past inside : List (Moment kind cap α)} {ending : ReadEnd}
    {after : Buffer kind cap α}
    (h : ReadInvariant.Ends start
      (fun count ms b => Underway start bound count (past ++ ms) b)
      (fun count ms b => Underway start bound (count + 1) (past ++ ms) b) ending inside after) :
    Settled (past ++ inside ++ [.ended ending after]) after := by
  obtain ⟨ms, hms⟩ : ∃ ms, past ++ inside = ms := ⟨_, rfl⟩
  rw [hms]
  cases ending with
  | finished n =>
    obtain ⟨r, hring, hr⟩ := h
    rw [hms] at hr
    have hfinish : (of (ms ++ [.ended (.finished n) after])).Tallies after.ring := by
      have hle : r.head + n ≤ r.tail := by
        have hhead : r.head = start := hr.head_eq
        have hn := hr.handed_le
        have htail : start + bound ≤ r.tail := hr.le_tail
        omega
      have hcounted := hr.tallies.finish hle
      rw [of_snoc, hring, ← show r.head = start from hr.head_eq]
      exact hcounted
    refine ⟨hr.whole, hr.explained.snoc ⟨⟨_, hr.reading, rfl⟩, hfinish.balances⟩, hfinish, ?_⟩
    rw [of_snoc]
    rfl
  | failed k =>
    have hr : Underway start bound (k + 1) ms after := hms ▸ h
    have hfail : (of (ms ++ [.ended (.failed k) after])).Tallies after.ring := by
      rw [of_snoc]
      exact ⟨hr.tallies.head_eq, hr.tallies.tail_eq, hr.tallies.head_le, hr.tallies.le_lap⟩
    refine ⟨hr.whole, hr.explained.snoc ⟨⟨_, hr.reading, rfl⟩, hfail.balances⟩, hfail, ?_⟩
    rw [of_snoc]
    rfl

theorem Settled.read (h : Settled ms b) (limit : Nat) (hooks : Hooks α) :
    Settled (ms ++ b.momentsOf (.read limit hooks)) (b.readHooked limit hooks).2 := by
  have hends := (readInvariant _ _ (ms ++ [.began limit b])).read hooks
    (by rw [List.append_nil]; exact h.begin limit)
  rw [Buffer.append_momentsOf_read]
  exact settled_ended hends

theorem Settled.serve (h : Settled ms b) (use : RawUse α) :
    Settled (ms ++ b.momentsOf use.request) (b.serve use.request).2 := by
  cases use with
  | op o => exact h.perform o
  | reset => exact h.reset
  | info => exact h.info
  | read limit hooks => exact h.read limit hooks

end Account

/-- Whatever is done with a whole buffer of either kind, of every capacity and whatever
contents it starts with, by raw slot numbers that are claimed or not, in the callbacks of reads
or between them, with callbacks that fail and with resets: every moment is as the account of
those before it says, and leaves a ring that balances. -/
theorem raw_use_accounted (kind : Kind) {cap : Capacity} {α : Type}
    (contents : Vector α cap.size) (uses : List (RawUse α)) :
    Always Account.Explains ((Buffer.ofRing (.ofSlots contents : Ring kind cap α)).moments
      (uses.map RawUse.request)) := by
  obtain ⟨after, hsettled⟩ := Buffer.moments_induct RawUse.request (I := Account.Settled)
    (fun _ _ use h => h.serve use) (Account.settled_ofSlots contents) uses
  exact hsettled.explained

end RingTransport
