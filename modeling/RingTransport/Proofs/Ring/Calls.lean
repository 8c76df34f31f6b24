/-
  Calls of producer threads, from the step that starts one to the step that ends it. What
  one access does to a call is said once (`AccessOf`). While a thread is in a call, other
  threads take steps in between, but only an access of its own moves the call on
  (`InCall.other`, `InCall.own`), so the stage of a call is what the latest access of its
  thread has left there (`exists_latest`). An instant of a call is any state the run passes
  through while the call is in progress (`instants`). Main facts: what a claim and a
  measurement end with, by the accesses that led there (`claiming_of_finishes`,
  `measured_of_finishes`), and that a measurement, and a claim of the one producer, returns
  within a fixed number of accesses of its thread (`InCall.returnsBy`).
-/
import RingTransport.Proofs.Ring.Interleaving

namespace RingTransport

/-- How many accesses a measurement makes from a stage on. -/
def LenStage.accessesLeft : LenStage → Nat
  | .start => 2
  | .loaded _ => 1

theorem LenStage.accessesLeft_pos (stage : LenStage) : 0 < stage.accessesLeft := by
  cases stage <;> exact Nat.succ_pos _

/-- How many accesses a call of the one producer makes from a stage on. -/
def ProducerCall.accessesLeft : ProducerCall → Nat
  | .claiming .start => 3
  | .claiming (.loaded _) => 2
  | .claiming (.room _) | .claiming (.won _) => 1
  | .measuring stage => stage.accessesLeft

theorem ProducerCall.accessesLeft_pos (call : ProducerCall) : 0 < call.accessesLeft := by
  cases call with
  | claiming stage => cases stage <;> exact Nat.succ_pos _
  | measuring stage => exact stage.accessesLeft_pos

namespace Threads

open RingTransport.Ring

variable {kind : Kind} {cap : Capacity} {α : Type} {s s' : Threads kind cap α} {p : Nat}
  {call : ProducerCall} {held : List Nat} {move last : Move α} {inside : List (Move α)}
  {signal result : Signal α} {spurious : Bool} {r r' : Ring kind cap α} {t : ProducerThread}

/-! ## Instants of a run -/

/-- The states that a run passes through, from the first to the last. -/
def instants (s : Threads kind cap α) : List (Move α) → List (Threads kind cap α)
  | [] => [s]
  | move :: moves => s :: instants (s.step move).2 moves

theorem mem_instants (s : Threads kind cap α) (done later : List (Move α)) :
    (s.run done).2 ∈ s.instants (done ++ later) := by
  induction done generalizing s with
  | nil => cases later <;> exact List.mem_cons_self ..
  | cons move done ih => exact List.mem_cons_of_mem _ (ih (s.step move).2)

theorem tail_le_run (h : Inv s) (moves : List (Move α)) :
    s.ring.tail ≤ (s.run moves).2.ring.tail := by
  induction moves generalizing s with
  | nil => exact Nat.le_refl _
  | cons move moves ih =>
    obtain ⟨_, _, he⟩ := effect_step h move
    exact Nat.le_trans (he.counters_le h.reader).2 (ih (inv_step h move))

/-! ## Calls in progress -/

/-- Thread `p` is in the middle of a call. -/
def InCall (s : Threads kind cap α) (p : Nat) (call : ProducerCall) : Prop :=
  ∃ held, s.producers[p]? = some ⟨some call, held⟩

/-- The signal shows that a call of thread `p` has ended. -/
def Signal.endsCall (p : Nat) : Signal α → Bool
  | .claimed q _ | .refused q | .measured q _ => q == p
  | _ => false

/-- A call that is in progress in a state goes on through the moves `inside`, and the move
`last` ends it and shows the `result`. Which signals end the call is told by `ends`. -/
structure Finishes (ends : Signal α → Bool) (s : Threads kind cap α) (inside : List (Move α))
    (last : Move α) (result : Signal α) : Prop where
  goes_on : ∀ signal ∈ (s.run inside).1, ends signal = false
  returns : ((s.run inside).2.step last).1 = result
  is_end : ends result = true

theorem Finishes.ends_last {ends : Signal α → Bool} (h : Finishes ends s inside last result) :
    ends ((s.run inside).2.step last).1 = true := by
  rw [h.returns]
  exact h.is_end

/-- A thread is in one call at a time. -/
theorem InCall.unique {other : ProducerCall} (h : InCall s p call) (h' : InCall s p other) :
    call = other := by
  obtain ⟨held, hp⟩ := h
  obtain ⟨held', hp'⟩ := h'
  have hsame := hp.symm.trans hp'
  cases hsame
  rfl

theorem inCall_claim (h : (s.step (.claim p)).1 = .claimStarted p) :
    InCall (s.step (.claim p)).2 p (.claiming .start) := by
  obtain ⟨r, ps, c⟩ := s
  simp only [step] at h ⊢
  split at h
  · next held hp =>
    obtain ⟨hlt, -⟩ := List.getElem?_eq_some_iff.1 hp
    exact ⟨held, List.getElem?_set_self hlt⟩
  · cases h

theorem inCall_measure (h : (s.step (.measure p)).1 = .measureStarted p) :
    InCall (s.step (.measure p)).2 p (.measuring .start) := by
  obtain ⟨r, ps, c⟩ := s
  simp only [step] at h ⊢
  split at h
  · next held hp =>
    obtain ⟨hlt, -⟩ := List.getElem?_eq_some_iff.1 hp
    exact ⟨held, List.getElem?_set_self hlt⟩
  · cases h

/-! ## Accesses of a call -/

/-- What an access of producer `p` shows, and how it leaves the thread and the ring. -/
inductive AccessOf (p : Nat) (spurious : Bool) (held : List Nat) (r : Ring kind cap α) :
    ProducerCall → Signal α → ProducerThread → Ring kind cap α → Prop
  | going {stage next r'} (hacc : r.claimAccess spurious stage = (.going next, r')) :
      AccessOf p spurious held r (.claiming stage) .quiet ⟨some (.claiming next), held⟩ r'
  | lost {stage r'} (hacc : r.claimAccess spurious stage = (.lost, r')) :
      AccessOf p spurious held r (.claiming stage) (.lost p) ⟨some (.claiming .start), held⟩ r'
  | refused {stage r'} (hacc : r.claimAccess spurious stage = (.refused, r')) :
      AccessOf p spurious held r (.claiming stage) (.refused p) ⟨none, held⟩ r'
  | taken {stage seq r'} (hacc : r.claimAccess spurious stage = (.taken seq, r')) :
      AccessOf p spurious held r (.claiming stage) (.claimed p seq) ⟨none, seq :: held⟩ r'
  | loaded :
      AccessOf p spurious held r (.measuring .start) .quiet
        ⟨some (.measuring (.loaded r.head)), held⟩ r
  | measured (head : Nat) :
      AccessOf p spurious held r (.measuring (.loaded head))
        (.measured p (distance r.tail head)) ⟨none, held⟩ r

/-- Every access is one of these. -/
theorem accessOf (p : Nat) (spurious : Bool) (call : ProducerCall) (held : List Nat)
    (r : Ring kind cap α) :
    AccessOf p spurious held r call (produceAccess p spurious call held r).1
      (produceAccess p spurious call held r).2.1 (produceAccess p spurious call held r).2.2 := by
  cases call with
  | claiming stage =>
    rcases hacc : r.claimAccess spurious stage with ⟨progress, r'⟩
    simp only [produceAccess, hacc]
    cases progress with
    | going => exact .going hacc
    | lost => exact .lost hacc
    | refused => exact .refused hacc
    | taken => exact .taken hacc
  | measuring stage =>
    cases stage with
    | start => exact .loaded
    | loaded head => exact .measured head

/-- The call is a claim, and not a measurement. -/
def isClaim : ProducerCall → Bool
  | .claiming _ => true
  | .measuring _ => false

/-- No access turns a claim into a measurement, or the other way round. -/
theorem AccessOf.isClaim_eq {next : ProducerCall} (ha : AccessOf p spurious held r call signal t r')
    (h : t.call = some next) : isClaim next = isClaim call := by
  cases ha <;> cases h <;> rfl

/-- An access after which its thread is in no call has ended the call. -/
theorem AccessOf.endsCall (ha : AccessOf p spurious held r call signal t r')
    (h : t.call = none) : signal.endsCall p = true := by
  cases ha with
  | going | lost | loaded => cases h
  | refused | taken | measured => exact beq_self_eq_true p

/-- An access ends no call of another thread. -/
theorem AccessOf.eq_of_endsCall {q : Nat} (ha : AccessOf q spurious held r call signal t r')
    (h : signal.endsCall p = true) : q = p := by
  cases ha with
  | going | lost | loaded => cases h
  | refused | taken | measured => exact eq_of_beq h

/-- A claim goes on by an access of the claim; losing starts it again. -/
theorem AccessOf.claiming {stage : ClaimStage} (ha : AccessOf p spurious held r call signal t r')
    (h : t.call = some (.claiming stage)) :
    ∃ before, call = .claiming before ∧
      ((r.claimAccess spurious before).1 = .going stage ∨ stage = .start) := by
  cases ha with
  | going hacc =>
    cases h
    exact ⟨_, rfl, .inl (congrArg Prod.fst hacc)⟩
  | lost =>
    cases h
    exact ⟨_, rfl, .inr rfl⟩
  | refused | taken | loaded | measured => cases h

/-- A measurement that has loaded the head loaded it just before. -/
theorem AccessOf.measuring {head : Nat} (ha : AccessOf p spurious held r call signal t r')
    (h : t.call = some (.measuring (.loaded head))) :
    call = .measuring .start ∧ head = r.head ∧ r' = r := by
  cases ha with
  | loaded =>
    cases h
    exact ⟨rfl, rfl, rfl⟩
  | going | lost | refused | taken | measured => cases h

/-- How a call stood before the access that has ended it, and what came of it. -/
theorem AccessOf.ended (ha : AccessOf p spurious held r call signal t r')
    (h : signal.endsCall p = true) :
    (∃ head, call = .measuring (.loaded head) ∧ signal = .measured p (distance r.tail head)) ∨
      ∃ stage, call = .claiming stage ∧
        ((r.claimAccess spurious stage).1 = .refused ∧ signal = .refused p ∨
          ∃ seq, (r.claimAccess spurious stage).1 = .taken seq ∧ signal = .claimed p seq) := by
  cases ha with
  | going | lost | loaded => cases h
  | refused hacc => exact .inr ⟨_, rfl, .inl ⟨congrArg Prod.fst hacc, rfl⟩⟩
  | taken hacc => exact .inr ⟨_, rfl, .inr ⟨_, congrArg Prod.fst hacc, rfl⟩⟩
  | measured head => exact .inl ⟨head, rfl, rfl⟩

/-! ## Steps in the middle of a call -/

theorem step_produce (hp : s.producers[p]? = some ⟨some call, held⟩) (spurious : Bool) :
    s.step (.produce p spurious) =
      ((produceAccess p spurious call held s.ring).1,
        ⟨(produceAccess p spurious call held s.ring).2.2,
          s.producers.set p (produceAccess p spurious call held s.ring).2.1, s.consumer⟩) := by
  obtain ⟨r, ps, c⟩ := s
  simp only [step, show ps[p]? = some ⟨some call, held⟩ from hp]

/-- Replacing another thread leaves this one in its call. -/
theorem getElem?_set_of_ne {ps : List ProducerThread} {p q : Nat} {t u u' : ProducerThread}
    (hp : ps[p]? = some t) (hq : ps[q]? = some u) (hne : u ≠ t) :
    (ps.set q u')[p]? = some t := by
  have hqp : q ≠ p := by
    rintro rfl
    exact hne (Option.some.inj (hq.symm.trans hp))
  rw [List.getElem?_set_ne hqp, hp]

theorem StepOf.inCall (hs : StepOf s move signal s') (h : InCall s p call)
    (hmove : ∀ spurious, move ≠ .produce p spurious) : InCall s' p call := by
  obtain ⟨held, hp⟩ := h
  refine ⟨held, ?_⟩
  cases hs with
  | claim hq | measure hq | commit hq | abandon hq =>
    exact getElem?_set_of_ne hp hq fun heq => by cases heq
  | @produce r ps c q other _ hq spurious =>
    have hqp : q ≠ p := fun heq => hmove spurious (heq ▸ rfl)
    exact (List.getElem?_set_ne hqp).trans hp
  | ignored | write | read | measureRead | consume => exact hp

/-- Only an access of the thread itself moves its call on. -/
theorem InCall.other (h : InCall s p call) (hmove : ∀ spurious, move ≠ .produce p spurious) :
    InCall (s.step move).2 p call :=
  (stepOf s move).inCall h hmove

/-- The next access of thread `p` leads to this stage of its call. -/
def LeadsTo (s : Threads kind cap α) (p : Nat) (spurious : Bool) (call : ProducerCall) : Prop :=
  ∃ before held, s.producers[p]? = some ⟨some before, held⟩ ∧
    (produceAccess p spurious before held s.ring).2.1.call = some call

theorem InCall.own (h : InCall s p call)
    (hquiet : (s.step (.produce p spurious)).1.endsCall p = false) :
    ∃ next, InCall (s.step (.produce p spurious)).2 p next ∧ isClaim next = isClaim call ∧
      LeadsTo s p spurious next := by
  obtain ⟨held, hp⟩ := h
  obtain ⟨hlt, -⟩ := List.getElem?_eq_some_iff.1 hp
  rw [step_produce hp spurious] at hquiet ⊢
  cases hnext : (produceAccess p spurious call held s.ring).2.1.call with
  | none =>
    rw [(accessOf p spurious call held s.ring).endsCall hnext] at hquiet
    cases hquiet
  | some next =>
    refine ⟨next, ⟨(produceAccess p spurious call held s.ring).2.1.held, ?_⟩,
      (accessOf p spurious call held s.ring).isClaim_eq hnext, call, held, hp, hnext⟩
    rw [← hnext]
    exact List.getElem?_set_self hlt

/-- A thread that is in a call when the run starts, and ends none during the run, is still
in that call. Either it has made no access, or the stage of its call is what the latest of
its accesses has led to. -/
theorem exists_latest {first : ProducerCall} (h : InCall s p first)
    (hquiet : ∀ signal ∈ (s.run inside).1, signal.endsCall p = false) :
    ∃ call, InCall (s.run inside).2 p call ∧ isClaim call = isClaim first ∧
      ((call = first ∧ ∀ spurious, .produce p spurious ∉ inside) ∨
        ∃ done spurious later, inside = done ++ .produce p spurious :: later ∧
          (∀ spurious, .produce p spurious ∉ later) ∧ LeadsTo (s.run done).2 p spurious call) := by
  induction inside generalizing s first with
  | nil => exact ⟨first, h, rfl, .inl ⟨rfl, fun _ => List.not_mem_nil⟩⟩
  | cons move inside ih =>
    have hfirst := hquiet _ (List.mem_cons_self ..)
    have hrest : ∀ signal ∈ ((s.step move).2.run inside).1, signal.endsCall p = false :=
      fun signal hmem => hquiet signal (List.mem_cons_of_mem _ hmem)
    by_cases hown : ∃ spurious, move = .produce p spurious
    · obtain ⟨spurious, rfl⟩ := hown
      obtain ⟨next, hnext, hsame, hleads⟩ := h.own hfirst
      obtain ⟨call, hcall, hsame', hlatest⟩ := ih hnext hrest
      refine ⟨call, hcall, hsame'.trans hsame, .inr ?_⟩
      obtain ⟨rfl, haway⟩ | ⟨done, spurious', later, rfl, haway, hlatest⟩ := hlatest
      · exact ⟨[], spurious, inside, rfl, haway, hleads⟩
      · exact ⟨_ :: done, spurious', later, rfl, haway, hlatest⟩
    · have hother : ∀ spurious, move ≠ .produce p spurious := fun spurious heq =>
        hown ⟨spurious, heq⟩
      obtain ⟨call, hcall, hsame, hlatest⟩ := ih (h.other hother) hrest
      refine ⟨call, hcall, hsame, ?_⟩
      obtain ⟨rfl, haway⟩ | ⟨done, spurious, later, rfl, haway, hlatest⟩ := hlatest
      · refine .inl ⟨rfl, fun spurious hmem => ?_⟩
        rcases List.mem_cons.1 hmem with heq | hmem
        · exact hother spurious heq.symm
        · exact haway spurious hmem
      · exact .inr ⟨_ :: done, spurious, later, rfl, haway, hlatest⟩

/-! ## What led to a stage -/

/-- With many producers a claim that has loaded the head loaded it just before. -/
theorem claimAccess_going_loaded {r : Ring .manyProducers cap α} {stage : ClaimStage}
    {head : Nat} (h : (r.claimAccess spurious stage).1 = .going (.loaded head)) :
    stage = .start ∧ head = r.head := by
  cases stage with
  | start => exact ⟨rfl, by cases h; rfl⟩
  | loaded | room =>
    simp only [claimAccess] at h
    split at h <;> cases h
  | won => cases h

/-- One producer finds room by the tail it has loaded and the head as it is. -/
theorem claimAccess_going_room {r : Ring .oneProducer cap α} {stage : ClaimStage} {tail : Nat}
    (h : (r.claimAccess spurious stage).1 = .going (.room tail)) :
    stage = .loaded tail ∧ distance tail r.head < cap.size := by
  cases stage with
  | loaded counter =>
    simp only [claimAccess] at h
    split at h
    · cases h
    · next hroom =>
      cases h
      exact ⟨rfl, Nat.lt_of_not_le hroom⟩
  | start | room | won => cases h

theorem claimAccess_going_ne_won {r : Ring .oneProducer cap α} {stage : ClaimStage} {seq : Nat} :
    (r.claimAccess spurious stage).1 ≠ .going (.won seq) := by
  intro h
  cases stage with
  | loaded counter =>
    simp only [claimAccess] at h
    split at h <;> cases h
  | start | room | won => cases h

theorem LeadsTo.claiming {stage : ClaimStage} (h : LeadsTo s p spurious (.claiming stage)) :
    ∃ before, InCall s p (.claiming before) ∧
      ((s.ring.claimAccess spurious before).1 = .going stage ∨ stage = .start) := by
  obtain ⟨call, held, hp, hcall⟩ := h
  obtain ⟨before, rfl, hgoing⟩ := (accessOf p spurious call held s.ring).claiming hcall
  exact ⟨before, ⟨held, hp⟩, hgoing⟩

theorem LeadsTo.measuring {head : Nat} (h : LeadsTo s p spurious (.measuring (.loaded head))) :
    InCall s p (.measuring .start) ∧ head = s.ring.head ∧
      (s.step (.produce p spurious)).2.ring = s.ring := by
  obtain ⟨call, held, hp, hcall⟩ := h
  obtain ⟨rfl, hhead, hring⟩ := (accessOf p spurious call held s.ring).measuring hcall
  rw [step_produce hp spurious]
  exact ⟨⟨held, hp⟩, hhead, hring⟩

/-! ## The end of a call -/

theorem endsCall_consumeAccess (fails : Bool) (call : ConsumerCall) (r : Ring kind cap α)
    (p : Nat) : (consumeAccess fails call r).1.endsCall p = false := by
  cases call with
  | reading stage =>
    simp only [consumeAccess]
    generalize r.readAccess fails stage = acc
    obtain ⟨progress, r'⟩ := acc
    cases progress <;> rfl
  | measuring stage => cases stage <;> rfl

theorem StepOf.exists_access (hs : StepOf s move signal s') (h : signal.endsCall p = true) :
    ∃ spurious call held, move = .produce p spurious ∧
      s.producers[p]? = some ⟨some call, held⟩ ∧
      signal = (produceAccess p spurious call held s.ring).1 := by
  cases hs with
  | produce hq spurious =>
    obtain rfl := (accessOf _ spurious _ _ _).eq_of_endsCall h
    exact ⟨spurious, _, _, rfl, hq, rfl⟩
  | consume call fails =>
    rw [endsCall_consumeAccess] at h
    cases h
  | _ => cases h

/-- A call is ended by an access of its own thread. -/
theorem exists_access (h : (s.step move).1.endsCall p = true) :
    ∃ spurious call held, move = .produce p spurious ∧
      s.producers[p]? = some ⟨some call, held⟩ ∧
      (s.step move).1 = (produceAccess p spurious call held s.ring).1 :=
  (stepOf s move).exists_access h

/-- How the call that a step has ended stood before the step, and what came of it. -/
theorem ended_cases (h : (s.step move).1.endsCall p = true) :
    ∃ spurious, move = .produce p spurious ∧
      ((∃ head, InCall s p (.measuring (.loaded head)) ∧
          (s.step move).1 = .measured p (distance s.ring.tail head)) ∨
        ∃ stage, InCall s p (.claiming stage) ∧
          ((s.ring.claimAccess spurious stage).1 = .refused ∧ (s.step move).1 = .refused p ∨
            ∃ seq, (s.ring.claimAccess spurious stage).1 = .taken seq ∧
              (s.step move).1 = .claimed p seq)) := by
  obtain ⟨spurious, call, held, hmove, hp, hsignal⟩ := exists_access h
  refine ⟨spurious, hmove, ?_⟩
  rw [hsignal] at h ⊢
  obtain ⟨head, rfl, hmeasured⟩ | ⟨stage, rfl, hclaim⟩ :=
    (accessOf p spurious call held s.ring).ended h
  · exact .inl ⟨head, ⟨held, hp⟩, hmeasured⟩
  · exact .inr ⟨stage, ⟨held, hp⟩, hclaim⟩

/-- A measurement that returns has loaded the head at one instant of the call, and the tail
at its last. -/
theorem measured_of_finishes (hin : InCall s p (.measuring .start))
    (hf : Finishes (Signal.endsCall p) s inside last result) :
    ∃ done spurious later, inside = done ++ .produce p spurious :: later ∧
      (∀ spurious, .produce p spurious ∉ later) ∧
      ((s.run done).2.step (.produce p spurious)).2.ring = (s.run done).2.ring ∧
      InCall (s.run done).2 p (.measuring .start) ∧
      InCall (s.run inside).2 p (.measuring (.loaded (s.run done).2.ring.head)) ∧
      result = .measured p (distance (s.run inside).2.ring.tail (s.run done).2.ring.head) := by
  obtain ⟨call, hcall, hkind, hlatest⟩ := exists_latest hin hf.goes_on
  obtain ⟨_, -, ⟨head, hstage, hsignal⟩ | ⟨stage, hstage, -⟩⟩ := ended_cases hf.ends_last
  · obtain rfl := hcall.unique hstage
    obtain ⟨hfirst, -⟩ | ⟨done, spurious, later, heq, haway, hleads⟩ := hlatest
    · cases hfirst
    · obtain ⟨hload, rfl, hring⟩ := hleads.measuring
      exact ⟨done, spurious, later, heq, haway, hring, hload, hcall,
        hf.returns.symm.trans hsignal⟩
  · obtain rfl := hcall.unique hstage
    cases hkind

/-- A claim that returns is refused or gets a number, by what its latest accesses were. -/
theorem claiming_of_finishes (hin : InCall s p (.claiming .start))
    (hf : Finishes (Signal.endsCall p) s inside last result) :
    ∃ spurious stage, last = .produce p spurious ∧
      InCall (s.run inside).2 p (.claiming stage) ∧
      (stage = .start ∨
        ∃ done spurious later, inside = done ++ .produce p spurious :: later ∧
          LeadsTo (s.run done).2 p spurious (.claiming stage)) ∧
      (((s.run inside).2.ring.claimAccess spurious stage).1 = .refused ∧ result = .refused p ∨
        ∃ seq, ((s.run inside).2.ring.claimAccess spurious stage).1 = .taken seq ∧
          result = .claimed p seq) := by
  obtain ⟨call, hcall, hkind, hlatest⟩ := exists_latest hin hf.goes_on
  obtain ⟨spurious, hlast, ⟨head, hstage, -⟩ | ⟨stage, hstage, hcases⟩⟩ :=
    ended_cases hf.ends_last
  · obtain rfl := hcall.unique hstage
    cases hkind
  · obtain rfl := hcall.unique hstage
    rw [hf.returns] at hcases
    refine ⟨spurious, stage, hlast, hcall, ?_, hcases⟩
    obtain ⟨hfirst, -⟩ | ⟨done, spurious', later, heq, -, hleads⟩ := hlatest
    · exact .inl (ProducerCall.claiming.inj hfirst)
    · exact .inr ⟨done, spurious', later, heq, hleads⟩

/-! ## Calls that return -/

/-- The move is an access of producer `p`. -/
def Move.isAccess (p : Nat) : Move α → Bool
  | .produce q _ => q == p
  | _ => false

/-- The move is an access of the reader. -/
def Move.isReaderAccess : Move α → Bool
  | .consume _ => true
  | _ => false

theorem Move.isAccess_iff : move.isAccess p = true ↔ ∃ spurious, move = .produce p spurious := by
  cases move with
  | produce q spurious =>
    refine ⟨fun h => ⟨spurious, by rw [eq_of_beq h]⟩, ?_⟩
    rintro ⟨_, heq⟩
    cases heq
    exact beq_self_eq_true p
  | _ => exact ⟨nofun, nofun⟩

theorem Move.isReaderAccess_iff : move.isReaderAccess = true ↔ ∃ fails, move = .consume fails := by
  cases move with
  | consume fails => exact ⟨fun _ => ⟨fails, rfl⟩, fun _ => rfl⟩
  | _ => exact ⟨nofun, nofun⟩

/-- However the threads go on, the call in progress returns by this access of its thread. -/
def ReturnsBy (s : Threads kind cap α) (ends : Signal α → Bool) (access : Move α → Bool)
    (n : Nat) : Prop :=
  ∀ moves, (∀ signal ∈ (s.run moves).1, ends signal = false) → moves.countP access < n

/-- Each access brings a call of the one producer, or a measurement, closer to its end. -/
theorem accessesLeft_produceAccess {r : Ring kind cap α} {next : ProducerCall}
    (hkind : isClaim call = true → kind = .oneProducer)
    (h : (produceAccess p spurious call held r).2.1.call = some next) :
    next.accessesLeft < call.accessesLeft := by
  cases call with
  | measuring stage =>
    cases stage with
    | start => cases h; exact Nat.lt_succ_self 1
    | loaded => cases h
  | claiming stage =>
    obtain rfl := hkind rfl
    cases stage with
    | start => cases h; exact Nat.lt_succ_self 2
    | loaded counter =>
      simp only [produceAccess, claimAccess] at h
      by_cases hfull : cap.size ≤ distance counter r.head
      · rw [if_pos hfull] at h
        cases h
      · rw [if_neg hfull] at h
        cases h
        exact Nat.lt_succ_self 1
    | room | won => cases h

theorem InCall.countP_lt (hin : InCall s p call)
    (hkind : isClaim call = true → kind = .oneProducer)
    (hquiet : ∀ signal ∈ (s.run inside).1, signal.endsCall p = false) :
    inside.countP (Move.isAccess p) < call.accessesLeft := by
  induction inside generalizing s call with
  | nil =>
    rw [List.countP_nil]
    exact call.accessesLeft_pos
  | cons move inside ih =>
    have hfirst : (s.step move).1.endsCall p = false := hquiet _ (List.mem_cons_self ..)
    have hrest : ∀ signal ∈ ((s.step move).2.run inside).1, signal.endsCall p = false :=
      fun signal hmem => hquiet signal (List.mem_cons_of_mem _ hmem)
    by_cases hown : move.isAccess p = true
    · rw [List.countP_cons_of_pos hown]
      obtain ⟨spurious, rfl⟩ := Move.isAccess_iff.1 hown
      obtain ⟨next, hnext, hsame, before, held, hp, hcall⟩ := hin.own hfirst
      obtain rfl := InCall.unique ⟨held, hp⟩ hin
      have hless := accessesLeft_produceAccess hkind hcall
      have hafter := ih hnext (fun hclaim => hkind (hsame ▸ hclaim)) hrest
      omega
    · rw [List.countP_cons_of_neg hown]
      have hother : ∀ spurious, move ≠ .produce p spurious := fun spurious heq =>
        hown (Move.isAccess_iff.2 ⟨spurious, heq⟩)
      exact ih (hin.other hother) hkind hrest

/-- A call in progress of the one producer, or a measurement, returns. -/
theorem InCall.returnsBy (hin : InCall s p call)
    (hkind : isClaim call = true → kind = .oneProducer) :
    s.ReturnsBy (Signal.endsCall p) (Move.isAccess p) call.accessesLeft :=
  fun _ hquiet => hin.countP_lt hkind hquiet

end Threads

end RingTransport
