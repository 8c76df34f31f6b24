/-
  A workload under way never gets stuck. `Tracked` ties its state to the claims won and the
  signals so far, and every turn keeps it (`Tracked.step`). What is left to do (`left`) never
  grows, and from every state in which something is left some thread that is given turns of its
  own does a part of it (`Tracked.done_or_improves`). Main fact: whatever the order of turns has
  been, the workload can be carried out, and once it is, the same has arrived in every order
  (`workload_completes`).
-/
import RingTransport.Proofs.Ring.Publishing

namespace RingTransport.Traffic

open Threads

variable {kind : Kind} {cap : Capacity} {w : Workload} {t : Traffic kind cap}
  {wins : List (Nat × Nat)} {log : List (Signal Parcel)} {signal : Signal Parcel}
  {pub pub' : Publisher} {u u' : ProducerThread} {r r' : Ring kind cap Parcel}
  {won new claimed : List Nat} {move : Move Parcel} {p : Nat} {spurious : Bool}

/-! ## Turns -/

/-- The claims that a signal shows. -/
def claimsOf : Signal Parcel → List Nat
  | .claimed _ seq => [seq]
  | _ => []

/-- The messages that a signal shows. -/
def parcelsOf : Signal Parcel → List Parcel
  | .handed _ parcel => [parcel]
  | _ => []

/-- A turn of a producer that is not done. -/
theorem step_producer (hpub : t.publishers[p]? = some pub)
    (hu : t.threads.producers[p]? = some u) (hnext : produceNext w p pub u spurious = some move)
    (hstep : t.threads.step move =
      (signal, ⟨r', t.threads.producers.set p u', t.threads.consumer⟩)) :
    t.step w (.producer p spurious) =
      ⟨⟨r', t.threads.producers.set p u', t.threads.consumer⟩,
        t.publishers.set p (after w u'.held.length pub signal), t.missing,
        claimsOf signal ++ t.claimed, t.received⟩ := by
  obtain ⟨threads, pubs, missing, claimed, received⟩ := t
  have hlt : p < threads.producers.length := (List.getElem?_eq_some_iff.1 hu).1
  simp only at hpub hu hstep ⊢
  simp only [step, hpub, hu, hnext, hstep, List.getElem?_set_self hlt, Option.elim_some]
  cases signal <;> rfl

/-- A turn of the reader while messages are missing or a call is in progress. -/
theorem step_reader (hnext : readNext t.missing t.threads.consumer = some move) :
    t.step w .reader =
      ⟨(t.threads.step move).2, t.publishers,
        t.missing - (parcelsOf (t.threads.step move).1).length, t.claimed,
        parcelsOf (t.threads.step move).1 ++ t.received⟩ := by
  obtain ⟨threads, pubs, missing, claimed, received⟩ := t
  simp only at hnext ⊢
  simp only [step, hnext]
  generalize threads.step move = out
  obtain ⟨signal, threads⟩ := out
  cases signal <;> rfl

/-- A turn passes, or is one of these. -/
theorem turn_cases (t : Traffic kind cap) (w : Workload) (turn : Turn) :
    t.step w turn = t ∨
      (∃ p spurious pub u move, turn = .producer p spurious ∧ t.publishers[p]? = some pub ∧
        t.threads.producers[p]? = some u ∧ produceNext w p pub u spurious = some move) ∨
      turn = .reader ∧ ∃ move, readNext t.missing t.threads.consumer = some move := by
  cases turn with
  | producer p spurious =>
    cases hpub : t.publishers[p]? with
    | none => exact .inl (by simp only [step, hpub])
    | some pub =>
      cases hu : t.threads.producers[p]? with
      | none => exact .inl (by simp only [step, hpub, hu])
      | some u =>
        cases hnext : produceNext w p pub u spurious with
        | none => exact .inl (by simp only [step, hpub, hu, hnext])
        | some move => exact .inr (.inl ⟨p, spurious, pub, u, move, rfl, hpub, hu, hnext⟩)
  | reader =>
    cases hnext : readNext t.missing t.threads.consumer with
    | none => exact .inl (by simp only [step, hnext])
    | some move => exact .inr (.inr ⟨rfl, move, rfl⟩)

theorem isReading_of_readNext {missing : Nat} {call : Option ConsumerCall}
    (hnext : readNext missing call = some move) : IsReading move := by
  cases call with
  | some call =>
    obtain rfl : .consume false = move := Option.some.inj hnext
    exact .inr rfl
  | none =>
    simp only [readNext] at hnext
    split at hnext
    · cases hnext
    · obtain rfl := Option.some.inj hnext
      exact .inl ⟨_, rfl⟩

/-! ## The state of a workload and its past -/

/-- How a workload under way stands to the claims won and the signals so far. -/
structure Tracked (w : Workload) (wins : List (Nat × Nat)) (log : List (Signal Parcel))
    (t : Traffic kind cap) : Prop where
  publishing : Publishing w wins log t.threads t.publishers
  received : t.received.reverse = (handedOf log).map (·.2)
  missing : t.missing + t.received.length = w.total
  reading : ∀ stage, t.threads.consumer ≠ some (.measuring stage)
  /-- A claim is in the list, unless its producer has still to mark the slot. -/
  listed : ∀ p seq, (p, seq) ∈ wins → seq ∈ t.claimed ∨
    ∃ held, t.threads.producers[p]? = some ⟨some (.claiming (.won seq)), held⟩
  listed_won : ∀ seq ∈ t.claimed, ∃ p, (p, seq) ∈ wins

theorem tracked_init (hone : kind = .oneProducer → w.producers ≤ 1) :
    Tracked w [] [] (init w : Traffic kind cap) where
  publishing := publishing_init hone
  received := rfl
  missing := rfl
  reading := nofun
  listed := nofun
  listed_won := nofun

theorem handedOf_map (log : List (Signal Parcel)) (signal : Signal Parcel) :
    (handedOf (log ++ [signal])).map (·.2) = (handedOf log).map (·.2) ++ parcelsOf signal := by
  rw [handedOf_append, List.map_append]
  cases signal <;> rfl

/-- A claim that a producer has won is listed once it has marked the slot. -/
theorem Advance.listed (ha : Advance w p spurious r pub u signal pub' u' r' new)
    (h : ∀ seq ∈ won, seq ∈ claimed ∨ ∃ held, u = ⟨some (.claiming (.won seq)), held⟩) :
    ∀ seq ∈ won ++ new, seq ∈ claimsOf signal ++ claimed ∨
      ∃ held, u' = ⟨some (.claiming (.won seq)), held⟩ := by
  intro seq hmem
  cases ha with
  | win =>
    rcases List.mem_append.1 hmem with hold | hnew
    · rcases h seq hold with hlisted | ⟨_, hcall⟩
      · exact .inl hlisted
      · cases hcall
    · obtain rfl := List.mem_singleton.1 hnew
      exact .inr ⟨_, rfl⟩
  | take =>
    rcases List.mem_append.1 hmem with hold | hnew
    · rcases h seq hold with hlisted | ⟨_, hcall⟩
      · exact .inl (List.mem_cons_of_mem _ hlisted)
      · cases hcall
    · exact .inl (List.mem_append_left _ hnew)
  | tag =>
    rw [List.append_nil] at hmem
    rcases h seq hmem with hlisted | ⟨_, hcall⟩
    · exact .inl (List.mem_cons_of_mem _ hlisted)
    · cases hcall
      exact .inl List.mem_cons_self
  | _ =>
    rw [List.append_nil] at hmem
    rcases h seq hmem with hlisted | ⟨_, hcall⟩
    · exact .inl hlisted
    · cases hcall

/-- A claim that is listed was won, just now or before. -/
theorem Advance.claimsOf_won (ha : Advance w p spurious r pub u signal pub' u' r' new) {seq : Nat}
    (hseq : seq ∈ claimsOf signal) : seq ∈ new ∨ seq ∈ u.live := by
  cases ha with
  | take => exact .inl hseq
  | tag =>
    obtain rfl := List.mem_singleton.1 hseq
    exact .inr List.mem_cons_self
  | _ => cases hseq

theorem Advance.parcelsOf_eq (ha : Advance w p spurious r pub u signal pub' u' r' new) :
    parcelsOf signal = [] := by
  cases ha <;> rfl

theorem Tracked.produce (h : Tracked w wins log t) (hpub : t.publishers[p]? = some pub)
    (hu : t.threads.producers[p]? = some u) (hnext : produceNext w p pub u spurious = some move) :
    ∃ signal u' r' new, Advance w p spurious t.threads.ring pub u signal
        (after w u'.held.length pub signal) u' r' new ∧
      t.step w (.producer p spurious) =
        ⟨⟨r', t.threads.producers.set p u', t.threads.consumer⟩,
          t.publishers.set p (after w u'.held.length pub signal), t.missing,
          claimsOf signal ++ t.claimed, t.received⟩ ∧
      Tracked w (wins ++ new.map (p, ·)) (log ++ [signal]) (t.step w (.producer p spurious)) := by
  obtain ⟨signal, u', r', new, hstep, ha, hpublishing⟩ := h.publishing.produce hpub hu hnext
  have hturn := step_producer hpub hu hnext hstep
  refine ⟨signal, u', r', new, ha, hturn, ?_⟩
  have hlt : p < t.threads.producers.length := (List.getElem?_eq_some_iff.1 hu).1
  rw [hturn]
  refine ⟨hpublishing, ?_, h.missing, h.reading, ?_, ?_⟩
  · rw [handedOf_map, ha.parcelsOf_eq, List.append_nil]
    exact h.received
  · intro q seq hmem
    by_cases hq : q = p
    · subst hq
      rw [List.getElem?_set_self hlt]
      have hbefore : ∀ seq ∈ wonBy wins q, seq ∈ t.claimed ∨
          ∃ held, u = ⟨some (.claiming (.won seq)), held⟩ := by
        intro seq hwon
        refine (h.listed q seq (mem_wonBy.1 hwon)).imp_right fun ⟨held, hheld⟩ => ⟨held, ?_⟩
        exact Option.some.inj (hu.symm.trans hheld)
      have hwon := mem_wonBy.2 hmem
      rw [wonBy_append, wonBy_own] at hwon
      refine (ha.listed hbefore seq hwon).imp_right fun ⟨held, hheld⟩ => ⟨held, ?_⟩
      rw [hheld]
    · rw [List.getElem?_set_ne (Ne.symm hq)]
      have hwon := mem_wonBy.2 hmem
      rw [wonBy_append, wonBy_other new hq, List.append_nil] at hwon
      exact (h.listed q seq (mem_wonBy.1 hwon)).imp_left (List.mem_append_right _)
  · intro seq hmem
    rcases List.mem_append.1 hmem with hnow | hold
    · refine ⟨p, ?_⟩
      rcases ha.claimsOf_won hnow with hnew | hlive
      · exact List.mem_append_right _ (List.mem_map.2 ⟨seq, hnew, rfl⟩)
      · exact List.mem_append_left _ (h.publishing.sound.won.live p u hu seq hlive)
    · obtain ⟨q, hq⟩ := h.listed_won seq hold
      exact ⟨q, List.mem_append_left _ hq⟩

/-- A reader that reads again and again measures nothing. -/
theorem reads_only {s s' : Threads kind cap Parcel} (hs : StepOf s move signal s')
    (hmove : IsReading move) (h : ∀ stage, s.consumer ≠ some (.measuring stage)) :
    ∀ stage, s'.consumer ≠ some (.measuring stage) := by
  cases hs with
  | read | ignored => first | exact h | exact nofun
  | consume call fails =>
    cases call with
    | measuring stage => exact absurd rfl (h stage)
    | reading stage =>
      rw [consumeAccess_reading]
      intro stage' heq
      obtain ⟨_, -, heq⟩ := Option.map_eq_some_iff.1 heq
      cases heq
  | _ =>
    rcases hmove with ⟨limit, hread⟩ | hconsume
    · cases hread
    · cases hconsume

/-- The reader is handed no more messages than are missing. -/
theorem Tracked.read (h : Tracked w wins log t)
    (hnext : readNext t.missing t.threads.consumer = some move) :
    Tracked w wins (log ++ [(t.threads.step move).1]) (t.step w .reader) := by
  have hmove := isReading_of_readNext hnext
  have hpublishing := h.publishing.read hmove
  have hproducers := (reading_step (stepOf t.threads move) hmove).1
  rw [step_reader hnext]
  have hreceived : (parcelsOf (t.threads.step move).1 ++ t.received).reverse =
      (handedOf (log ++ [(t.threads.step move).1])).map (·.2) := by
    rw [handedOf_map, List.reverse_append, h.received]
    cases (t.threads.step move).1 <;> rfl
  refine ⟨hpublishing, hreceived, ?_, ?_, ?_, h.listed_won⟩
  · -- what was handed over was claimed
    have hlength := congrArg List.length hreceived
    rw [List.length_reverse, List.length_map] at hlength
    have hhanded := hpublishing.sound.recorded.length_le
    have htail := hpublishing.tail_le
    have hmissing := h.missing
    show t.missing - _ + _ = _
    rw [List.length_append] at hlength ⊢
    omega
  · exact reads_only (stepOf t.threads move) hmove h.reading
  · intro q seq hmem
    rw [hproducers]
    exact h.listed q seq hmem

theorem Tracked.step (h : Tracked w wins log t) (turn : Turn) :
    ∃ wins' log', Tracked w wins' log' (t.step w turn) := by
  rcases turn_cases t w turn with hpass | ⟨p, spurious, pub, u, move, rfl, hpub, hu, hnext⟩ |
    ⟨rfl, move, hnext⟩
  · rw [hpass]
    exact ⟨wins, log, h⟩
  · obtain ⟨signal, u', r', new, -, -, htracked⟩ := h.produce hpub hu hnext
    exact ⟨_, _, htracked⟩
  · exact ⟨_, _, h.read hnext⟩

theorem Tracked.run (h : Tracked w wins log t) (turns : List Turn) :
    ∃ wins' log', Tracked w wins' log' (t.run w turns) := by
  induction turns generalizing t wins log with
  | nil => exact ⟨wins, log, h⟩
  | cons turn turns ih =>
    obtain ⟨wins', log', h'⟩ := h.step turn
    exact ih h'

theorem run_append (t : Traffic kind cap) (w : Workload) (first second : List Turn) :
    t.run w (first ++ second) = (t.run w first).run w second :=
  List.foldl_append

/-! ## What is left to do -/

/-- How much is left to do: claims to win and to commit, messages to hand over, and numbers
for the head to move over. -/
def left (w : Workload) (t : Traffic kind cap) : Nat :=
  2 * (w.total - t.threads.ring.tail) + t.threads.live.length + t.missing +
    (w.total - t.threads.ring.head)

/-- Nothing of what is left was done in between. -/
structure Stays (t t' : Traffic kind cap) : Prop where
  tail : t'.threads.ring.tail = t.threads.ring.tail
  head : t'.threads.ring.head = t.threads.ring.head
  live : t'.threads.live.length = t.threads.live.length
  missing : t'.missing = t.missing

/-- A claim that is won is live; otherwise no claim becomes live. -/
theorem live_effect {r r' : Ring kind cap Parcel} {live live' : List Nat}
    {c c' : Option ConsumerCall} (he : Effect r live c signal r' live' c') :
    r'.tail = r.tail ∧ live'.length ≤ live.length ∨
      r'.tail = r.tail + 1 ∧ live'.length = live.length + 1 := by
  cases he with
  | take => exact .inr ⟨rfl, rfl⟩
  | commit | abandon => exact .inl ⟨rfl, List.length_erase_le⟩
  | consume fails call => exact .inl ⟨tail_consumeAccess fails call r, Nat.le_refl _⟩
  | _ => exact .inl ⟨rfl, Nat.le_refl _⟩

/-- A turn does a part of what is left, or leaves it as it is. -/
theorem Tracked.left_step (h : Tracked w wins log t) (turn : Turn) :
    left w (t.step w turn) < left w t ∨ Stays t (t.step w turn) := by
  obtain ⟨wins', log', h'⟩ := h.step turn
  have hmoves : t.step w turn = t ∨ ∃ move, (t.step w turn).threads = (t.threads.step move).2 ∧
      (t.step w turn).missing ≤ t.missing := by
    rcases turn_cases t w turn with hpass | ⟨p, spurious, pub, u, move, rfl, hpub, hu, hnext⟩ |
      ⟨rfl, move, hnext⟩
    · exact .inl hpass
    · obtain ⟨signal, u', r', new, hstep, -, -⟩ := h.publishing.produce hpub hu hnext
      refine .inr ⟨move, ?_⟩
      rw [step_producer hpub hu hnext hstep, hstep]
      exact ⟨rfl, Nat.le_refl _⟩
    · refine .inr ⟨move, ?_⟩
      rw [step_reader hnext]
      exact ⟨rfl, Nat.sub_le _ _⟩
  rcases hmoves with hpass | ⟨move, hthreads, hmissing⟩
  · rw [hpass]
    exact .inr ⟨rfl, rfl, rfl, rfl⟩
  · have hinv := h.publishing.sound.inv
    obtain ⟨live', hlive, he⟩ := effect_step hinv move
    have hcost := live_effect he
    have hhead := (he.counters_le hinv.reader).1
    rw [← hlive.length_eq] at hcost
    have htail' := h'.publishing.tail_le
    have hhead' := h'.publishing.sound.inv.owned.head_le_tail
    rw [← hthreads] at hcost hhead
    by_cases hstays : Stays t (t.step w turn)
    · exact .inr hstays
    · refine .inl ?_
      by_contra hnot
      unfold left at hnot
      exact hstays ⟨by omega, by omega, by omega, by omega⟩

/-! ## A producer that is given turns -/

/-- Turns can be taken by which a part of what is left is done. -/
def Improves (w : Workload) (t : Traffic kind cap) : Prop :=
  ∃ turns, left w (t.run w turns) < left w t

theorem Improves.of_stays {turn : Turn} (hstays : Stays t (t.step w turn))
    (h : Improves w (t.step w turn)) : Improves w t := by
  obtain ⟨turns, hless⟩ := h
  refine ⟨turn :: turns, Nat.lt_of_lt_of_eq hless ?_⟩
  rw [left, hstays.tail, hstays.head, hstays.live, hstays.missing]
  rfl

/-- How many turns of its own a producer takes at most until it wins or commits a claim. -/
def patience (r : Ring kind cap Parcel) (pub : Publisher) (u : ProducerThread) : Nat :=
  match u.call with
  | some (.claiming .start) => 3
  | some (.claiming (.loaded counter)) => if counter = firstLoad r then 2 else 5
  | some (.claiming (.room tail)) => if tail = r.tail then 1 else 4
  | some (.claiming (.won _)) => 6
  | some (.measuring _) => 0
  | none => if pub.unwritten.isSome then 5 else if pub.committing then 0 else 4

/-- A producer can go on: there is room for a claim, or its batch is claimed in full. -/
def CanGo (w : Workload) (r : Ring kind cap Parcel) (pub : Publisher) (u : ProducerThread) :
    Prop :=
  r.tail < r.head + cap.size ∨ pub.committing = true ∨ u.live.length = batchAt w pub

/-- A producer whose batch is not claimed in full can go on only if there is room. -/
theorem CanGo.room {sent : Nat} {unwritten : Option Nat}
    (hgo : CanGo w r ⟨sent, unwritten, false⟩ u)
    (hlive : u.live.length < batchAt w ⟨sent, unwritten, false⟩) :
    r.tail < r.head + cap.size := by
  rcases hgo with hroom | hcommitting | hfull
  · exact hroom
  · cases hcommitting
  · exact absurd hfull (Nat.ne_of_lt hlive)

/-- A turn of a producer that neither wins nor commits a claim brings it nearer to that. -/
theorem Advance.nearer (ha : Advance w p false r pub u signal pub' u' r' new)
    (hphase : Phase w pub u) (hgo : CanGo w r pub u) (htail : r'.tail = r.tail)
    (hhead : r'.head = r.head) (hlive : u'.live.length = u.live.length) :
    pub'.sent = pub.sent ∧ CanGo w r' pub' u' ∧ patience r' pub' u' < patience r pub u := by
  cases ha with
  | start => exact ⟨rfl, hgo, Nat.lt_succ_self 3⟩
  | load =>
    refine ⟨rfl, hgo, ?_⟩
    simp only [patience, if_true]
    exact Nat.lt_succ_self 2
  | check =>
    refine ⟨rfl, hgo, ?_⟩
    simp only [patience, if_true]
    split <;> decide
  | @refused sent counter held hfull =>
    refine ⟨rfl, hgo, ?_⟩
    have hroom : r.tail < r.head + cap.size := by
      cases hphase with
      | claiming hheld => exact hgo.room hheld
    have hstale : counter ≠ firstLoad r := fun hfresh => Nat.not_lt.2 (hfull hfresh) hroom
    simp only [patience, if_neg hstale]
    exact Nat.lt_succ_self 4
  | lost hlost =>
    refine ⟨rfl, hgo, ?_⟩
    simp only [patience, if_neg fun heq => Bool.false_ne_true (hlost heq)]
    exact Nat.lt_succ_self 3
  | win | take => exact absurd htail (Nat.succ_ne_self _)
  | tag =>
    refine ⟨rfl, ?_, Nat.lt_succ_self 5⟩
    rw [CanGo, htail, hhead]
    exact hgo
  | @write sent seq rest =>
    refine ⟨rfl, ?_, ?_⟩
    · rw [CanGo, htail, hhead]
      rcases hgo with hroom | hcommitting | hfull
      · exact .inl hroom
      · cases hcommitting
      · exact .inr (.inl (beq_iff_eq.2 hfull))
    · simp only [patience, Option.isSome_some, if_true, Option.isSome_none, Bool.false_eq_true,
        if_false]
      split <;> decide
  | commit => exact absurd hlive.symm (Nat.succ_ne_self _)

/-- A producer that is not done has a next move. -/
theorem exists_produceNext (hphase : Phase w pub u) (hsent : pub.sent < w.per) (spurious : Bool) :
    ∃ move, produceNext w p pub u spurious = some move := by
  cases hphase with
  | idle => exact ⟨_, by simp only [produceNext, Bool.false_eq_true, if_false]; exact if_pos hsent⟩
  | claiming | writing | committing => exact ⟨_, rfl⟩

theorem length_live_set {ps : List ProducerThread} (hu : ps[p]? = some u) (u' : ProducerThread) :
    (liveOf (ps.set p u')).length + u.live.length = (liveOf ps).length + u'.live.length := by
  obtain ⟨before, after, hps, hset⟩ := liveOf_set hu
  rw [hset, hps]
  simp only [List.length_append]
  omega

/-- A producer that can go on wins or commits a claim if it is given turns. -/
theorem Tracked.producer_improves (h : Tracked w wins log t) (hpub : t.publishers[p]? = some pub)
    (hu : t.threads.producers[p]? = some u) (hsent : pub.sent < w.per)
    (hgo : CanGo w t.threads.ring pub u) : Improves w t := by
  induction hn : patience t.threads.ring pub u using Nat.strongRecOn
    generalizing t wins log pub u with
  | ind n ih =>
    subst hn
    have hphase := (h.publishing.each p pub u hpub hu).phase
    obtain ⟨move, hnext⟩ := exists_produceNext (p := p) hphase hsent false
    obtain ⟨signal, u', r', new, ha, hturn, htracked⟩ := h.produce hpub hu hnext
    rcases h.left_step (.producer p false) with hless | hstays
    · exact ⟨[.producer p false], hless⟩
    · refine .of_stays hstays ?_
      have hlt := (List.getElem?_eq_some_iff.1 hu).1
      have hpubs : p < t.publishers.length := (List.getElem?_eq_some_iff.1 hpub).1
      rw [hturn] at hstays htracked ⊢
      have hsize := length_live_set hu u'
      have hlive := hstays.live
      obtain ⟨hsame, hgo', hnearer⟩ := ha.nearer hphase hgo hstays.tail hstays.head (by
        unfold Threads.live at hlive
        simp only at hlive
        omega)
      exact ih _ hnearer htracked (List.getElem?_set_self hpubs) (List.getElem?_set_self hlt)
        (hsame ▸ hsent) hgo' rfl

/-! ## A reader that is given turns -/

/-- How many turns the reader takes at most until its read ends. -/
def stagesLeft (r : Ring kind cap Parcel) : Ring.ReadStage → Nat
  | .start limit => 3 * min (distance r.tail r.head) limit + 3
  | .loaded start limit => 3 * min (distance r.tail start) limit + 2
  | .looking _ _ left => 3 * (left - 1) + 4
  | .handing _ _ left => 3 * (left - 1) + 3
  | .clearing _ _ left => 3 * (left - 1) + 2
  | .leaving _ _ => 0

theorem stagesLeft_next (r : Ring kind cap Parcel) (start count left : Nat) :
    stagesLeft r (.next start count left) < 3 * left + 2 := by
  cases left with
  | zero => exact Nat.succ_pos _
  | succ left =>
    show 3 * left + 4 < 3 * (left + 1) + 2
    omega

/-- Each access of a read brings its end nearer. -/
theorem stagesLeft_readAccess {stage stage' : Ring.ReadStage}
    (h : (r.readAccess false stage).1.stage? = some stage') :
    stagesLeft (r.readAccess false stage).2 stage' < stagesLeft r stage := by
  cases stage with
  | start limit =>
    obtain rfl : .loaded r.head limit = stage' := Option.some.inj h
    exact Nat.lt_succ_self _
  | loaded start limit =>
    obtain rfl : .next start 0 (min (distance r.tail start) limit) = stage' := Option.some.inj h
    exact stagesLeft_next r start 0 _
  | looking start count left =>
    by_cases hready : r.markOf (start + count) = .ready
    · simp only [Ring.readAccess, if_pos hready] at h ⊢
      obtain rfl : .handing start count left = stage' := Option.some.inj h
      exact Nat.lt_succ_self _
    · simp only [Ring.readAccess, if_neg hready] at h ⊢
      obtain rfl : .leaving start count = stage' := Option.some.inj h
      exact Nat.succ_pos _
  | handing start count left =>
    obtain rfl : .clearing start count left = stage' := Option.some.inj h
    exact Nat.lt_succ_self _
  | clearing start count left =>
    obtain rfl : .next start (count + 1) (left - 1) = stage' := Option.some.inj h
    exact stagesLeft_next _ start (count + 1) (left - 1)
  | leaving => cases h

theorem step_consume {s : Threads kind cap Parcel} {stage : Ring.ReadStage}
    (hcall : s.consumer = some (.reading stage)) :
    (s.step (.consume false)).2 = ⟨(s.ring.readAccess false stage).2, s.producers,
      (s.ring.readAccess false stage).1.stage?.map .reading⟩ := by
  obtain ⟨r, ps, c⟩ := s
  obtain rfl : c = some (.reading stage) := hcall
  have haccess := consumeAccess_reading false stage r
  simp only [Threads.step, haccess]

theorem threads_read {stage : Ring.ReadStage} (hcall : t.threads.consumer = some (.reading stage)) :
    (t.step w .reader).threads =
      ⟨(t.threads.ring.readAccess false stage).2, t.threads.producers,
        (t.threads.ring.readAccess false stage).1.stage?.map .reading⟩ := by
  have hnext : readNext t.missing t.threads.consumer = some (.consume false) := by
    rw [hcall]
    rfl
  rw [step_reader hnext]
  exact step_consume hcall

/-- The reader comes to the end of its read if it is given turns. -/
theorem Tracked.reader_rests (h : Tracked w wins log t) :
    ∃ turns, (t.run w turns).threads.consumer = none ∧ left w (t.run w turns) ≤ left w t := by
  cases hcall : t.threads.consumer with
  | none => exact ⟨[], hcall, Nat.le_refl _⟩
  | some call =>
    cases call with
    | measuring stage => exact absurd hcall (h.reading stage)
    | reading stage =>
      induction hn : stagesLeft t.threads.ring stage using Nat.strongRecOn
        generalizing t wins log stage with
      | ind n ih =>
        subst hn
        have hnext : readNext t.missing t.threads.consumer = some (.consume false) := by
          rw [hcall]
          rfl
        have htracked := h.read hnext
        have hle : left w (t.step w .reader) ≤ left w t := by
          rcases h.left_step .reader with hless | hstays
          · exact Nat.le_of_lt hless
          · rw [left, hstays.tail, hstays.head, hstays.live, hstays.missing]
            exact Nat.le_refl _
        have hthreads := threads_read (w := w) hcall
        cases hstage : (t.threads.ring.readAccess false stage).1.stage? with
        | none =>
          refine ⟨[.reader], ?_, hle⟩
          show (t.step w .reader).threads.consumer = none
          rw [hthreads, hstage]
          rfl
        | some stage' =>
          have hnearer := stagesLeft_readAccess hstage
          have hnow : (t.step w .reader).threads.consumer = some (.reading stage') := by
            rw [hthreads, hstage]
            rfl
          obtain ⟨turns, hidle, hless⟩ := ih _ hnearer htracked stage' hnow (by rw [hthreads])
          exact ⟨.reader :: turns, hidle, Nat.le_trans hless hle⟩

/-- A reader that finds the next message ready hands it over if it is given turns. -/
theorem reader_improves (hidle : t.threads.consumer = none) (hmissing : t.missing ≠ 0)
    (hlt : t.threads.ring.head < t.threads.ring.tail)
    (hready : t.threads.ring.markOf t.threads.ring.head = .ready) : Improves w t := by
  obtain ⟨⟨r, ps, c⟩, pubs, missing, claimed, received⟩ := t
  obtain rfl : c = none := hidle
  simp only at hmissing hlt hready
  obtain ⟨more, hmore⟩ : ∃ more, min (distance r.tail r.head) Ring.noLimit = more + 1 := by
    have hpos : 0 < min (distance r.tail r.head) Ring.noLimit := by
      rw [distance_of_le (Nat.le_of_lt hlt)]
      exact Nat.lt_min.2 ⟨Nat.sub_pos_of_lt hlt, by decide⟩
    exact ⟨_, (Nat.succ_pred_eq_of_pos hpos).symm⟩
  refine ⟨[.reader, .reader, .reader, .reader, .reader], ?_⟩
  have hread : (⟨⟨r, ps, none⟩, pubs, missing, claimed, received⟩ : Traffic kind cap).run w
      [.reader, .reader, .reader, .reader, .reader] =
        ⟨⟨r, ps, some (.reading (.clearing r.head 0 (more + 1)))⟩, pubs, missing - 1, claimed,
          r.slotOf r.head :: received⟩ := by
    simp [run, step, readNext, hmissing, Threads.step, consumeAccess, Ring.readAccess, hmore,
      Ring.ReadStage.next, hready]
  rw [hread]
  unfold left
  simp only [Threads.live]
  omega

/-! ## A workload is carried out -/

/-- A producer whose claims are all won and committed is done. -/
theorem Publishes.done (h : Publishes w p won log r pub u) (hwon : won.length = w.per)
    (hlive : u.live = []) : pub = ⟨w.per, none, false⟩ ∧ u.call = none := by
  have hlength := h.length
  have hbatch := batchAt_le w pub
  rw [hwon, hlive] at hlength
  cases h.phase with
  | idle =>
    obtain rfl : w.per = _ := hlength
    exact ⟨rfl, rfl⟩
  | claiming hheld =>
    obtain rfl : w.per = _ := hlength
    have := sent_lt_of_lt_batchAt hheld
    exact absurd this (Nat.lt_irrefl _)
  | writing | committing => cases hlive

/-- A producer with live claims is not done. -/
theorem Phase.sent_lt (h : Phase w pub u) {seq : Nat} (hlive : seq ∈ u.live) :
    pub.sent < w.per := by
  cases h with
  | idle hheld =>
    rcases hheld with hheld | ⟨-, rfl⟩
    · exact sent_lt_of_lt_batchAt hheld
    · cases hlive
  | claiming hheld => exact sent_lt_of_lt_batchAt hheld
  | writing hrest => exact sent_lt_of_lt_batchAt hrest
  | committing hrest => exact sent_lt_of_lt_batchAt hrest

/-- No producer has more live claims than its batch has. -/
theorem Phase.length_live_le (h : Phase w pub u) :
    pub.committing = true ∨ u.live.length ≤ batchAt w pub := by
  cases h with
  | idle hheld =>
    rcases hheld with hheld | ⟨-, rfl⟩
    · exact .inr (Nat.le_of_lt hheld)
    · exact .inr (Nat.zero_le _)
  | @claiming sent stage held hheld =>
    exact .inr (Nat.le_trans (length_live_le stage held) hheld)
  | writing hrest => exact .inr hrest
  | committing => exact .inl rfl

/-- Batches of one message do not have to wait for room, and neither do batches of one
producer that fit into the ring. -/
def Fits (w : Workload) (cap : Capacity) : Prop :=
  w.batch ≤ 1 ∨ w.producers ≤ 1 ∧ min w.batch w.per ≤ cap.size

/-- One producer wins all claims. -/
theorem wonBy_of_one {n : Nat} (hnumbered : wins.map (·.2) = List.range n)
    (hwinner : ∀ win ∈ wins, win.1 < w.producers) (hone : w.producers ≤ 1) (hp : p < w.producers) :
    wonBy wins p = List.range n := by
  have hall : ∀ win ∈ wins, (win.1 == p) = true := by
    intro win hmem
    have := hwinner win hmem
    exact beq_iff_eq.2 (by omega)
  rw [wonBy, List.filter_eq_self.2 hall, hnumbered]

/-- The producer of the oldest message, if that is not committed, can go on: the messages after
it are all of its batch. -/
theorem Tracked.canGo (h : Tracked w wins log t) (hfits : Fits w cap)
    (hpub : t.publishers[p]? = some pub) (hu : t.threads.producers[p]? = some u)
    (hlive : t.threads.ring.head ∈ u.live) : CanGo w t.threads.ring pub u := by
  have hmine := h.publishing.each p pub u hpub hu
  rcases hmine.phase.length_live_le with hcommitting | hle
  · exact .inr (.inl hcommitting)
  rcases Nat.eq_or_lt_of_le hle with hfull | hlt
  · exact .inr (.inr hfull)
  by_cases hcommitting : pub.committing = true
  · exact .inr (.inl hcommitting)
  refine .inl ?_
  have hpos : 0 < u.live.length := List.length_pos_of_mem hlive
  unfold batchAt at hlt
  rcases hfits with hsmall | ⟨hone, hbatch⟩
  · omega
  · have hp : p < w.producers := by
      rw [← h.publishing.threads]
      exact (List.getElem?_eq_some_iff.1 hu).1
    have hall := wonBy_of_one h.publishing.sound.won.numbered h.publishing.winner hone hp
    have hlength := hmine.length
    have hmem := hmine.live.subset (List.mem_reverse.2 hlive)
    rw [hall, List.length_range, if_neg hcommitting] at hlength
    rw [hall] at hmem
    obtain ⟨i, hi⟩ := List.mem_iff_getElem?.1 hmem
    rw [List.getElem?_drop] at hi
    obtain ⟨hlt', heq⟩ := List.getElem?_eq_some_iff.1 hi
    rw [List.getElem_range] at heq
    have hsize := cap.size_pos
    omega

theorem isDone_iff : t.isDone w = true ↔
    (∀ pub ∈ t.publishers, pub = ⟨w.per, none, false⟩) ∧
      (∀ u ∈ t.threads.producers, u.call = none) ∧ t.threads.consumer = none ∧ t.missing = 0 := by
  have hpub : ∀ pub : Publisher, (pub.sent == w.per && pub.unwritten.isNone && !pub.committing) =
      true ↔ pub = ⟨w.per, none, false⟩ := by
    rintro ⟨sent, unwritten, committing⟩
    simp [and_assoc]
  simp only [isDone, Bool.and_eq_true, List.all_eq_true, hpub, Option.isNone_iff_eq_none,
    beq_iff_eq, and_assoc]

/-- If all is claimed and the head has moved over all of it, nothing is left to do. -/
theorem Tracked.isDone_of_empty (h : Tracked w wins log t) (hall : t.threads.ring.tail = w.total)
    (hempty : t.threads.ring.head = t.threads.ring.tail) (hidle : t.threads.consumer = none)
    (hmissing : t.missing = 0) : t.isDone w = true := by
  have ho := h.publishing.sound.inv.owned
  have hdone : ∀ (p : Nat) (pub : Publisher) (u : ProducerThread), t.publishers[p]? = some pub →
      t.threads.producers[p]? = some u → pub = ⟨w.per, none, false⟩ ∧ u.call = none := by
    intro p pub u hpub hu
    have hp : p < w.producers := by
      rw [← h.publishing.threads]
      exact (List.getElem?_eq_some_iff.1 hu).1
    have hlive : u.live = [] := by
      refine List.eq_nil_iff_forall_not_mem.2 fun seq hseq => ?_
      have hle := ho.head_le seq (mem_liveOf hu hseq)
      have hlt := ho.lt_tail seq (mem_liveOf hu hseq)
      omega
    exact (h.publishing.each p pub u hpub hu).done (h.publishing.length_wonBy_eq hall hp) hlive
  rw [isDone_iff]
  refine ⟨fun pub hmem => ?_, fun u hmem => ?_, hidle, hmissing⟩
  · obtain ⟨p, hpub⟩ := List.mem_iff_getElem?.1 hmem
    have hp := (List.getElem?_eq_some_iff.1 hpub).1
    obtain ⟨_, u, -, hu, -⟩ := h.publishing.exists_at (h.publishing.publishers ▸ hp)
    exact (hdone p pub u hpub hu).1
  · obtain ⟨p, hu⟩ := List.mem_iff_getElem?.1 hmem
    have hp := (List.getElem?_eq_some_iff.1 hu).1
    obtain ⟨pub, _, hpub, -, -⟩ := h.publishing.exists_at (h.publishing.threads ▸ hp)
    exact (hdone p pub u hpub hu).2

/-- Between two reads, the workload is carried out or a part of what is left can be done. -/
theorem Tracked.done_or_improves (h : Tracked w wins log t) (hfits : Fits w cap)
    (hidle : t.threads.consumer = none) : t.isDone w = true ∨ Improves w t := by
  have hsound := h.publishing.sound
  have ho := hsound.inv.owned
  have hhanded : (handedOf log).length = t.threads.ring.head := by
    have hlevel := hsound.level
    rw [hidle] at hlevel
    exact hlevel
  have hreceived : t.received.length = t.threads.ring.head := by
    rw [← hhanded, ← List.length_reverse, h.received, List.length_map]
  have hmissing := h.missing
  have htail := h.publishing.tail_le
  rcases Nat.eq_or_lt_of_le ho.head_le_tail with hempty | hwaiting
  · rcases Nat.eq_or_lt_of_le htail with hall | hshort
    · refine .inl (h.isDone_of_empty hall hempty hidle ?_)
      omega
    · -- the ring is empty: a producer with messages left finds room
      refine .inr ?_
      obtain ⟨p, hp, hless⟩ := h.publishing.exists_short hshort
      obtain ⟨pub, u, hpub, hu, hmine⟩ := h.publishing.exists_at hp
      have hsent : pub.sent < w.per := by
        refine Nat.lt_of_le_of_ne hmine.phase.sent_le fun heq => ?_
        exact Nat.ne_of_lt hless (hmine.length_eq heq)
      have hsize := cap.size_pos
      exact h.producer_improves hpub hu hsent (.inl (by omega))
  · refine .inr ?_
    by_cases hready : t.threads.ring.markOf t.threads.ring.head = .ready
    · exact reader_improves hidle (by omega) hwaiting hready
    · -- the oldest message is not committed: its producer can go on
      have hmem : t.threads.ring.head ∈ wins.map (·.2) := by
        rw [hsound.won.numbered]
        exact List.mem_range.2 hwaiting
      obtain ⟨⟨p, seq⟩, hwin, hseq⟩ := List.mem_map.1 hmem
      obtain rfl : seq = t.threads.ring.head := hseq
      obtain ⟨pub, u, hpub, hu, hmine⟩ := h.publishing.exists_at (h.publishing.winner _ hwin)
      rcases hmine.settled _ (mem_wonBy.2 hwin) with hlive | ⟨message, hcommit⟩
      · exact h.producer_improves hpub hu (hmine.phase.sent_lt hlive) (h.canGo hfits hpub hu hlive)
      · exact absurd (hsound.kept p _ message hcommit (Nat.le_of_eq hhanded)) hready

/-- From every state the workload can be carried out. -/
theorem Tracked.completes (h : Tracked w wins log t) (hfits : Fits w cap) :
    ∃ turns, (t.run w turns).isDone w = true := by
  induction hn : left w t using Nat.strongRecOn generalizing t wins log with
  | ind n ih =>
    subst hn
    obtain ⟨first, hidle, hle⟩ := h.reader_rests
    obtain ⟨_, _, h₁⟩ := h.run first
    rcases h₁.done_or_improves hfits hidle with hdone | ⟨second, hless⟩
    · exact ⟨first, hdone⟩
    · obtain ⟨_, _, h₂⟩ := h₁.run second
      obtain ⟨third, hdone⟩ := ih _ (Nat.lt_of_lt_of_le hless hle) h₂ rfl
      refine ⟨first ++ (second ++ third), ?_⟩
      rw [run_append, run_append]
      exact hdone

/-! ## What has arrived -/

/-- Dropping repetitions from a sorted list keeps one of each number. -/
theorem eraseReps_loop (l : List Nat) {x : Nat} (kept : List Nat)
    (h : (x :: l).Pairwise (· ≤ ·)) :
    ∃ rest, List.eraseRepsBy.loop (· == ·) x l kept = kept.reverse ++ rest ∧
      rest.Pairwise (· < ·) ∧ ∀ y, y ∈ rest ↔ y ∈ x :: l := by
  induction l generalizing x kept with
  | nil => exact ⟨[x], List.reverse_cons, List.pairwise_singleton _ _, fun _ => Iff.rfl⟩
  | cons z l ih =>
    obtain ⟨hfirst, hrest⟩ := List.pairwise_cons.1 h
    have hle := hfirst z List.mem_cons_self
    rw [List.eraseRepsBy.loop]
    by_cases heq : x = z
    · subst heq
      obtain ⟨rest, hloop, hsorted, hmem⟩ := ih kept hrest
      simp only [beq_self_eq_true]
      refine ⟨rest, hloop, hsorted, fun y => ?_⟩
      rw [hmem, List.mem_cons, List.mem_cons, List.mem_cons]
      tauto
    · obtain ⟨rest, hloop, hsorted, hmem⟩ := ih (x :: kept) hrest
      simp only [beq_eq_false_iff_ne.2 heq]
      refine ⟨x :: rest, by rw [hloop, List.reverse_cons, List.append_assoc]; rfl,
        List.pairwise_cons.2 ⟨fun y hy => ?_, hsorted⟩, fun y => ?_⟩
      · rcases List.mem_cons.1 ((hmem y).1 hy) with rfl | hy
        · omega
        · have := (List.pairwise_cons.1 hrest).1 y hy
          omega
      · rw [List.mem_cons, hmem, List.mem_cons, List.mem_cons, List.mem_cons]

/-- A sorted list of the numbers below a bound, without repetitions. -/
theorem eraseReps_eq_range {l : List Nat} {n : Nat} (hsorted : l.Pairwise (· ≤ ·))
    (hmem : ∀ x, x ∈ l ↔ x < n) : l.eraseReps = List.range n := by
  have hkept : l.eraseReps.Pairwise (· < ·) ∧ ∀ x, x ∈ l.eraseReps ↔ x ∈ l := by
    cases l with
    | nil => exact ⟨.nil, fun _ => Iff.rfl⟩
    | cons x l =>
      obtain ⟨rest, hloop, hrest, hsame⟩ := eraseReps_loop l [] hsorted
      rw [show (x :: l).eraseReps = rest from hloop]
      exact ⟨hrest, hsame⟩
  obtain ⟨hstrict, hsame⟩ := hkept
  refine List.Perm.eq_of_pairwise (fun x y _ _ hxy hyx => absurd hxy (Nat.lt_asymm hyx)) hstrict
    List.pairwise_lt_range ?_
  refine (List.perm_ext_iff_of_nodup (hstrict.imp Nat.ne_of_lt) List.nodup_range).2 fun x => ?_
  rw [hsame, hmem, List.mem_range]

/-- Once no call is in progress, all that was claimed is listed. -/
theorem Tracked.mem_claimed_iff (h : Tracked w wins log t)
    (hcalls : ∀ u ∈ t.threads.producers, u.call = none) (seq : Nat) :
    seq ∈ t.claimed ↔ seq < t.threads.ring.tail := by
  have hnumbered := h.publishing.sound.won.numbered
  rw [← List.mem_range, ← hnumbered, List.mem_map]
  constructor
  · intro hmem
    obtain ⟨p, hp⟩ := h.listed_won seq hmem
    exact ⟨(p, seq), hp, rfl⟩
  · rintro ⟨⟨p, seq'⟩, hwin, rfl⟩
    refine (h.listed p seq' hwin).resolve_right fun ⟨held, hheld⟩ => ?_
    cases hcalls _ (List.mem_of_getElem? hheld)

/-- The slots that `claims` fall on are the first ones. -/
theorem mem_slots_iff {n : Nat} (hclaimed : ∀ seq, seq ∈ claimed ↔ seq < n) (i : Nat) :
    i ∈ claimed.map (fun seq => (cap.indexOf seq).val) ↔ i < min cap.size n := by
  rw [List.mem_map]
  constructor
  · rintro ⟨seq, hmem, rfl⟩
    rw [hclaimed] at hmem
    have hle : (cap.indexOf seq).val ≤ seq := by
      rw [cap.indexOf_val]
      exact Nat.mod_le _ _
    exact Nat.lt_min.2 ⟨(cap.indexOf seq).isLt, by omega⟩
  · intro hlt
    obtain ⟨hsize, hn⟩ := Nat.lt_min.1 hlt
    exact ⟨i, (hclaimed i).2 hn, by rw [cap.indexOf_val, Nat.mod_eq_of_lt hsize]⟩

/-- What a workload comes to when it is carried out. -/
theorem Tracked.outcome (h : Tracked w wins log t) (hdone : t.isDone w = true) :
    t.received.length = w.total ∧ (∀ p < w.producers, t.numbersFrom p = List.range w.per) ∧
      t.threads.ring.len = 0 ∧ t.slotsUsed = List.range (min cap.size w.total) := by
  obtain ⟨hpubs, hcalls, hidle, hmissing⟩ := isDone_iff.1 hdone
  have hsound := h.publishing.sound
  have hreceived : t.received.length = w.total := by
    rw [← h.missing, hmissing, Nat.zero_add]
  have hhanded : (handedOf log).length = w.total := by
    have hlength := congrArg List.length h.received
    rw [List.length_reverse, List.length_map] at hlength
    exact hlength.symm.trans hreceived
  have htail : t.threads.ring.tail = w.total :=
    Nat.le_antisymm h.publishing.tail_le (hhanded ▸ hsound.recorded.length_le)
  have hhead : (handedOf log).length = t.threads.ring.head := by
    have hlevel := hsound.level
    rw [hidle] at hlevel
    exact hlevel
  refine ⟨hreceived, fun p hp => ?_, ?_, ?_⟩
  · rw [numbersFrom, h.received, List.filter_map, List.map_map]
    refine (h.publishing.numbers p).trans ?_
    rw [h.publishing.length_handedFrom hhanded hp]
  · rw [Ring.len, htail, ← hhead, hhanded, distance_self]
  · have hclaimed := h.mem_claimed_iff hcalls
    rw [htail] at hclaimed
    have hsorted : ((t.claimed.map fun seq => (cap.indexOf seq).val).mergeSort (· ≤ ·)).Pairwise
        fun i j => decide (i ≤ j) = true :=
      List.pairwise_mergeSort (by simp; omega) (by simp; omega) _
    refine eraseReps_eq_range (hsorted.imp fun hle => of_decide_eq_true hle) fun i => ?_
    rw [List.mem_mergeSort]
    exact mem_slots_iff hclaimed i

/-- Workloads do not get stuck, and what comes of them does not depend on the order of turns:
for many producers that claim message by message, for one producer that claims whole batches
which fit into the ring, and for every capacity. Whatever turns have been taken, the workload
can be carried out; and once it is, every producer's messages have arrived in order, the ring is
empty, and the slots used are the first ones, as many as there are messages or slots. -/
theorem workload_completes (w : Workload) (hone : kind = .oneProducer → w.producers ≤ 1)
    (hfits : Fits w cap) (turns : List Turn) :
    let t := (init w : Traffic kind cap).run w turns
    (∃ more, (t.run w more).isDone w = true) ∧
      (t.isDone w = true → t.received.length = w.total ∧
        (∀ p < w.producers, t.numbersFrom p = List.range w.per) ∧
        t.threads.ring.len = 0 ∧ t.slotsUsed = List.range (min cap.size w.total)) := by
  intro t
  have hinit : Tracked w [] [] (init w : Traffic kind cap) := tracked_init hone
  obtain ⟨wins, log, h⟩ := hinit.run turns
  exact ⟨h.completes hfits, h.outcome⟩

/-- Five messages in batches of three, through a ring of four slots. -/
theorem five_in_batches_complete :
    (1 ≤ 1 ∧ min 3 5 ≤ 4) ∧
      let t := (init ⟨1, 5, 3⟩ : Traffic .oneProducer ⟨4, by decide⟩).run ⟨1, 5, 3⟩
        [.producer 0 false, .reader, .producer 0 false, .producer 0 false, .producer 0 false]
      (∃ more, (t.run ⟨1, 5, 3⟩ more).isDone ⟨1, 5, 3⟩ = true) ∧
        (t.isDone ⟨1, 5, 3⟩ = true → t.received.length = 5 ∧
          (∀ p < 1, t.numbersFrom p = List.range 5) ∧
          t.threads.ring.len = 0 ∧ t.slotsUsed = List.range 4) :=
  ⟨by decide, @workload_completes .oneProducer ⟨4, by decide⟩ ⟨1, 5, 3⟩
    (fun _ => by decide) (.inr (by decide))
    [.producer 0 false, .reader, .producer 0 false, .producer 0 false, .producer 0 false]⟩

end RingTransport.Traffic
