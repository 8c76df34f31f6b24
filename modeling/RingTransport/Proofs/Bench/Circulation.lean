/-
  The benchmarks on one thread. Between two messages the numbers so far are those that were read
  and those that the ring holds, all of them committed (`Carries`). A claim either finds room, or
  the ring is full; then a drain takes all that the ring holds, and the second claim finds room
  (`Carries.publishes`). Main fact: the numbers below the count of iterations are read once each
  and in order, and two claims are enough for each (`circulates_in_order`).
-/
import Mathlib.Data.Nat.Choose.Basic
import RingTransport.Bench.Report
import RingTransport.Proofs.Ring.Taking

namespace RingTransport.Bench

variable {kind : Kind} {cap : Capacity} {ρ : Type}

/-! ## One message -/

section Message

variable {f : ρ → Nat → ρ} {r : Ring kind cap Nat} {q : Queue cap Nat} {x x₀ : ρ} {n claims : Nat}

/-- A drain reads all that is committed, if nothing else is in the ring. -/
theorem drainInto_committed (h : r.Holds q.first q) (hword : q.cells.length ≤ Ring.noLimit)
    (hcommitted : ∀ c ∈ q.cells, c.committed = true) (x : ρ) :
    ∃ r' q', drainInto f r x = (r', (q.cells.map Cell.value).foldl f x) ∧
      r'.Holds q'.first q' ∧ q'.cells = [] := by
  have hall : q.cells = ((q.cells.drop 0).takeWhile Cell.committed).take q.cells.length := by
    rw [List.drop_zero, List.takeWhile_eq_self_iff.2 hcommitted, List.take_length]
  have hfirst : r.Holds (q.first + 0) q := h
  obtain ⟨r', hscan, h'⟩ := hfirst.scan_folding f q.cells.length (x := x) (by omega) hall
  rw [Nat.zero_add] at hscan h'
  refine ⟨r', _, ?_, h', by rw [Queue.cells_drop, List.drop_length]⟩
  rw [drainInto, Ring.readLimit, h.distance_eq, h.head_eq, Nat.min_eq_left hword, hscan]

/-- The numbers below `n` are those that were read and those that the ring holds, in this order.
What the ring holds is committed, and what was read is folded into the result. -/
def Carries (f : ρ → Nat → ρ) (x₀ : ρ) (n : Nat) (r : Ring kind cap Nat) (x : ρ) : Prop :=
  ∃ read q, List.range n = read ++ q.cells.map Cell.value ∧ r.Holds q.first q ∧
    (∀ c ∈ q.cells, c.committed = true) ∧ x = read.foldl f x₀

theorem carries_filled (f : ρ → Nat → ρ) (x₀ : ρ) :
    Carries f x₀ 0 (Ring.filled 0 : Ring kind cap Nat) x₀ :=
  ⟨[], .ofContents (.replicate cap.size 0), rfl, Ring.holds_ofSlots _, nofun, rfl⟩

/-- A drain folds in what the ring holds, and leaves the ring empty. -/
theorem Carries.drain (h : Carries f x₀ n r x) (hn : n < Word.count) :
    ∃ (r' : Ring kind cap Nat) (q' : Queue cap Nat),
      drainInto f r x = (r', (List.range n).foldl f x₀) ∧ r'.Holds q'.first q' ∧ q'.cells = [] := by
  obtain ⟨read, q, hrange, hq, hcommitted, rfl⟩ := h
  have hword : q.cells.length ≤ Ring.noLimit := by
    have hlength := congrArg List.length hrange
    rw [List.length_range, List.length_append, List.length_map] at hlength
    simp only [Ring.noLimit, Word.largest]
    omega
  obtain ⟨r', q', hdrain, hq', hempty⟩ := drainInto_committed (f := f) hq hword hcommitted
    (read.foldl f x₀)
  rw [← List.foldl_append, ← hrange] at hdrain
  exact ⟨r', q', hdrain, hq', hempty⟩

/-- With room in the ring the first claim publishes the number. -/
theorem Carries.publishes_first {read : List Nat}
    (hrange : List.range n = read ++ q.cells.map Cell.value) (hq : r.Holds q.first q)
    (hcommitted : ∀ c ∈ q.cells, c.committed = true) (hroom : q.cells.length < cap.size)
    (claims : Nat) :
    ∃ r', offer f n (claims + 1) r (read.foldl f x₀) = some (r', read.foldl f x₀) ∧
      Carries f x₀ (n + 1) r' (read.foldl f x₀) := by
  obtain ⟨r', hclaim, hfill⟩ := hq.fill hroom n
  refine ⟨(r'.write (cap.indexOf q.stop) n).commit (cap.indexOf q.stop),
    by simp only [offer, hclaim], read, (q.push.set q.stop n).commit q.stop, ?_, hfill.publish, ?_,
    rfl⟩
  · rw [q.cells_publish, List.map_append, ← List.append_assoc, ← hrange, List.range_succ]
    rfl
  · rw [q.cells_publish]
    intro c hc
    rcases List.mem_append.1 hc with hold | hnew
    · exact hcommitted c hold
    · rw [List.mem_singleton.1 hnew]

/-- Two claims are enough to publish a number. -/
theorem Carries.publishes (h : Carries f x₀ n r x) (hn : n < Word.count) (hclaims : 2 ≤ claims) :
    ∃ r' x', offer f n claims r x = some (r', x') ∧ Carries f x₀ (n + 1) r' x' := by
  obtain ⟨claims, rfl⟩ := Nat.exists_eq_add_of_le' hclaims
  obtain ⟨read, q, hrange, hq, hcommitted, rfl⟩ := id h
  by_cases hfull : q.cells.length = cap.size
  · obtain ⟨r', q', hdrain, hq', hempty⟩ := h.drain hn
    have hroom : q'.cells.length < cap.size := by
      rw [hempty]
      exact cap.size_pos
    have hall : List.range n = List.range n ++ q'.cells.map Cell.value := by
      rw [hempty, List.map_nil, List.append_nil]
    have hnone : ∀ c ∈ q'.cells, c.committed = true := by
      rw [hempty]
      exact nofun
    obtain ⟨r'', hoffer, hcarries⟩ := Carries.publishes_first hall hq' hnone hroom claims
    refine ⟨r'', _, ?_, hcarries⟩
    rw [offer, hq.tryClaim_full hfull]
    simp only [hdrain]
    exact hoffer
  · have hroom := Nat.lt_of_le_of_ne hq.length_le hfull
    obtain ⟨r', hoffer, hcarries⟩ := Carries.publishes_first hrange hq hcommitted hroom (claims + 1)
    exact ⟨r', _, hoffer, hcarries⟩

end Message

/-! ## All messages -/

theorem Carries.publishes_all {f : ρ → Nat → ρ} {x x₀ : ρ} {r : Ring kind cap Nat}
    {n left claims : Nat} (h : Carries f x₀ n r x) (hn : n + left < Word.count)
    (hclaims : 2 ≤ claims) :
    ∃ r' x', offerAll f claims left n r x = some (r', x') ∧ Carries f x₀ (n + left) r' x' := by
  induction left generalizing n r x with
  | zero => exact ⟨r, x, rfl, h⟩
  | succ left ih =>
    obtain ⟨r', x', hoffer, h'⟩ := h.publishes (by omega) hclaims
    obtain ⟨r'', x'', hrest, h''⟩ := ih h' (by omega)
    refine ⟨r'', x'', ?_, ?_⟩
    · simp only [offerAll, hoffer, hrest]
    · rw [Nat.add_right_comm] at h''
      exact h''

/-- The numbers below the count of iterations are read once each and in order. -/
theorem circulate_eq (kind : Kind) (cap : Capacity) (f : ρ → Nat → ρ) (x : ρ)
    {iterations claims : Nat} (hword : iterations < Word.count) (hclaims : 2 ≤ claims) :
    circulate kind cap f claims iterations x = some ((List.range iterations).foldl f x) := by
  have hmade : Carries f x 0 (Ring.filled 0 : Ring kind cap Nat) x := carries_filled f x
  have hleft : 0 + iterations < Word.count := by rwa [Nat.zero_add]
  obtain ⟨r, y, hall, h⟩ := hmade.publishes_all hleft hclaims
  rw [Nat.zero_add] at h
  obtain ⟨r', q', hdrain, -⟩ := h.drain hword
  simp only [circulate, hall, Option.bind_eq_bind, Option.bind_some, hdrain]
  rfl

/-- The sum of the numbers below `n`, in words. -/
theorem foldl_addTo (n : Nat) : (List.range n).foldl addTo 0 = UInt64.ofNat (n * (n - 1) / 2) := by
  induction n with
  | zero => rfl
  | succ n ih =>
    rw [List.range_succ, List.foldl_append, ih, Nat.triangle_succ, UInt64.ofNat_add]
    rfl

/-- The first benchmark with a capacity that is accepted and any count of iterations that is a
word. Two claims are enough for each message, and more make no difference. Whatever is done with
the messages that are read, it is done with the numbers below the count of iterations, each once
and in order; and their sum, in words, is the checksum. -/
theorem circulates_in_order (o : Options) {cap : Capacity}
    (hcap : Capacity.ofNat o.capacity = .ok cap) (hword : o.iterations < Word.count) :
    (∀ (ρ : Type) (f : ρ → Nat → ρ) (x : ρ) (claims : Nat), claimsPerMessage ≤ claims →
      circulate .oneProducer cap f claims o.iterations x =
        some ((List.range o.iterations).foldl f x)) ∧
    circulate .oneProducer cap (fun read n => read ++ [n]) claimsPerMessage o.iterations [] =
      some (List.range o.iterations) ∧
    oneToOne o = .ok (some (UInt64.ofNat (o.iterations * (o.iterations - 1) / 2))) := by
  have hall {ρ : Type} (f : ρ → Nat → ρ) (x : ρ) {claims : Nat}
      (hclaims : claimsPerMessage ≤ claims) :
      circulate .oneProducer cap f claims o.iterations x =
        some ((List.range o.iterations).foldl f x) :=
    circulate_eq .oneProducer cap f x hword hclaims
  refine ⟨fun ρ f x claims hclaims => hall f x hclaims, ?_, ?_⟩
  · rw [hall _ _ (Nat.le_refl _), List.foldl_append_eq_append, List.nil_append, ← List.flatMap_def,
      List.flatMap_singleton']
  · have hsum : checksum .oneProducer cap o.iterations =
        some (UInt64.ofNat (o.iterations * (o.iterations - 1) / 2)) := by
      rw [checksum, hall _ _ (Nat.le_refl _), foldl_addTo]
    rw [oneToOne, hcap]
    exact congrArg _ hsum

/-- Ten messages through four slots: the ring is drained twice when it is full, and once at the
end. -/
theorem ten_circulate_in_order :
    Capacity.ofNat 4 = .ok ⟨4, rfl⟩ ∧ 10 < Word.count ∧
      circulate .oneProducer ⟨4, rfl⟩ (fun read n => read ++ [n]) claimsPerMessage 10 [] =
        some [0, 1, 2, 3, 4, 5, 6, 7, 8, 9] ∧
      oneToOne ⟨10, 4, 1, false⟩ = .ok (some 45) := by
  have hcap : Capacity.ofNat 4 = .ok ⟨4, rfl⟩ := rfl
  have hword : 10 < Word.count := by decide
  obtain ⟨-, hread, hsum⟩ := circulates_in_order ⟨10, 4, 1, false⟩ hcap hword
  exact ⟨hcap, hword, hread, hsum⟩

end RingTransport.Bench
