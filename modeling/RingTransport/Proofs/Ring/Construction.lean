/-
  Making a ring, and the map from sequence numbers to its slots. The factory is called once for
  each slot, in slot order, whatever it does to its state (`appendMade_eq`, `make_eq`); an accepted
  size divides the number of words, so that a counter which starts over at 0 goes on where it was
  (`indexOf_wrapped`), and a window of as many sequence numbers as there are slots meets each slot
  once (`indexOf_bijective`). Main fact: both kinds of ring can be made of the powers of two and of
  no other size, and every reading of a slot number rests on the remainder (`made_and_indexed`).

  A change to how a ring is made touches the first section alone, a change to the slot numbers
  the second.
-/
import RingTransport.Ring.Basic
import Mathlib.Data.Fintype.EquivFin
import Mathlib.Algebra.Order.Group.Unbundled.Int
import Mathlib.Data.Int.ModEq

namespace RingTransport

variable {kind : Kind} {cap : Capacity} {α σ : Type}

theorem Capacity.exists_of_isPowerOfTwo {size : Nat} (hsize : size.isPowerOfTwo) :
    ∃ cap : Capacity, cap.size = size :=
  ⟨⟨size, Capacity.accepts_iff.2 hsize⟩, rfl⟩

/-! ## The calls of a factory -/

namespace Ring

/-- The state of a factory after a number of calls. -/
def afterCalls (factory : σ → α × σ) (s : σ) (calls : Nat) : σ :=
  (fun s => (factory s).2)^[calls] s

/-- What a factory makes on each of its calls; the calls are numbered from 0. -/
def result (factory : σ → α × σ) (s : σ) (i : Nat) : α := (factory (afterCalls factory s i)).1

@[simp] theorem afterCalls_zero (factory : σ → α × σ) (s : σ) : afterCalls factory s 0 = s := rfl

theorem afterCalls_succ (factory : σ → α × σ) (s : σ) (calls : Nat) :
    afterCalls factory s (calls + 1) = afterCalls factory (factory s).2 calls :=
  Function.iterate_succ_apply _ calls s

theorem result_succ (factory : σ → α × σ) (s : σ) (i : Nat) :
    result factory s (i + 1) = result factory (factory s).2 i := by
  unfold result
  rw [afterCalls_succ]

/-- A factory with a count of its calls. -/
def tallied (factory : σ → α × σ) : σ × Nat → α × σ × Nat := fun (s, calls) =>
  ((factory s).1, (factory s).2, calls + 1)

/-- To count the calls changes nothing else. -/
theorem afterCalls_tallied (factory : σ → α × σ) (s : σ) (n calls : Nat) :
    afterCalls (tallied factory) (s, n) calls = (afterCalls factory s calls, n + calls) := by
  induction calls generalizing s n with
  | zero => rfl
  | succ calls ih =>
    have hfirst : (tallied factory (s, n)).2 = ((factory s).2, n + 1) := rfl
    rw [afterCalls_succ, afterCalls_succ, hfirst, ih]
    congr 1
    omega

/-- What is appended are the results of the calls, in their order. -/
theorem appendMade_eq (factory : σ → α × σ) (left : Nat) (made : Array α) (s : σ) :
    appendMade factory left made s =
      (made ++ ((List.range left).map (result factory s)).toArray, afterCalls factory s left) := by
  induction left generalizing made s with
  | zero => simp [appendMade]
  | succ left ih =>
    have hrest : (List.range left).map (result factory (factory s).2) =
        (List.range left).map (fun i => result factory s (i + 1)) :=
      List.map_congr_left fun i _ => (result_succ factory s i).symm
    have hfirst : (factory s).1 = result factory s 0 := rfl
    show appendMade factory left (made.push (factory s).1) (factory s).2 = _
    rw [ih, hrest, hfirst, afterCalls_succ, List.range_succ_eq_map, List.map_cons, List.map_map]
    simp [Function.comp_def]

/-- The slots of a new ring are the results of one call each. -/
theorem make_eq (factory : σ → α × σ) (s : σ) :
    (make factory s : Ring kind cap α × σ) =
      (ofSlots (Vector.ofFn fun i : Fin cap.size => result factory s i),
        afterCalls factory s cap.size) := by
  unfold make
  simp only [appendMade_eq]
  congr 2
  ext i hi
  simp

/-- A size that is accepted gives a ring. -/
theorem ofSize_of_accepted (factory : σ → α × σ) (s : σ) (kind : Kind) (cap : Capacity) :
    ofSize kind cap.size factory s =
      (.ok ⟨cap, ofSlots (Vector.ofFn fun i : Fin cap.size => result factory s i)⟩,
        afterCalls factory s cap.size) := by
  have hcap : Capacity.ofNat cap.size = .ok cap := dif_pos cap.accepted
  unfold ofSize
  simp only [hcap, make_eq]

/-- A size that is not accepted is refused before the factory is called. -/
theorem ofSize_of_refused (factory : σ → α × σ) (s : σ) (kind : Kind) {size : Nat}
    (hsize : ¬size.isPowerOfTwo) :
    ofSize kind size factory s = (.error (.notPowerOfTwo size), s) := by
  have hrefused : ¬Capacity.accepts size = true := fun h => hsize (Capacity.accepts_iff.1 h)
  have hcap : Capacity.ofNat size = .error (.notPowerOfTwo size) := dif_neg hrefused
  unfold ofSize
  rw [hcap]

/-- The ring that is made has the size that was asked for. -/
theorem size_of_made {factory : σ → α × σ} {s s' : σ} {size : Nat}
    {made : (cap : Capacity) × Ring kind cap α}
    (hmade : ofSize kind size factory s = (.ok made, s')) : made.1.size = size := by
  by_cases hsize : size.isPowerOfTwo
  · obtain ⟨cap, rfl⟩ := Capacity.exists_of_isPowerOfTwo hsize
    rw [ofSize_of_accepted factory s kind cap] at hmade
    cases hmade
    rfl
  · rw [ofSize_of_refused factory s kind hsize] at hmade
    cases hmade

end Ring

/-! ## Sequence numbers and slots -/

namespace Capacity

/-- Sequence numbers share a slot when a number of whole laps lies between them. -/
theorem indexOf_eq_iff_dvd (cap : Capacity) (s t : Nat) :
    cap.indexOf s = cap.indexOf t ↔ (cap.size : Int) ∣ (s : Int) - t := by
  have hmod : s % cap.size = t % cap.size ↔ (t : Int) ≡ s [ZMOD cap.size] := by
    rw [Int.natCast_modEq_iff]
    exact eq_comm
  rw [indexOf_eq_iff, hmod, Int.modEq_iff_dvd]

/-- A window of one lap meets every slot once, wherever it begins. -/
theorem indexOf_bijective (cap : Capacity) (first : Nat) :
    Function.Bijective fun k : Fin cap.size => cap.indexOf (first + k) := by
  refine Finite.injective_iff_bijective.1 fun j k h => ?_
  have heq : first + j.val = first + k.val :=
    cap.eq_of_indexOf_eq_of_lap (Nat.le_add_right _ _) (Nat.add_lt_add_left j.isLt _)
      (Nat.le_add_right _ _) (Nat.add_lt_add_left k.isLt _) h
  exact Fin.ext (Nat.add_left_cancel heq)

/-- A lap of at most all words fits into them a whole number of times. -/
theorem size_dvd_count (cap : Capacity) (hsize : cap.size ≤ Word.count) :
    cap.size ∣ Word.count := by
  obtain ⟨j, hj⟩ := cap.isPowerOfTwo_size
  have hcount : Word.count = 2 ^ 64 := rfl
  rw [hcount, hj] at hsize ⊢
  exact Nat.pow_dvd_pow 2 ((Nat.pow_le_pow_iff_right (by decide)).1 hsize)

/-- A counter that has passed the largest word goes on from slot to slot. -/
theorem indexOf_wrapped (cap : Capacity) (hsize : cap.size ≤ Word.count) (seq : Nat) :
    cap.indexOf (seq % Word.count) = cap.indexOf seq := by
  rw [indexOf_eq_iff, Nat.mod_mod_of_dvd seq (cap.size_dvd_count hsize)]

end Capacity

namespace Ring

/-- Making a ring of either kind with a factory that may depend on its earlier calls. A ring is
made exactly when the size is a power of two: then the factory has been called once for each slot,
the `i`th slot has the result of its `i`th call, and nothing is claimed or marked. Any other size
is refused by its number, and the factory has not been called. The slot of a sequence number is
its remainder; a window of one lap, also one that runs over the last word, meets each slot once;
and two sequence numbers share a slot exactly when whole laps lie between them. -/
theorem made_and_indexed (kind : Kind) (size : Nat) {α σ : Type} (factory : σ → α × σ) (s : σ) :
    ((∃ made s', ofSize kind size factory s = (.ok made, s')) ↔ ∃ j, size = 2 ^ j) ∧
    (∀ cap (ring : Ring kind cap α) (s' : σ), ofSize kind size factory s = (.ok ⟨cap, ring⟩, s') →
      cap.size = size ∧ s' = afterCalls factory s size ∧
        (ofSize kind size (tallied factory) (s, 0)).2 = (s', size) ∧
        ring = ofSlots ring.slots ∧ ∀ i : Fin cap.size, ring.slots.get i = result factory s i) ∧
    ((¬∃ j, size = 2 ^ j) → ofSize kind size factory s = (.error (.notPowerOfTwo size), s) ∧
      (ofSize kind size (tallied factory) (s, 0)).2 = (s, 0)) ∧
    ∀ cap : Capacity, cap.size = size →
      (∀ seq, (cap.indexOf seq).val = seq % size ∧ seq % size < size) ∧
      (∀ first, Function.Bijective fun k : Fin cap.size => cap.indexOf (first + k)) ∧
      (size ≤ Word.count → ∀ first,
        Function.Bijective fun k : Fin cap.size => cap.indexOf ((first + k) % Word.count)) ∧
      ∀ s t, cap.indexOf s = cap.indexOf t ↔ (size : Int) ∣ (s : Int) - t := by
  refine ⟨⟨?_, ?_⟩, ?_, fun hsize => ?_, ?_⟩
  · rintro ⟨made, s', hmade⟩
    rw [← size_of_made hmade]
    exact made.1.isPowerOfTwo_size
  · intro hsize
    obtain ⟨cap, rfl⟩ := Capacity.exists_of_isPowerOfTwo hsize
    exact ⟨_, _, ofSize_of_accepted factory s kind cap⟩
  · intro cap ring s' hmade
    obtain rfl : cap.size = size := size_of_made hmade
    rw [ofSize_of_accepted factory s kind cap] at hmade
    cases hmade
    refine ⟨rfl, rfl, ?_, rfl, fun i => Vector.getElem_ofFn i.isLt⟩
    rw [ofSize_of_accepted (tallied factory), afterCalls_tallied, Nat.zero_add]
  · have hrefused : ¬size.isPowerOfTwo := hsize
    rw [ofSize_of_refused factory s kind hrefused,
      ofSize_of_refused (tallied factory) _ kind hrefused]
    exact ⟨rfl, rfl⟩
  · rintro cap rfl
    refine ⟨fun seq => ⟨cap.indexOf_val seq, Nat.mod_lt _ cap.size_pos⟩, cap.indexOf_bijective,
      fun hsize first => ?_, cap.indexOf_eq_iff_dvd⟩
    simp only [cap.indexOf_wrapped hsize]
    exact cap.indexOf_bijective first

/-- Eight slots of a factory that hands out the number of its call; twelve are refused. -/
theorem eight_made_twelve_refused :
    let factory : Nat → Nat × Nat := fun made => (made + 1, made + 1)
    (∃ ring : Ring .manyProducers ⟨8, rfl⟩ Nat,
      ofSize .manyProducers 8 factory 0 = (.ok ⟨⟨8, rfl⟩, ring⟩, 8) ∧
        ∀ i : Fin 8, ring.slots.get i = i.val + 1) ∧
    ofSize .oneProducer 12 factory 0 = (.error (.notPowerOfTwo 12), 0) := by
  intro factory
  refine ⟨⟨_, rfl, ?_⟩, ?_⟩
  · have hresult : ∀ i : Fin 8, result factory 0 i = i.val + 1 := by decide
    obtain ⟨-, hmade, -, -⟩ := made_and_indexed .manyProducers 8 factory 0
    obtain ⟨-, -, -, -, hslots⟩ := hmade ⟨8, rfl⟩ _ 8 rfl
    exact fun i => (hslots i).trans (hresult i)
  · have hsize : ¬∃ j, 12 = 2 ^ j := fun h => absurd (Capacity.accepts_iff.2 h) (by decide)
    obtain ⟨-, -, hrefused, -⟩ := made_and_indexed .oneProducer 12 factory 0
    exact (hrefused hsize).1

end Ring

end RingTransport
