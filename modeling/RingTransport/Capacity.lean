/-
  Ring capacities: the sizes a ring may have, and the slot a sequence number falls on.
  Main facts: a size is accepted exactly when it is a power of two (`accepts_iff`), and
  the masked slot number is the remainder modulo the size (`indexOf_val`), so two
  sequence numbers share a slot exactly when they are equal modulo the size.
-/

namespace RingTransport

/-- A size is accepted when exactly one of its binary digits is one. -/
def Capacity.accepts (size : Nat) : Bool :=
  size != 0 && size &&& (size - 1) == 0

theorem Capacity.accepts_iff {size : Nat} :
    Capacity.accepts size = true ↔ size.isPowerOfTwo := by
  simpa [accepts] using
    (Nat.ne_zero_and_sub_one_eq_zero_iff_isPowerOfTwo (n := size))

/-- The number of slots of a ring. -/
structure Capacity where
  size : Nat
  accepted : Capacity.accepts size = true

/-- Why no ring of a size can be made. -/
inductive CapacityError where
  | notPowerOfTwo (size : Nat)
  deriving DecidableEq, Repr

/-- The text of a refusal. -/
def CapacityError.message : CapacityError → String
  | .notPowerOfTwo size => "capacity must be a positive power of 2, got " ++ toString size

namespace Capacity

/-- The capacity of a given size, if the size is accepted. -/
def ofNat (size : Nat) : Except CapacityError Capacity :=
  if h : accepts size = true then .ok ⟨size, h⟩ else .error (.notPowerOfTwo size)

theorem isPowerOfTwo_size (cap : Capacity) : cap.size.isPowerOfTwo :=
  accepts_iff.1 cap.accepted

theorem size_pos (cap : Capacity) : 0 < cap.size := by
  obtain ⟨j, hj⟩ := cap.isPowerOfTwo_size
  rw [hj]
  exact Nat.two_pow_pos j

/-! ## The slot of a sequence number -/

theorem mask_eq_mod (cap : Capacity) (seq : Nat) :
    seq &&& (cap.size - 1) = seq % cap.size := by
  obtain ⟨j, hj⟩ := cap.isPowerOfTwo_size
  rw [hj]
  exact Nat.and_two_pow_sub_one_eq_mod seq j

/-- The slot a sequence number falls on: its low binary digits. -/
def indexOf (cap : Capacity) (seq : Nat) : Fin cap.size :=
  ⟨seq &&& (cap.size - 1), by
    rw [cap.mask_eq_mod]
    exact Nat.mod_lt _ cap.size_pos⟩

@[simp] theorem indexOf_val (cap : Capacity) (seq : Nat) :
    (cap.indexOf seq).val = seq % cap.size :=
  cap.mask_eq_mod seq

theorem indexOf_eq_iff (cap : Capacity) (s t : Nat) :
    cap.indexOf s = cap.indexOf t ↔ s % cap.size = t % cap.size := by
  simp [Fin.ext_iff]

/-- Sequence numbers less than one lap apart fall on different slots. -/
theorem eq_of_indexOf_eq (cap : Capacity) {s t : Nat} (hst : s ≤ t) (hlap : t < s + cap.size)
    (h : cap.indexOf s = cap.indexOf t) : s = t := by
  rw [indexOf_eq_iff] at h
  have hs := Nat.div_add_mod s cap.size
  have ht := Nat.div_add_mod t cap.size
  have hle : s / cap.size ≤ t / cap.size := Nat.div_le_div_right hst
  rcases Nat.eq_or_lt_of_le hle with hq | hq
  · rw [hq] at hs
    omega
  · have hmul : cap.size * (s / cap.size + 1) ≤ cap.size * (t / cap.size) :=
      Nat.mul_le_mul_left _ hq
    rw [Nat.mul_add, Nat.mul_one] at hmul
    omega

/-- Two sequence numbers of one lap that share a slot are equal. -/
theorem eq_of_indexOf_eq_of_lap (cap : Capacity) {first s t : Nat} (hs : first ≤ s)
    (hs' : s < first + cap.size) (ht : first ≤ t) (ht' : t < first + cap.size)
    (h : cap.indexOf s = cap.indexOf t) : s = t := by
  rcases Nat.le_total s t with hst | hst
  · exact cap.eq_of_indexOf_eq hst (by omega) h
  · exact (cap.eq_of_indexOf_eq hst (by omega) h.symm).symm

theorem indexOf_eq_iff_of_lap (cap : Capacity) {first s t : Nat} (hs : first ≤ s)
    (hs' : s < first + cap.size) (ht : first ≤ t) (ht' : t < first + cap.size) :
    cap.indexOf s = cap.indexOf t ↔ t = s :=
  ⟨fun h => (cap.eq_of_indexOf_eq_of_lap hs hs' ht ht' h).symm, fun h => by rw [h]⟩

theorem indexOf_add_size (cap : Capacity) (seq : Nat) :
    cap.indexOf (seq + cap.size) = cap.indexOf seq := by
  rw [indexOf_eq_iff, Nat.add_mod_right]

end Capacity

end RingTransport
