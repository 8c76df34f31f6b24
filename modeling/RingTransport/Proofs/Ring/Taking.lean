/-
  Reads whose callback leaves the ring alone, told by the queue that the ring holds. Such a
  read takes the committed cells from the first one on, up to the first that is not committed
  and up to its limit (`Holds.take`). A claim that is written, and then committed or not, is
  one more cell of the queue (`Holds.fill`, `Holds.publish`).
-/
import Mathlib.Data.List.TakeWhile
import RingTransport.Proofs.Ring.Refinement

namespace RingTransport

variable {kind : Kind} {cap : Capacity} {α ρ : Type}

namespace Queue

variable {q : Queue cap α}

/-- The cells that a read without a limit takes. -/
def ready (q : Queue cap α) : List (Cell α) := q.cells.takeWhile Cell.committed

theorem length_ready_le (q : Queue cap α) : q.ready.length ≤ q.cells.length :=
  (List.takeWhile_prefix _).length_le

/-- Taking ready cells out leaves the other ready ones. -/
theorem ready_drop {n : Nat} (h : n ≤ q.ready.length) : (q.drop n).ready = q.ready.drop n := by
  rw [ready, ready, cells_drop]
  unfold ready at h
  generalize q.cells = cells at h ⊢
  induction n generalizing cells with
  | zero => rfl
  | succ n ih =>
    cases cells with
    | nil => rfl
    | cons c cells =>
      cases hc : c.committed with
      | true =>
        rw [List.takeWhile_cons_of_pos hc] at h ⊢
        exact ih cells (Nat.le_of_succ_le_succ h)
      | false =>
        rw [List.takeWhile_cons_of_neg (by rw [hc]; exact Bool.false_ne_true)] at h
        cases h

/-- A claim that is written is a cell that is not committed. -/
theorem cells_fill (q : Queue cap α) (x : α) :
    (q.push.set q.stop x).cells = q.cells ++ [⟨x, false⟩] := by
  have hlast : q.stop - q.push.first = q.cells.length := Nat.add_sub_cancel_left ..
  rw [set, alter, hlast, push, List.modify_eq_set_getElem?]
  simp

theorem cells_publish (q : Queue cap α) (x : α) :
    ((q.push.set q.stop x).commit q.stop).cells = q.cells ++ [⟨x, true⟩] := by
  have hlast : q.stop - (q.push.set q.stop x).first = q.cells.length := Nat.add_sub_cancel_left ..
  rw [commit, alter, hlast, cells_fill, List.modify_eq_set_getElem?]
  simp

end Queue

namespace Ring

variable {r : Ring kind cap α} {q : Queue cap α}

/-! ## Claims that are written -/

/-- A claim finds room for one more cell, and writes it. -/
theorem Holds.fill (h : r.Holds q.first q) (hroom : q.cells.length < cap.size) (x : α) :
    ∃ r', r.tryClaim = (some q.stop, r') ∧
      (r'.write (cap.indexOf q.stop) x).Holds q.first (q.push.set q.stop x) := by
  obtain ⟨r', hclaim, h'⟩ := h.tryClaim_room (Nat.ne_of_lt hroom)
  have hlt : q.stop < q.push.stop := by
    rw [Queue.stop_push]
    exact Nat.lt_succ_self _
  exact ⟨r', hclaim, h'.write (Nat.le_add_right ..) hlt x⟩

theorem Holds.publish {r : Ring kind cap α} {x : α}
    (h : r.Holds q.first (q.push.set q.stop x)) :
    (r.commit (cap.indexOf q.stop)).Holds q.first ((q.push.set q.stop x).commit q.stop) := by
  have hlt : q.stop < (q.push.set q.stop x).stop := by
    rw [Queue.stop_set, Queue.stop_push]
    omega
  exact h.commit (Nat.le_add_right ..) hlt (Nat.le_add_right ..)

/-! ## Reads -/

/-- At the end of a read the head moves over what was taken. -/
theorem Holds.leave {count : Nat} (h : r.Holds (q.first + count) q)
    (hcount : count ≤ q.cells.length) :
    (r.setHead (q.first + count)).Holds (q.drop count).first (q.drop count) := by
  have hle : q.first + count ≤ q.stop := Nat.add_le_add_left hcount _
  rw [Queue.first_drop hle]
  exact h.drop hle (Nat.le_refl _)

/-- The mark of a cell shows whether the cell is committed. -/
theorem Holds.ready_iff {count : Nat} (h : r.Holds (q.first + count) q)
    (hlt : count < q.cells.length) :
    r.markOf (q.first + count) = .ready ↔ q.cells[count].committed = true := by
  have hlap := h.length_le
  rw [h.ready _ (Nat.le_add_right ..) (by omega), Queue.committedAt_first_add,
    List.getElem?_eq_getElem hlt]
  generalize q.cells[count] = c
  obtain ⟨y, committed⟩ := c
  simp

theorem Holds.scan_folding (f : ρ → α → ρ) (left : Nat) {count : Nat} {x : ρ}
    (h : r.Holds (q.first + count) q) (hle : count + left ≤ q.cells.length)
    {taken : List (Cell α)}
    (htaken : taken = ((q.cells.drop count).takeWhile Cell.committed).take left) :
    ∃ r', scan (folding f) q.first left count r x =
        (.finished (count + taken.length), r', (taken.map Cell.value).foldl f x) ∧
      r'.Holds (q.drop (count + taken.length)).first (q.drop (count + taken.length)) := by
  induction left generalizing r count x taken with
  | zero =>
    obtain rfl : taken = [] := htaken
    exact ⟨_, rfl, h.leave hle⟩
  | succ left ih =>
    have hlt : count < q.cells.length := by omega
    have hlap := h.length_le
    have hready := h.ready_iff hlt
    rw [List.drop_eq_getElem_cons hlt] at htaken
    by_cases hcommitted : q.cells[count].committed = true
    · rw [List.takeWhile_cons_of_pos hcommitted, List.take_succ_cons] at htaken
      subst htaken
      have hslot : r.slotOf (q.first + count) = q.cells[count].value := by
        rw [h.slot _ (Nat.le_add_right ..) (by omega),
          Queue.contentAt_first_add (List.getElem?_eq_getElem hlt)]
      have hstop : q.first + count < q.stop := Nat.add_lt_add_left hlt _
      have hcleared : (r.mark (cap.indexOf (q.first + count)) .empty).Holds
          (q.first + (count + 1)) q := h.clear (Nat.le_add_right ..) hstop
      obtain ⟨r', hscan, h'⟩ := ih (x := f x q.cells[count].value) hcleared (by omega) rfl
      rw [List.length_cons, ← Nat.add_assoc, Nat.add_right_comm]
      refine ⟨r', ?_, h'⟩
      rw [scan, if_pos (hready.2 hcommitted)]
      simp only [folding, hslot]
      exact hscan
    · rw [List.takeWhile_cons_of_neg hcommitted, List.take_nil] at htaken
      subst htaken
      refine ⟨_, ?_, h.leave (by omega)⟩
      rw [scan, if_neg (mt hready.1 hcommitted)]
      rfl

/-- A read takes the ready cells up to its limit, in order. -/
theorem Holds.take (h : r.Holds q.first q) (limit : Nat) :
    ∃ r', r.take limit = ((q.ready.take limit).map Cell.value, r') ∧
      r'.Holds (q.drop (q.ready.take limit).length).first
        (q.drop (q.ready.take limit).length) := by
  have htaken : q.ready.take limit =
      ((q.cells.drop 0).takeWhile Cell.committed).take (min q.cells.length limit) := by
    rw [Nat.min_comm, ← List.take_take, List.drop_zero]
    exact congrArg _ (List.take_of_length_le q.length_ready_le).symm
  have hfirst : r.Holds (q.first + 0) q := h
  obtain ⟨r', hscan, h'⟩ := hfirst.scan_folding (fun rev message => message :: rev)
    (min q.cells.length limit) (x := []) (by omega) htaken
  rw [Nat.zero_add] at hscan h'
  refine ⟨r', ?_, h'⟩
  rw [Ring.take, readLimit, h.distance_eq, h.head_eq, hscan]
  simp only [List.foldl_flip_cons_eq_append', List.append_nil, List.reverse_reverse]

end Ring

end RingTransport
