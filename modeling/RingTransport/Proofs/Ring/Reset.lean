/-
  Resetting a buffer. The counters start over and every mark is cleared, so that nothing is left
  of a ring but its contents (`Ring.reset_eq_ofSlots`), whatever its counters and marks were; and
  a new ring is nothing but the contents that its factory made (`Ring.ofSize_eq`). Main fact: what
  is asked of a buffer that was reset goes as it goes on a new buffer with the same contents, to
  the last moment inside the callbacks of a read (`reset_as_good_as_new`).
-/
import RingTransport.Proofs.Ring.Moments
import RingTransport.Proofs.Ring.FailedRead

namespace RingTransport

open Buffer (Request)

variable {kind : Kind} {cap : Capacity} {α σ : Type}

/-! ## New rings -/

namespace Ring

/-- A reset leaves of a ring what a new one begins with. -/
theorem reset_eq_ofSlots (r : Ring kind cap α) : r.reset = ofSlots r.slots := by
  have hmarks : r.marks.map (fun _ => Mark.empty) = Vector.replicate cap.size .empty := by
    ext i hi
    simp
  rw [reset, hmarks]
  rfl

/-- A new ring has the contents that its factory made, and the size that was asked for. -/
theorem ofSize_eq {factory : σ → α × σ} {s s' : σ} {r : Ring kind cap α}
    (hmade : ofSize kind cap.size factory s = (.ok ⟨cap, r⟩, s')) : r = ofSlots r.slots := by
  have hcap : Capacity.ofNat cap.size = .ok cap := dif_pos cap.accepted
  simp only [ofSize, hcap] at hmade
  obtain ⟨hring, -⟩ := Prod.mk.inj hmade
  obtain ⟨-, hring⟩ := Sigma.mk.inj (Except.ok.inj hring)
  rw [← eq_of_heq hring]
  rfl

/-- The factory that counts its calls and hands out the values of a function. -/
def counting (f : Nat → α) : Nat → α × Nat := fun n => (f n, n + 1)

theorem appendMade_counting (f : Nat → α) (left n : Nat) (made : Array α) :
    appendMade (counting f) left made n =
      (made ++ ((List.range' n left).map f).toArray, n + left) := by
  induction left generalizing n made with
  | zero => simp [appendMade]
  | succ left ih =>
    have hfirst : counting f n = (f n, n + 1) := rfl
    simp only [appendMade, hfirst, ih]
    simp [List.range'_succ, Nat.add_assoc, Nat.add_comm 1]

/-- Some factory makes any given contents, in as many calls as there are slots. -/
theorem ofSize_counting (contents : Vector α cap.size) :
    ofSize kind cap.size (counting fun n => contents.get (cap.indexOf n)) 0 =
      (.ok ⟨cap, ofSlots contents⟩, cap.size) := by
  have hcap : Capacity.ofNat cap.size = .ok cap := dif_pos cap.accepted
  have hslots : (make (counting fun n => contents.get (cap.indexOf n)) 0 : Ring kind cap α × Nat) =
      (ofSlots contents, cap.size) := by
    simp only [make, appendMade_counting, Nat.zero_add]
    congr 2
    ext i hi
    have hmod : i % cap.size = i := Nat.mod_eq_of_lt hi
    simp [Vector.get, hmod]
  simp only [ofSize, hcap, hslots]

end Ring

/-! ## Buffers that are reset -/

namespace Buffer

theorem reset_whole (r : Ring kind cap α) :
    (ofRing r).reset = (.done, ofRing (.ofSlots r.slots)) := by
  rw [← Ring.reset_eq_ofSlots]
  rfl

/-- A whole buffer of either kind, whatever has happened to it: its counters and marks may be any,
also such as no history leads to. It can be reset. From then on it answers all requests, and lets
happen at every moment of them, what a new buffer does whose factory made the contents that the
slots had; there is such a factory, which is called once for each slot. When it is split again, it
answers as the queue does that starts with these contents. -/
theorem reset_as_good_as_new {kind : Kind} {cap : Capacity} {α : Type} {b : Buffer kind cap α}
    (hwhole : b.handles = none) :
    let (reply, again) := b.reset
    reply = .done ∧
    (∀ (σ : Type) (factory : σ → α × σ) (s s' : σ) (new : Ring kind cap α),
      Ring.ofSize kind cap.size factory s = (.ok ⟨cap, new⟩, s') → new.slots = b.ring.slots →
        ∀ later, again.answers later = (ofRing new).answers later ∧
          again.moments later = (ofRing new).moments later) ∧
    (∃ (factory : Nat → α × Nat) (new : Ring kind cap α),
      Ring.ofSize kind cap.size factory 0 = (.ok ⟨cap, new⟩, cap.size) ∧
        new.slots = b.ring.slots) ∧
    ∀ uses : List (Use α), again.split.2.answers (uses.map Use.request) =
      (SplitQueue.ofContents b.ring.slots).answers kind uses := by
  have hreset : b.reset = (.done, ofRing (.ofSlots b.ring.slots)) := by
    obtain ⟨r, handles⟩ := b
    obtain rfl : handles = none := hwhole
    exact reset_whole r
  rw [hreset]
  refine ⟨rfl, fun σ factory s s' new hnew hslots later => ?_, ?_, answers_eq_queue kind _⟩
  · rw [Ring.ofSize_eq hnew, hslots]
    exact ⟨rfl, rfl⟩
  · exact ⟨_, _, Ring.ofSize_counting b.ring.slots, rfl⟩

/-- A history with a commit of a slot that nobody claimed, an abandoned claim, and a read that its
callback cuts short. -/
def irregular : List (Request Nat) :=
  [.op .tryClaim, .op (.commitIndex 0), .op (.commitIndex 3), .split, .op (.claim 0),
    .op (.abandon 0), .read 4 [(0, [.fail])], .reunite 0]

theorem irregular_as_good_as_new :
    let b := (ofRing (.filled 7 : Ring .oneProducer ⟨4, rfl⟩ Nat)).after irregular
    b.handles = none ∧ b.ring.len = 2 ∧
      ∀ uses : List (Use Nat), b.reset.2.split.2.answers (uses.map Use.request) =
        (SplitQueue.ofContents (.replicate 4 7) : SplitQueue ⟨4, rfl⟩ Nat).answers .oneProducer
          uses := by
  intro b
  have hwhole : b.handles = none := rfl
  obtain ⟨-, -, -, hqueue⟩ := reset_as_good_as_new hwhole
  exact ⟨hwhole, rfl, hqueue⟩

end Buffer

end RingTransport
