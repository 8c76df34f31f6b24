/-
  Counting layers around a handler. A report that goes through all the layers of a nested handler
  adds one to the counter of each (`bumps_nested`), before the innermost handler is called, which
  may panic (`report_nested`). Main fact: after any reports the counters of all layers agree on
  their number, and the innermost handler has been called for each of them once, as if there were
  no layers (`layers_agree`).
-/
import RingTransport.Agent.Handler

namespace RingTransport.Reporting

variable {σ : Type}

theorem bump_append (counters rest : List Nat) (n : Nat) :
    bump (counters ++ n :: rest) counters.length = counters ++ (n + 1) :: rest :=
  List.modifyTailIdx_add _ 0 counters (n :: rest)

/-- The counters of a new handler are at zero, one for each layer. -/
theorem counters_nested (s : σ) (depth : Nat) :
    (nested s depth).counters = List.replicate depth 0 := by
  induction depth with
  | zero => rfl
  | succ depth ih =>
    show (nested s depth).counters ++ [0] = _
    rw [ih, List.replicate_succ']

/-- Layers do not touch the state of the innermost handler. -/
theorem state_nested (s : σ) (depth : Nat) : (nested s depth).state = s := by
  induction depth with
  | zero => rfl
  | succ depth ih => exact ih

theorem exists_handler_nested (s : σ) (depth : Nat) :
    ∃ h, (nested s depth).handler = some h ∧ ∀ (n : Nat) (rest : List Nat),
      h.bumps (List.replicate depth n ++ rest) = List.replicate depth (n + 1) ++ rest := by
  induction depth with
  | zero => exact ⟨.innermost, rfl, fun _ _ => rfl⟩
  | succ depth ih =>
    obtain ⟨h, hhandler, hbumps⟩ := ih
    refine ⟨.counted depth h, ?_, fun n rest => ?_⟩
    · show (nested s depth).handler.map (Handler.counted (nested s depth).counters.length) = _
      rw [hhandler, counters_nested, List.length_replicate]
      rfl
    · -- the outermost layer has the last counter
      have hlast := bump_append (List.replicate depth n) rest n
      rw [List.length_replicate] at hlast
      rw [List.replicate_succ', List.replicate_succ', List.append_assoc, List.append_assoc]
      show h.bumps (bump (List.replicate depth n ++ n :: rest) depth) = _
      rw [hlast, hbumps]
      rfl

/-- A report through all layers adds one to each counter. -/
theorem bumps_nested (s : σ) (depth n : Nat) :
    ((nested s depth).handler.getD .innermost).bumps (List.replicate depth n) =
      List.replicate depth (n + 1) := by
  obtain ⟨h, hhandler, hbumps⟩ := exists_handler_nested s depth
  have hall := hbumps n []
  rw [List.append_nil, List.append_nil] at hall
  rw [hhandler]
  exact hall

/-! ## One report after the other -/

/-- Makes reports. Who reports catches the panic of a report and goes on with the next; the
answers tell which reports returned normally. -/
def reportAll (deliver : AgentError → σ → Bool × σ) :
    List AgentError → Reporting σ → List Bool × Reporting σ
  | [], r => ([], r)
  | e :: es, r =>
    let (ok, r) := r.report deliver e
    let (oks, r) := reportAll deliver es r
    (ok :: oks, r)

/-- What the innermost handler does when the same errors are given to itself. -/
def hear (deliver : AgentError → σ → Bool × σ) : List AgentError → σ → List Bool × σ
  | [], s => ([], s)
  | e :: es, s =>
    let (ok, s) := deliver e s
    let (oks, s) := hear deliver es s
    (ok :: oks, s)

/-- An innermost handler that keeps a list of what it is called with, also when it panics. -/
def recording (deliver : AgentError → σ → Bool × σ) (e : AgentError) :
    σ × List AgentError → Bool × σ × List AgentError := fun (s, heard) =>
  let (ok, s) := deliver e s
  (ok, s, heard ++ [e])

theorem hear_recording (deliver : AgentError → σ → Bool × σ) (es : List AgentError) (s : σ)
    (heard : List AgentError) :
    hear (recording deliver) es (s, heard) =
      ((hear deliver es s).1, (hear deliver es s).2, heard ++ es) := by
  induction es generalizing s heard with
  | nil =>
    rw [List.append_nil]
    rfl
  | cons e es ih =>
    have hcall : recording deliver e (s, heard) =
        ((deliver e s).1, (deliver e s).2, heard ++ [e]) := rfl
    have hheard : heard ++ e :: es = heard ++ [e] ++ es := List.append_cons heard e es
    simp only [hear, hcall, ih, hheard]

/-- One report: every layer has counted it when the innermost handler is called, whose answer and
panic pass through all of them. -/
theorem report_nested (deliver : AgentError → σ → Bool × σ) (e : AgentError) (s t : σ)
    (depth n : Nat) :
    report deliver e ⟨(nested s depth).handler, List.replicate depth n, t⟩ =
      ((deliver e t).1,
        ⟨(nested s depth).handler, List.replicate depth (n + 1), (deliver e t).2⟩) := by
  have hall := bumps_nested s depth n
  obtain ⟨h, hhandler, -⟩ := exists_handler_nested s depth
  rw [hhandler] at hall ⊢
  unfold report
  simp only [Handler.report_eq]
  congr 2

theorem reportAll_nested (deliver : AgentError → σ → Bool × σ) (es : List AgentError) (s t : σ)
    (depth n : Nat) :
    reportAll deliver es ⟨(nested s depth).handler, List.replicate depth n, t⟩ =
      ((hear deliver es t).1, ⟨(nested s depth).handler, List.replicate depth (n + es.length),
        (hear deliver es t).2⟩) := by
  induction es generalizing n t with
  | nil => rfl
  | cons e es ih =>
    have hcount : n + 1 + es.length = n + (e :: es).length := by
      rw [List.length_cons]
      omega
    simp only [reportAll, hear, report_nested, ih, hcount]

/-- A handler that is gone hears nothing. -/
theorem reportAll_drop (deliver : AgentError → σ → Bool × σ) (es : List AgentError)
    (r : Reporting σ) : (reportAll deliver es r.drop).2 = r.drop := by
  induction es with
  | nil => rfl
  | cons e es ih => exact ih

/-- Reports to the outermost of any number of layers around any handler, one that may panic and
may change how it answers. Afterwards every layer has counted as many reports as were made; the
handler inside has been called with exactly the reported errors, in order; it has answered, has
panicked and has changed as it does without any layers. When all of it is dropped the counters
stay, and nothing changes them any more. -/
theorem layers_agree {σ : Type} (deliver : AgentError → σ → Bool × σ) (s : σ) (depth : Nat)
    (es : List AgentError) :
    let layered : Reporting (σ × List AgentError) := nested (s, []) depth
    let (answers, r) := reportAll (recording deliver) es layered
    let (state, heard) := r.state
    r.counters = List.replicate depth es.length ∧
    heard = es ∧
    (answers, state) = hear deliver es s ∧
    r.handler = layered.handler ∧
    r.drop.handler = none ∧ r.drop.counters = List.replicate depth es.length ∧
    ∀ later, (reportAll (recording deliver) later r.drop).2 = r.drop := by
  intro layered
  have hnew : layered = ⟨layered.handler, List.replicate depth 0, (s, [])⟩ := by
    rw [← counters_nested (s, ([] : List AgentError)) depth]
    exact congrArg (Reporting.mk _ _) (state_nested _ depth)
  have hrun := reportAll_nested (recording deliver) es (s, []) (s, []) depth 0
  rw [hear_recording, Nat.zero_add, List.nil_append] at hrun
  rw [hnew, hrun]
  exact ⟨rfl, rfl, rfl, rfl, rfl, rfl, fun later => reportAll_drop _ later _⟩

end RingTransport.Reporting
