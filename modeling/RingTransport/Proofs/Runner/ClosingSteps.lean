/-
  The steps that close a runner: those of `close`, and those of the release of a finished runner,
  which opens the latch that a close may wait on. `CloseStep` and `ReleaseStep` list them, each
  with what it finds in the cells and what it leaves, and a thread takes these steps and no others
  there (`stepThread_close_iff`, `stepThread_release_iff`): what is proved of the two anywhere comes
  from these lists. Main facts besides: where a close goes on (`CloseStep.stack_cases`), and that
  nothing but the lock and its sleep can hold it up (`CloseStage.goes_or_waits`).
-/
import RingTransport.Runner.System

namespace RingTransport.Runner

/-! ## Close -/

/-- A step of a close above other frames: the move and the stage it is taken at, and the cells, the
stack and the signals after it. -/
inductive CloseStep (me : Nat) (c : Cells) (core : List Frame) :
    Move → CloseStage → Cells → List Frame → List Signal → Prop
  | storesStopped :
      CloseStep me c core .go .storeStopped { c with running := false } (.close .swap :: core) []
  | findsUnbound (htag : c.tag = .unbound) :
      CloseStep me c core .go .swap { c with tag := .closed }
        (.teardown .close .closeDue :: core) [.notice .neverStarted]
  | findsBound (htag : c.tag = .bound) :
      CloseStep me c core .go .swap { c with tag := .closed } (.close .loadClosed :: core) []
  | findsClosed (htag : c.tag = .closed) :
      CloseStep me c core .go .swap c core [.returned .close]
  | isClosed (hclosed : c.closed = true) :
      CloseStep me c core .go .loadClosed c core [.returned .close]
  | notClosed (hclosed : c.closed = false) :
      CloseStep me c core .go .loadClosed c (.close .loadHandle :: core) []
  | isSelf (hhandle : c.handle = some me) :
      CloseStep me c core .go .loadHandle c core [.returned .close]
  | notSelf (hhandle : c.handle ≠ some me) :
      CloseStep me c core .go .loadHandle c (.close .unpark :: core) []
  | unparks {t : Nat} (hhandle : c.handle = some t) :
      CloseStep me c core .go .unpark c (.close .lock :: core) [.unparked t]
  | unparksNobody (hhandle : c.handle = none) :
      CloseStep me c core .go .unpark c (.close .lock :: core) []
  | locks (hfree : c.latch.holder = none) :
      CloseStep me c core .go .lock { c with latch.holder := some me }
        (.close .loadDone :: core) []
  | isDone (hdone : c.latch.done = true) :
      CloseStep me c core .go .loadDone c (.close .unlock :: core) []
  | notDone (hdone : c.latch.done = false) :
      CloseStep me c core .go .loadDone c (.close .sleep :: core) []
  | sleeps :
      CloseStep me c core .go .sleep
        { c with latch.holder := none, latch.sleepers := me :: c.latch.sleepers }
        (.close .asleep :: core) []
  | stirs :
      CloseStep me c core .stir .asleep
        { c with latch.sleepers := c.latch.sleepers.erase me } (.close .asleep :: core) []
  | awakes (hawake : me ∉ c.latch.sleepers) (hfree : c.latch.holder = none) :
      CloseStep me c core .go .asleep { c with latch.holder := some me }
        (.close .loadDone :: core) []
  | unlocks :
      CloseStep me c core .go .unlock { c with latch.holder := none } core [.returned .close]

variable {me : Nat} {c c' : Cells} {core stack : List Frame} {signals : List Signal}
  {handler : Handler} {move : Move} {stage : CloseStage}

theorem closeStep_of_go (hs : stepClose me c core stage = some (c', stack, signals)) :
    CloseStep me c core .go stage c' stack signals := by
  cases stage with
  | storeStopped => cases hs; exact .storesStopped
  | swap =>
    simp only [stepClose] at hs
    split at hs
    · next htag => cases hs; exact .findsUnbound htag
    · next htag => cases hs; exact .findsBound htag
    · next htag => cases hs; exact .findsClosed htag
  | loadClosed =>
    simp only [stepClose] at hs
    split at hs
    · next hclosed => cases hs; exact .isClosed hclosed
    · next hopen => cases hs; exact .notClosed (Bool.eq_false_iff.2 hopen)
  | loadHandle =>
    simp only [stepClose] at hs
    split at hs
    · next hmine => cases hs; exact .isSelf hmine
    · next hother => cases hs; exact .notSelf hother
  | unpark =>
    cases hs
    cases hhandle : c.handle with
    | none => exact .unparksNobody hhandle
    | some t => exact .unparks hhandle
  | lock =>
    simp only [stepClose] at hs
    split at hs
    · next hfree => cases hs; exact .locks (Option.isNone_iff_eq_none.1 hfree)
    · cases hs
  | loadDone =>
    cases hs
    cases hdone : c.latch.done with
    | false => exact .notDone hdone
    | true => exact .isDone hdone
  | sleep => cases hs; exact .sleeps
  | asleep =>
    simp only [stepClose] at hs
    split at hs
    · next hready => cases hs; exact .awakes hready.1 (Option.isNone_iff_eq_none.1 hready.2)
    · cases hs
  | unlock => cases hs; exact .unlocks

/-- A thread that stands in a close takes the listed steps and no others. -/
theorem stepThread_close_iff :
    stepThread handler me c (.close stage :: core) move = some (c', stack, signals) ↔
      CloseStep me c core move stage c' stack signals := by
  constructor
  · intro hs
    cases move with
    | go => exact closeStep_of_go hs
    | stir =>
      cases stage with
      | asleep => cases hs; exact .stirs
      | _ => cases hs
    | call | finish | settle => cases hs
  · intro h
    cases h with
    | storesStopped | sleeps | stirs | unlocks => rfl
    | awakes hawake hfree => simp [stepThread, stepClose, hawake, hfree]
    | findsUnbound h | findsBound h | findsClosed h | isClosed h | notClosed h | isSelf h
    | notSelf h | unparks h | unparksNobody h | locks h | isDone h | notDone h =>
      simp [stepThread, stepClose, h]

/-- A step of a close comes back, or goes on, or takes a runner that nobody has taken. -/
theorem CloseStep.stack_cases (h : CloseStep me c core move stage c' stack signals) :
    stack = core ∨ (∃ later, stack = .close later :: core) ∨
      stack = .teardown .close .closeDue :: core := by
  cases h with
  | findsUnbound => exact .inr (.inr rfl)
  | findsClosed | isClosed | isSelf | unlocks => exact .inl rfl
  | _ => exact .inr (.inl ⟨_, rfl⟩)

/-- A close that finds nobody bound takes the runner. -/
theorem CloseStep.of_unbound (h : CloseStep me c core move .swap c' stack signals)
    (htag : c.tag = .unbound) :
    c' = { c with tag := .closed } ∧ stack = .teardown .close .closeDue :: core := by
  cases h with
  | findsUnbound => exact ⟨rfl, rfl⟩
  | findsBound h | findsClosed h => cases htag.symm.trans h

/-- A close that finds a thread bound goes on to see whether it has to wait. -/
theorem CloseStep.of_bound (h : CloseStep me c core move .swap c' stack signals)
    (htag : c.tag = .bound) :
    c' = { c with tag := .closed } ∧ stack = .close .loadClosed :: core := by
  cases h with
  | findsBound => exact ⟨rfl, rfl⟩
  | findsUnbound h | findsClosed h => cases htag.symm.trans h

/-- A close goes on, or it waits for the lock, or it sleeps. -/
theorem CloseStage.goes_or_waits (stage : CloseStage) (me : Nat) (c : Cells) (core : List Frame) :
    (∃ c' stack signals, CloseStep me c core .go stage c' stack signals) ∨
      (stage = .lock ∨ stage = .asleep) ∧
        (c.latch.holder ≠ none ∨ stage = .asleep ∧ me ∈ c.latch.sleepers) := by
  cases stage with
  | storeStopped => exact .inl ⟨_, _, _, .storesStopped⟩
  | swap =>
    cases htag : c.tag with
    | unbound => exact .inl ⟨_, _, _, .findsUnbound htag⟩
    | bound => exact .inl ⟨_, _, _, .findsBound htag⟩
    | closed => exact .inl ⟨_, _, _, .findsClosed htag⟩
  | loadClosed =>
    cases hclosed : c.closed with
    | false => exact .inl ⟨_, _, _, .notClosed hclosed⟩
    | true => exact .inl ⟨_, _, _, .isClosed hclosed⟩
  | loadHandle =>
    by_cases hmine : c.handle = some me
    · exact .inl ⟨_, _, _, .isSelf hmine⟩
    · exact .inl ⟨_, _, _, .notSelf hmine⟩
  | unpark =>
    cases hhandle : c.handle with
    | none => exact .inl ⟨_, _, _, .unparksNobody hhandle⟩
    | some t => exact .inl ⟨_, _, _, .unparks hhandle⟩
  | lock =>
    by_cases hfree : c.latch.holder = none
    · exact .inl ⟨_, _, _, .locks hfree⟩
    · exact .inr ⟨.inl rfl, .inl hfree⟩
  | loadDone =>
    cases hdone : c.latch.done with
    | false => exact .inl ⟨_, _, _, .notDone hdone⟩
    | true => exact .inl ⟨_, _, _, .isDone hdone⟩
  | sleep => exact .inl ⟨_, _, _, .sleeps⟩
  | asleep =>
    by_cases hfree : c.latch.holder = none
    · by_cases hasleep : me ∈ c.latch.sleepers
      · exact .inr ⟨.inr rfl, .inr ⟨rfl, hasleep⟩⟩
      · exact .inl ⟨_, _, _, .awakes hasleep hfree⟩
    · exact .inr ⟨.inr rfl, .inl hfree⟩
  | unlock => exact .inl ⟨_, _, _, .unlocks⟩

/-! ## Release -/

/-- What the end of the owner's call shows: it returns, or a panic leaves it. -/
def Owner.exit (owner : Owner) : Option Payload → Signal
  | none => .returned owner.call
  | some p => .unwound owner.call p

/-- A step of a release above other frames. -/
inductive ReleaseStep (me : Nat) (c : Cells) (core : List Frame) (owner : Owner)
    (panic : Option Payload) : ReleaseStage → Cells → List Frame → List Signal → Prop
  | storesClosed :
      ReleaseStep me c core owner panic .storeClosed { c with closed := true }
        (.release owner .lock panic :: core) []
  | locks (hfree : c.latch.holder = none) :
      ReleaseStep me c core owner panic .lock { c with latch.holder := some me }
        (.release owner .storeDone panic :: core) []
  | storesDone :
      ReleaseStep me c core owner panic .storeDone { c with latch.done := true }
        (.release owner .wake panic :: core) []
  | wakes :
      ReleaseStep me c core owner panic .wake { c with latch.sleepers := [] }
        (.release owner .unlock panic :: core) []
  | unlocks :
      ReleaseStep me c core owner panic .unlock { c with latch.holder := none } core
        [owner.exit panic]

variable {owner : Owner} {panic : Option Payload}

/-- A thread that stands in a release takes the listed steps and no others. -/
theorem stepThread_release_iff {stage : ReleaseStage} :
    stepThread handler me c (.release owner stage panic :: core) move =
        some (c', stack, signals) ↔
      move = .go ∧ ReleaseStep me c core owner panic stage c' stack signals := by
  constructor
  · intro hs
    cases move with
    | go =>
      refine ⟨rfl, ?_⟩
      cases stage with
      | storeClosed => cases hs; exact .storesClosed
      | lock =>
        simp only [stepThread, stepRelease] at hs
        split at hs
        · next hfree => cases hs; exact .locks (Option.isNone_iff_eq_none.1 hfree)
        · cases hs
      | storeDone => cases hs; exact .storesDone
      | wake => cases hs; exact .wakes
      | unlock => cases panic <;> (cases hs; exact .unlocks)
    | call | finish | settle | stir => cases hs
  · rintro ⟨rfl, h⟩
    cases h with
    | locks hfree => simp [stepThread, stepRelease, hfree]
    | unlocks => cases panic <;> rfl
    | _ => rfl

/-- A release goes on, or it waits for the lock. -/
theorem ReleaseStage.goes_or_waits (stage : ReleaseStage) (me : Nat) (c : Cells)
    (core : List Frame) (owner : Owner) (panic : Option Payload) :
    (∃ c' stack signals, ReleaseStep me c core owner panic stage c' stack signals) ∨
      stage = .lock ∧ c.latch.holder ≠ none := by
  cases stage with
  | storeClosed => exact .inl ⟨_, _, _, .storesClosed⟩
  | lock =>
    by_cases hfree : c.latch.holder = none
    · exact .inl ⟨_, _, _, .locks hfree⟩
    · exact .inr ⟨rfl, hfree⟩
  | storeDone => exact .inl ⟨_, _, _, .storesDone⟩
  | wake => exact .inl ⟨_, _, _, .wakes⟩
  | unlock => exact .inl ⟨_, _, _, .unlocks⟩

end RingTransport.Runner
