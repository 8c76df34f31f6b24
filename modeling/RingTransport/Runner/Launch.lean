/-
  Starting a runner on a thread of its own: the name of the thread, and the core it is
  pinned to. A core that is not there is only worth a warning.
-/
import RingTransport.Log

namespace RingTransport.Runner

/-- What is asked of the thread of a runner. -/
structure ThreadConfig where
  name : Option String
  stackSize : Option Nat
  core : Option Nat
  deriving DecidableEq, Repr

/-- Nothing in particular. -/
def ThreadConfig.standard : ThreadConfig := ⟨none, none, none⟩

/-- The name of the thread: the one asked for, or else the role of the agent. -/
def ThreadConfig.nameFor (config : ThreadConfig) (role : String) : String :=
  config.name.getD role

/-- A thread name must not hold the character that ends names. -/
def nameAllowed (name : String) : Bool := !name.toList.contains '\x00'

/-- Cores are numbered below this. -/
def coreLimit : Nat := 1024

/-- Why a thread was not pinned. -/
inductive PinError where
  | outOfRange (core : Nat)
  deriving DecidableEq, Repr

/-- The text of a pinning failure. -/
def PinError.message : PinError → String
  | .outOfRange core => "core " ++ toString core ++ " out of range"

/-- Whether a core can be asked for at all. -/
def checkCore (core : Nat) : Except PinError Unit :=
  if core < coreLimit then .ok () else .error (.outOfRange core)

/-- The warning of a thread that was not pinned to the core asked for. -/
def pinRecord (role : String) (core : Nat) (e : PinError) : Log.Record :=
  ⟨.warn, "failed to pin agent thread",
    [("role", .text role), ("core", .number core), ("error", .text e.message)]⟩

/-- What a new thread has to say before it runs the runner. -/
def ThreadConfig.records (config : ThreadConfig) (role : String) : List Log.Record :=
  match config.core with
  | none => []
  | some core =>
    match checkCore core with
    | .ok () => []
    | .error e => [pinRecord role core e]

end RingTransport.Runner
