/-
  Log records: a level, a message, and named fields.
-/

namespace RingTransport.Log

/-- How urgent a record is. -/
inductive Level where
  | debug
  | warn
  | error
  deriving DecidableEq, Repr

/-- The name of a level. -/
def Level.name : Level → String
  | .debug => "debug"
  | .warn => "warn"
  | .error => "error"

/-- The value of a field. -/
inductive Value where
  | text (t : String)
  | number (n : Nat)
  deriving DecidableEq, Repr

/-- A record. -/
structure Record where
  level : Level
  message : String
  fields : List (String × Value)
  deriving DecidableEq, Repr

end RingTransport.Log
