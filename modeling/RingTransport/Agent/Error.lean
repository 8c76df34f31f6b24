/-
  The errors of an agent. An error of another kind is known by its text and by the error
  that caused it, if any. Main facts: wrapping an error changes neither its text nor its
  sources (`text_wrap`, `sources_wrap`), only what kind of error it is.
-/

namespace RingTransport

/-- An error seen from outside: its text and, below it, the error that caused it. -/
inductive Cause where
  | root (text : String)
  | because (text : String) (source : Cause)
  deriving DecidableEq, Repr

namespace Cause

/-- The text of an error. -/
def text : Cause → String
  | root t => t
  | because t _ => t

/-- The texts of the errors below, nearest first. -/
def sources : Cause → List String
  | root _ => []
  | because _ c => c.text :: c.sources

/-- The error with given texts, each caused by the next. -/
def ofTexts (first : String) : List String → Cause
  | [] => root first
  | t :: ts => because first (ofTexts t ts)

theorem text_ofTexts (first : String) (ts : List String) : (ofTexts first ts).text = first := by
  cases ts <;> rfl

theorem sources_ofTexts (first : String) (ts : List String) :
    (ofTexts first ts).sources = ts := by
  induction ts generalizing first with
  | nil => rfl
  | cons t ts ih => simp [ofTexts, sources, text_ofTexts, ih]

end Cause

/-- What a panic leaves behind: a text, or something that has none. -/
inductive Payload where
  | text (t : String)
  | other
  deriving DecidableEq, Repr

/-- The text a panic is known by. -/
def Payload.message : Payload → String
  | text t => t
  | other => "non-string panic payload"

/-- Why a callback of an agent failed. -/
inductive AgentError where
  /-- The agent asks to stop. -/
  | cancelled
  /-- A callback panicked. -/
  | panicked (text : String)
  | message (text : String)
  /-- An error of any other kind. -/
  | failed (cause : Cause)
  deriving DecidableEq, Repr

namespace AgentError

/-- The text of an error. An error of another kind speaks for itself. -/
def text : AgentError → String
  | cancelled => "agent cancelled"
  | panicked t => "agent panicked: " ++ t
  | message t => t
  | failed c => c.text

/-- The texts of the errors that caused it, nearest first. -/
def sources : AgentError → List String
  | failed c => c.sources
  | _ => []

/-- The name of the kind of error. -/
def variant : AgentError → String
  | cancelled => "Cancelled"
  | panicked _ => "Panicked"
  | message _ => "Message"
  | failed _ => "Failed"

/-- Only the outermost kind counts. -/
def isCancelled : AgentError → Bool
  | cancelled => true
  | _ => false

/-- An error of an agent, seen from outside. -/
def asCause : AgentError → Cause
  | failed c => c
  | e => .root e.text

/-- The error with another one inside, which lends it text and sources. -/
def wrap (e : AgentError) : AgentError := failed e.asCause

@[simp] theorem text_wrap (e : AgentError) : e.wrap.text = e.text := by
  cases e <;> rfl

@[simp] theorem sources_wrap (e : AgentError) : e.wrap.sources = e.sources := by
  cases e <;> rfl

end AgentError

end RingTransport
