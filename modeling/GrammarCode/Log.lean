import GrammarCode.Text.Bytes

/-!
# Log events

What happens is reported as events: a level, a message and named fields. How an event is
written, and whether its level is wanted at all, is decided by whoever receives it.
-/

namespace GrammarCode.Log

/-- How important an event is. -/
inductive Level where
  | debug
  | warn
  deriving DecidableEq, Repr, Inhabited

namespace Level

/-- The name of a level. -/
def name : Level → String
  | .debug => "debug"
  | .warn => "warn"

/-- The rank of a level; a logger drops events below its own rank. -/
def rank : Level → Int
  | .debug => 0
  | .warn => 2

end Level

/-- The value of a field. -/
inductive Value where
  | text (b : Bytes)
  | number (n : Int)
  deriving DecidableEq, Repr, Inhabited

/-- An event. -/
structure Event where
  level : Level
  message : String
  fields : List (String × Value)
  deriving DecidableEq, Repr, Inhabited

end GrammarCode.Log
