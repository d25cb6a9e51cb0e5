/-!
# Sets of characters given by ranges

A property of characters that no formula gives is a table of closed ranges of code points.
-/

namespace GrammarCode

/-- Closed ranges of code points, in increasing order. -/
abbrev Ranges := Array (Nat × Nat)

namespace Ranges

/-- Whether a code point lies in one of the ranges. -/
def covers (t : Ranges) (code : Nat) : Bool :=
  t.any fun r => r.1 ≤ code && code ≤ r.2

end Ranges

end GrammarCode
