import GrammarCode.Location
import GrammarCode.Text.Quoted

/-!
# Grammar errors

A grammar document is refused with a code, a text and the place in the document. `caused` says
that the error only passes on what was wrong with the document as such.
-/

namespace GrammarCode

/-- Why a grammar document is refused. -/
structure GrammarError where
  code : ErrorCode
  text : Bytes
  location : Location := {}
  caused : Bool := false
  deriving DecidableEq, Repr

namespace GrammarError

/-- The whole message; the place is named if there is one. -/
def message (e : GrammarError) : Bytes :=
  Bytes.cat ["grammar error: ", e.text,
    if e.location.isZero then [] else Bytes.cat [" (", e.location.text, ")"]]

/-- The text for a mapping whose key names no kind of atom. -/
def unknownKeyText (key : Bytes) : Bytes := Bytes.cat ["unknown atom key ", Text.quoted key]

end GrammarError

end GrammarCode
