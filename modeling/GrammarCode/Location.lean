import GrammarCode.Text.Bytes

/-!
# Locations and error codes

A location is a line and a column in a named or unnamed text. An error code is a short name;
its second byte gives the category.
-/

namespace GrammarCode

/-- A place in a text, lines and columns from one; zero for both means no place at all. -/
structure Location where
  filename : Bytes := []
  line : Int := 0
  column : Int := 0
  deriving DecidableEq, Repr, Inhabited

namespace Location

/-- Whether the location gives no place. -/
def isZero (l : Location) : Bool := l.line = 0 && l.column = 0

/-- `line:column`, after the file name if there is one. -/
def text (l : Location) : Bytes :=
  let place := Bytes.cat [Bytes.decimal l.line, ":", Bytes.decimal l.column]
  if l.filename.isEmpty then place else Bytes.cat [l.filename, ":", place]

end Location

/-- The name of a kind of error, such as `E1001`. -/
structure ErrorCode where
  name : Bytes
  deriving DecidableEq, Repr, Inhabited

namespace ErrorCode

/-- The grammar document is malformed. -/
def malformedDocument : ErrorCode := ⟨"E1001"⟩

/-- A mapping names no kind of atom. -/
def unknownKey : ErrorCode := ⟨"E1002"⟩

/-- A mapping has no or several keys. -/
def ambiguousMapping : ErrorCode := ⟨"E1003"⟩

/-- A value cannot be an atom. -/
def invalidValue : ErrorCode := ⟨"E1004"⟩

/-- The compiler cannot handle an atom. -/
def unsupportedKind : ErrorCode := ⟨"E2001"⟩

/-- The atoms nest too deeply. -/
def depthExceeded : ErrorCode := ⟨"E2002"⟩

/-- Emitted code is inconsistent. -/
def invalidProgram : ErrorCode := ⟨"E2003"⟩

/-- The short descriptions of the known codes. -/
def descriptions : List (ErrorCode × String) :=
  [(malformedDocument, "malformed grammar document"),
   (unknownKey, "unknown atom key"),
   (ambiguousMapping, "ambiguous atom mapping"),
   (invalidValue, "invalid atom value"),
   (unsupportedKind, "unsupported atom kind"),
   (depthExceeded, "maximum nesting depth exceeded"),
   (invalidProgram, "invalid program")]

/-- The short description of a code. -/
def description (c : ErrorCode) : String := (descriptions.lookup c).getD "unknown error"

/-- The category that the second byte of a code gives. -/
def category (c : ErrorCode) : String :=
  match c.name with
  | _ :: 0x31 :: _ => "grammar"
  | _ :: 0x32 :: _ => "compile"
  | _ => "unknown"

end ErrorCode

end GrammarCode
