import GrammarCode.Yaml.Fault

/-!
# Tokens

The characters of a document are grouped into tokens: indicators, properties of nodes, and
scalars. The start and the end of block collections have no characters of their own; they
follow from indentation.
-/

namespace GrammarCode.Yaml

/-- What a token says. -/
inductive Lexeme where
  | streamStart
  | streamEnd
  | version (major minor : Nat)
  | handle (name expansion : Bytes)
  | documentStart
  | documentEnd
  | blockSequenceStart
  | blockMappingStart
  | blockEnd
  | flowSequenceStart
  | flowSequenceEnd
  | flowMappingStart
  | flowMappingEnd
  | blockEntry
  | flowEntry
  | key
  | value
  | alias (name : Bytes)
  | anchor (name : Bytes)
  | tag (handle suffix : Bytes)
  | scalar (text : Bytes) (plain : Bool)
  deriving DecidableEq, Repr, Inhabited

/-- A token and the places where it starts and stops. -/
structure Token where
  lexeme : Lexeme
  start : Mark
  stop : Mark
  deriving DecidableEq, Repr, Inhabited

/-- Spaces and tabs. -/
def isBlank (c : Char) : Bool := c = ' ' || c = '\t'

/-- The characters that end a line. -/
def isBreak (c : Char) : Bool :=
  c = '\n' || c = '\r' || c.toNat = 0x85 || c.toNat = 0x2028 || c.toNat = 0x2029

/-- What is seen beyond the end of the text. No document holds this character. -/
def endChar : Char := Char.ofNat 0

/-- Line ends and the end of the text. -/
def isBreakOrEnd (c : Char) : Bool := isBreak c || c = endChar

/-- Blanks, line ends and the end of the text. -/
def isGap (c : Char) : Bool := isBlank c || isBreakOrEnd c

/-- Letters, digits, `_` and `-`. -/
def isNameChar (c : Char) : Bool := c.isAlphanum || c = '_' || c = '-'

/-- The value of a hexadecimal digit. -/
def hexValue? (c : Char) : Option Nat :=
  if '0' ≤ c && c ≤ '9' then some (c.toNat - 48)
  else if 'a' ≤ c && c ≤ 'f' then some (c.toNat - 87)
  else if 'A' ≤ c && c ≤ 'F' then some (c.toNat - 55)
  else none

/-- The UTF-8 bytes of some characters. -/
def encodeChars (chars : Array Char) : Bytes := chars.toList.flatMap String.utf8EncodeChar

end GrammarCode.Yaml
