import GrammarCode.Atom.Basic

/-!
# The text of an atom

Atoms are written as parsing expressions: literals between single quotes, the parts of a
sequence side by side, the parts of a choice with ` / ` between them. A choice of several
parts inside a sequence stands in parentheses. Writing goes from the right, in front of the
text that follows, so that it takes time linear in the text.
-/

namespace GrammarCode

namespace Atom

/-- One byte of a pattern as it stands between the quotes. -/
def escapeByte (b : UInt8) : Bytes :=
  if b = 0x5C then [0x5C, 0x5C]
  else if b = 0x27 then [0x5C, 0x27]
  else if b = 0x0A then [0x5C, 0x6E]
  else if b = 0x09 then [0x5C, 0x74]
  else if b = 0x0D then [0x5C, 0x72]
  else [b]

/-- A pattern with backslash, quote, newline, tab and carriage return escaped. -/
def escape (pattern : Bytes) : Bytes := pattern.flatMap escapeByte

/-- Whether an atom is a choice of at least two parts, which binds looser than a sequence. -/
def isOpenChoice : Atom → Bool
  | .choice (_ :: _ :: _) => true
  | _ => false

/-- What stands between the parts of a sequence or of a choice. -/
def separator (inSequence : Bool) : Bytes :=
  if inSequence then [0x20] else [0x20, 0x2F, 0x20]

mutual

/-- The text of an atom, followed by `rest`. -/
def write (rest : Bytes) : Atom → Bytes
  | .literal pattern => 0x27 :: (escape pattern ++ 0x27 :: rest)
  | .sequence parts => writeAll true rest parts
  | .choice parts => writeAll false rest parts
  | .nothing => "<nil>" ++ rest
  | .hollow _ => rest
  | .foreign _ text => text ++ rest

/-- The texts of the parts of a sequence or of a choice, followed by `rest`. -/
def writeAll (inSequence : Bool) (rest : Bytes) : List Atom → Bytes
  | [] => rest
  | a :: more =>
    let after :=
      if more.isEmpty then rest else separator inSequence ++ writeAll inSequence rest more
    if inSequence && a.isOpenChoice then 0x28 :: write (0x29 :: after) a
    else write after a

end

/-- The text of an atom, unless the tree has a place without content: that has no text. -/
def text? (a : Atom) : Option Bytes :=
  if a.hasHollow then none else some (a.write [])

end Atom

end GrammarCode
