import GrammarCode.Text.Bytes

/-!
# Terminal styles

A style is switched on before a text and off after it by escape sequences, each an ESC, a
bracket, numbers with semicolons and a letter. `strip` removes every complete sequence, so
that a styled cell can be measured as it is shown.
-/

namespace GrammarCode.Text

/-- A display attribute. -/
inductive Attribute where
  | bold
  | red
  | green
  | yellow
  | blue
  | cyan
  | brightYellow
  | brightCyan
  deriving DecidableEq, Repr

namespace Attribute

/-- The number that switches the attribute on. -/
def on : Attribute → Nat
  | .bold => 1
  | .red => 31
  | .green => 32
  | .yellow => 33
  | .blue => 34
  | .cyan => 36
  | .brightYellow => 93
  | .brightCyan => 96

/-- The number that switches the attribute off: bold has its own, colours share the reset. -/
def off : Attribute → Nat
  | .bold => 22
  | _ => 0

end Attribute

namespace Style

/-- The escape sequence with these numbers. -/
def sequence (numbers : List Nat) : Bytes :=
  0x1B :: 0x5B :: Bytes.join [0x3B] (numbers.map Bytes.decimalNat) ++ [0x6D]

/-- A text with attributes switched on around it, or the bare text when colour is off. -/
def paint (colour : Bool) (attributes : List Attribute) (text : Bytes) : Bytes :=
  if colour then
    sequence (attributes.map Attribute.on) ++ text ++ sequence (attributes.map Attribute.off)
  else text

/-- A digit or a semicolon. -/
def isParameter (b : UInt8) : Bool := (0x30 ≤ b && b ≤ 0x39) || b = 0x3B

/-- An ASCII letter. -/
def isLetter (b : UInt8) : Bool := (0x41 ≤ b && b ≤ 0x5A) || (0x61 ≤ b && b ≤ 0x7A)

/-- The parameters up to the final letter: how many bytes they take with that letter. -/
def tailLength? : Bytes → Option Nat
  | [] => none
  | b :: rest =>
    if isParameter b then (tailLength? rest).map (· + 1)
    else if isLetter b then some 1
    else none

/-- How many bytes after an ESC complete a sequence, if any do. -/
def sequenceLength? : Bytes → Option Nat
  | 0x5B :: rest => (tailLength? rest).map (· + 1)
  | _ => none

/-- Removes sequences from what follows the next `skip` bytes, which belong to one. -/
def stripAfter (skip : Nat) : Bytes → Bytes
  | [] => []
  | b :: rest =>
    match skip with
    | k + 1 => stripAfter k rest
    | 0 =>
      if b = 0x1B then
        match sequenceLength? rest with
        | some n => stripAfter n rest
        | none => b :: stripAfter 0 rest
      else b :: stripAfter 0 rest

/-- A text without its complete escape sequences. -/
def strip (b : Bytes) : Bytes := stripAfter 0 b

end Style

end GrammarCode.Text
