import GrammarCode.Text.Bytes

/-!
# Reading bytes as UTF-8

A byte string is read from the left. Where it holds a well-formed character that character is
taken whole; any other byte stands alone as a stray one. So every byte string has exactly one
reading and no byte is lost.
-/

namespace GrammarCode

/-- One item of a reading: a character, or a byte that is part of none. -/
inductive Glyph where
  | char (c : Char)
  | stray (b : UInt8)
  deriving DecidableEq, Repr, Inhabited

namespace Glyph

/-- The character shown for an item: a stray byte counts as U+FFFD. -/
def shown : Glyph → Char
  | .char c => c
  | .stray _ => Char.ofNat 0xFFFD

/-- The bytes that an item was read from. -/
def bytes : Glyph → Bytes
  | .char c => String.utf8EncodeChar c
  | .stray b => [b]

/-- Whether an item is a whole character. -/
def isChar : Glyph → Bool
  | .char _ => true
  | .stray _ => false

end Glyph

namespace Utf8

/-- A byte of the form `10xxxxxx`. -/
def isTail (b : UInt8) : Bool := 0x80 ≤ b && b ≤ 0xBF

/-- The six payload bits of a tail byte. -/
def payload (b : UInt8) : Nat := b.toNat % 64

/-- The character that starts with byte `b`, and how many of the bytes after `b` belong to it.
Overlong forms, surrogates and values above U+10FFFF are refused. -/
def first? (b : UInt8) (rest : Bytes) : Option (Char × Nat) :=
  if b < 0x80 then some (Char.ofNat b.toNat, 0)
  else if b < 0xC2 then none
  else if b < 0xE0 then
    match rest with
    | x :: _ =>
      if isTail x then some (Char.ofNat (b.toNat % 32 * 64 + payload x), 1) else none
    | _ => none
  else if b < 0xF0 then
    match rest with
    | x :: y :: _ =>
      let low := if b = 0xE0 then 0xA0 else 0x80
      let high := if b = 0xED then 0x9F else 0xBF
      if low ≤ x && x ≤ high && isTail y then
        some (Char.ofNat (b.toNat % 16 * 4096 + payload x * 64 + payload y), 2)
      else none
    | _ => none
  else if b < 0xF5 then
    match rest with
    | x :: y :: z :: _ =>
      let low := if b = 0xF0 then 0x90 else 0x80
      let high := if b = 0xF4 then 0x8F else 0xBF
      if low ≤ x && x ≤ high && isTail y && isTail z then
        some (Char.ofNat
          (b.toNat % 8 * 262144 + payload x * 4096 + payload y * 64 + payload z), 3)
      else none
    | _ => none
  else none

/-- Reads the bytes after the first `skip`, which belong to a character already taken. -/
def glyphsAfter (skip : Nat) : Bytes → List Glyph
  | [] => []
  | b :: rest =>
    match skip with
    | k + 1 => glyphsAfter k rest
    | 0 =>
      match first? b rest with
      | some (c, more) => .char c :: glyphsAfter more rest
      | none => .stray b :: glyphsAfter 0 rest

/-- The reading of a byte string. -/
def glyphs (b : Bytes) : List Glyph := glyphsAfter 0 b

/-- Whether a byte string is well-formed UTF-8. -/
def isValid (b : Bytes) : Bool := (glyphs b).all Glyph.isChar

/-- The text that a byte string shows: each stray byte is replaced by U+FFFD. -/
def repair (b : Bytes) : Bytes := (glyphs b).flatMap fun g => String.utf8EncodeChar g.shown

/-- The string of a well-formed byte string. -/
def toString? (b : Bytes) : Option String :=
  if isValid b then some (String.ofList ((glyphs b).map Glyph.shown)) else none

@[simp] theorem glyphs_nil : glyphs [] = [] := rfl

end Utf8

end GrammarCode
