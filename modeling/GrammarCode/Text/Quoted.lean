import GrammarCode.Text.Utf8
import GrammarCode.Text.Printable

/-!
# Quoted text

The double-quoted spelling of a byte string in messages and listings: printable characters
stand for themselves, everything else is a backslash escape, and a byte that is no UTF-8 is
written in hexadecimal. The result is printable and shows every byte.
-/

namespace GrammarCode.Text.Quoted

/-- The letter after the backslash for the characters that have a short escape. -/
def shortEscape? (code : Nat) : Option UInt8 :=
  match code with
  | 0x07 => some 0x61
  | 0x08 => some 0x62
  | 0x0C => some 0x66
  | 0x0A => some 0x6E
  | 0x0D => some 0x72
  | 0x09 => some 0x74
  | 0x0B => some 0x76
  | 0x22 => some 0x22
  | 0x5C => some 0x5C
  | _ => none

/-- The escape of a character without a short one, in two, four or eight digits. -/
def codeEscape (code : Nat) : Bytes :=
  if code < 0x20 || code = 0x7F then 0x5C :: 0x78 :: Bytes.hex 2 code
  else if code < 0x10000 then 0x5C :: 0x75 :: Bytes.hex 4 code
  else 0x5C :: 0x55 :: Bytes.hex 8 code

/-- One item of the reading as it appears between the quotes. -/
def item : Glyph → Bytes
  | .stray b => 0x5C :: 0x78 :: Bytes.hex 2 b.toNat
  | .char c =>
    match shortEscape? c.toNat with
    | some e => [0x5C, e]
    | none => if isPrintable c then String.utf8EncodeChar c else codeEscape c.toNat

end Quoted

/-- The quoted spelling of a byte string. -/
def quoted (b : Bytes) : Bytes :=
  0x22 :: (Utf8.glyphs b).flatMap Quoted.item ++ [0x22]

end GrammarCode.Text
