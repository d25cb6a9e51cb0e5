import GrammarCode.Text.Bytes

/-!
# Base64

Bytes written six bits to a character, four characters to three bytes. The last group is filled
up with `=`; line ends may stand anywhere.
-/

namespace GrammarCode.Text.Base64

/-- The six bits of a character. -/
def sextet? (c : UInt8) : Option Nat :=
  if 0x41 ≤ c && c ≤ 0x5A then some (c.toNat - 0x41)
  else if 0x61 ≤ c && c ≤ 0x7A then some (c.toNat - 0x61 + 26)
  else if 0x30 ≤ c && c ≤ 0x39 then some (c.toNat - 0x30 + 52)
  else if c = 0x2B then some 62
  else if c = 0x2F then some 63
  else none

/-- The bytes of groups of four characters. -/
def groups? : Bytes → Option Bytes
  | [] => some []
  | a :: b :: c :: d :: rest => do
    let x := (← sextet? a) * 64 + (← sextet? b)
    if c = 0x3D then
      if d = 0x3D && rest.isEmpty then pure [(x / 16).toUInt8] else none
    else
      let x := x * 64 + (← sextet? c)
      if d = 0x3D then
        if rest.isEmpty then pure [(x / 1024).toUInt8, (x / 4).toUInt8] else none
      else
        let x := x * 64 + (← sextet? d)
        let more ← groups? rest
        pure ((x / 65536).toUInt8 :: (x / 256).toUInt8 :: x.toUInt8 :: more)
  | _ => none

/-- The bytes that a text stands for. -/
def decode? (text : Bytes) : Option Bytes :=
  groups? (text.filter fun b => b ≠ 0x0A && b ≠ 0x0D)

end GrammarCode.Text.Base64
