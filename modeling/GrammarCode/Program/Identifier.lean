import GrammarCode.Text.Bytes

/-!
# Identifiers

A program is identified by sixteen bytes written in hexadecimal, in groups of four, two, two, two
and six bytes. An identifier made from random bytes says so in its version and variant bits.
-/

namespace GrammarCode.Identifier

/-- Sixteen bytes with the bits of a random identifier set. -/
def marked (random : Bytes) : Bytes :=
  random.zipIdx.map fun e =>
    if e.2 = 6 then e.1 &&& 0x0F ||| 0x40
    else if e.2 = 8 then e.1 &&& 0x3F ||| 0x80
    else e.1

/-- Bytes in hexadecimal. -/
def digits (b : Bytes) : Bytes := b.flatMap fun x => Bytes.hex 2 x.toNat

/-- The text of the identifier that random bytes give. -/
def ofRandom (random : Bytes) : Bytes :=
  let ds := digits (marked random)
  Bytes.join [0x2D]
    [ds.take 8, (ds.drop 8).take 4, (ds.drop 12).take 4, (ds.drop 16).take 4, ds.drop 20]

end GrammarCode.Identifier
