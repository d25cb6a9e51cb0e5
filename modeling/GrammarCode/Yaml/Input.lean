import GrammarCode.Yaml.Fault
import GrammarCode.Text.Utf8

/-!
# From bytes to characters

A text is UTF-8 unless a byte order mark says that it is UTF-16. It is read in windows of 512
bytes, each from the first byte not yet decoded, and a whole window is decoded before any of
its characters can be looked at: so a faulty byte hides the good characters before it in its
window. `Input.bounds` keeps how many characters each complete window makes available.
-/

namespace GrammarCode.Yaml

/-- The encodings of a text. -/
inductive Encoding where
  | utf8
  | utf16le
  | utf16be
  deriving DecidableEq, Repr

namespace Encoding

/-- The encoding of a text, and how many bytes its byte order mark takes. -/
def detect : Bytes → Encoding × Nat
  | 0xFF :: 0xFE :: _ => (.utf16le, 2)
  | 0xFE :: 0xFF :: _ => (.utf16be, 2)
  | 0xEF :: 0xBB :: 0xBF :: _ => (.utf8, 3)
  | _ => (.utf8, 0)

end Encoding

/-- Characters that a document may hold. -/
def isAllowed (code : Nat) : Bool :=
  code = 0x09 || code = 0x0A || code = 0x0D || (0x20 ≤ code && code ≤ 0x7E) || code = 0x85
    || (0xA0 ≤ code && code ≤ 0xD7FF) || (0xE000 ≤ code && code ≤ 0xFFFD)
    || (0x10000 ≤ code && code ≤ 0x10FFFF)

/-- What stands at the front of some bytes: a character, the beginning of a character that
takes more bytes than there are, or no character. -/
inductive Front where
  | char (c : Char) (width : Nat)
  | short (width : Nat) (problem : ReadProblem)
  | bad (width : Nat) (problem : ReadProblem)

namespace Front

/-- A decoded code if a document may hold it. -/
def ofCode (code width : Nat) : Front :=
  if isAllowed code then .char (Char.ofNat code) width else .bad width .controlCharacter

/-- How many bytes a UTF-8 character with this first byte takes. -/
def octets? (b : UInt8) : Option Nat :=
  if b < 0x80 then some 1
  else if b < 0xC0 then none
  else if b < 0xE0 then some 2
  else if b < 0xF0 then some 3
  else if b < 0xF8 then some 4
  else none

/-- The least code that needs so many bytes. -/
def leastCode : Nat → Nat
  | 2 => 0x80
  | 3 => 0x800
  | 4 => 0x10000
  | _ => 0

/-- The payload bits of a first byte. -/
def leadBits (b : UInt8) : Nat → Nat
  | 2 => b.toNat % 32
  | 3 => b.toNat % 16
  | 4 => b.toNat % 8
  | _ => b.toNat % 128

/-- The code with the payload of the trailing bytes added, if they are trailing bytes. -/
def trail? (code : Nat) : Bytes → Option Nat
  | [] => some code
  | b :: rest => if Utf8.isTail b then trail? (code * 64 + Utf8.payload b) rest else none

/-- The front of UTF-8 bytes. -/
def utf8 (b : UInt8) (rest : Bytes) : Front :=
  match octets? b with
  | none => .bad 1 .leadingOctet
  | some width =>
    let tail := rest.take (width - 1)
    if tail.length < width - 1 then .short width .incompleteOctets
    else
      match trail? (leadBits b width) tail with
      | none => .bad width .trailingOctet
      | some code =>
        if code < leastCode width then .bad width .sequenceLength
        else if (0xD800 ≤ code && code ≤ 0xDFFF) || 0x10FFFF < code then .bad width .notUnicode
        else ofCode code width

/-- The value of a sixteen-bit unit. -/
def unit (encoding : Encoding) (a b : UInt8) : Nat :=
  if encoding = .utf16le then a.toNat + b.toNat * 256 else a.toNat * 256 + b.toNat

/-- The front of UTF-16 bytes. -/
def utf16 (encoding : Encoding) (a : UInt8) : Bytes → Front
  | [] => .short 2 .incompleteUnit
  | b :: rest =>
    let high := unit encoding a b
    if high / 1024 = 0x37 then .bad 2 .strayLowSurrogate
    else if high / 1024 = 0x36 then
      match rest with
      | c :: d :: _ =>
        let low := unit encoding c d
        if low / 1024 = 0x37 then ofCode (0x10000 + high % 1024 * 1024 + low % 1024) 4
        else .bad 4 .missingLowSurrogate
      | _ => .short 4 .incompletePair
    else ofCode high 2

/-- The front of bytes that start with `b`. -/
def of (encoding : Encoding) (b : UInt8) (rest : Bytes) : Front :=
  match encoding with
  | .utf8 => utf8 b rest
  | _ => utf16 encoding b rest

/-- How many bytes have to be at hand before a front can be told. -/
def width : Front → Nat
  | .char _ w => w
  | .short w _ => w
  | .bad w _ => w

end Front

/-- The characters of a text up to its end or its first fault. -/
structure Input where
  chars : Array Char := #[]
  /-- How many characters are available after each window. -/
  bounds : Array Nat := #[]
  fault : Option ReadProblem := none

namespace Input

/-- The size of a window in bytes. -/
def window : Nat := 512

/-- Ends a window: all characters so far are available. -/
def close (input : Input) : Input := { input with bounds := input.bounds.push input.chars.size }

/-- Decodes what follows the next `skip` bytes, which belong to a character already taken;
`left` bytes remain of the window, and `ended` says whether the end of the text was already
seen when the first window was decoded. -/
def decodeAfter (encoding : Encoding) (ended : Bool) (input : Input) (skip left : Nat) :
    Bytes → Input
  | [] => input.close
  | b :: rest =>
    match skip with
    | k + 1 => decodeAfter encoding ended input k (left - 1) rest
    | 0 =>
      let front := Front.of encoding b rest
      let fresh := left < front.width
      let input := if fresh then input.close else input
      let left := if fresh then window else left
      match front with
      | .char c width =>
        decodeAfter encoding ended { input with chars := input.chars.push c } (width - 1)
          (left - 1) rest
      | .short _ problem =>
        { (if ended then input else input.close) with fault := some problem }
      | .bad _ problem => { input with fault := some problem }

/-- Decodes a text. -/
def decode (text : Bytes) : Input :=
  let (encoding, mark) := Encoding.detect text
  decodeAfter encoding (text.length < 3) {} 0 (window - mark) (text.drop mark)

end Input

end GrammarCode.Yaml
