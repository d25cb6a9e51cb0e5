import GrammarCode.Text.Quoted

/-!
# Integers and truth values as text

Integers of 64 bits with sign are read in base ten, or in the base that the text itself shows:
`0x`, `0o` or a leading zero, and `0b`, with single underscores between digits. A text that is no
integer and an integer that does not fit are different errors.
-/

namespace GrammarCode

/-- Why a text is not an integer of 64 bits. -/
inductive IntegerError where
  | malformed
  | outOfRange
  deriving DecidableEq, Repr

/-- The wording of an error. -/
def IntegerError.text : IntegerError → String
  | .malformed => "invalid syntax"
  | .outOfRange => "value out of range"

namespace Integer

/-- How many integers 64 bits can tell apart. -/
def range64 : Nat := 0x10000000000000000

/-- How many of them are negative when one bit is the sign. -/
def half64 : Nat := 0x8000000000000000

/-- An integer reduced to the range of 64 bits with sign. -/
def wrap64 (n : Int) : Int := Int.bmod n range64

/-- An ASCII letter in lower case; every other byte is kept. -/
def lowerByte (b : UInt8) : UInt8 := if 0x41 ≤ b && b ≤ 0x5A then b + 0x20 else b

/-- The value of a digit in a base up to thirty-six. -/
def digit? (base : Nat) (b : UInt8) : Option Nat :=
  let c := lowerByte b
  let d :=
    if 0x30 ≤ c && c ≤ 0x39 then c.toNat - 0x30
    else if 0x61 ≤ c && c ≤ 0x7A then c.toNat - 0x57
    else base
  if d < base then some d else none

/-- The number that digits spell after `n`. Numbers stop fitting at the first digit that takes
them beyond 64 bits, whatever follows; underscores are passed over if allowed. -/
def digits (base : Nat) (underscores : Bool) (n : Nat) : Bytes → Except IntegerError Nat
  | [] => .ok n
  | b :: rest =>
    if underscores && b = 0x5F then digits base underscores n rest
    else
      match digit? base b with
      | none => .error .malformed
      | some d =>
        if n * base + d < range64 then digits base underscores (n * base + d) rest
        else .error .outOfRange

/-- The base that a text shows, how many bytes say so, and the digits. -/
def shownBase : Bytes → Nat × Bytes
  | 0x30 :: x :: d :: rest =>
    let letter := lowerByte x
    if letter = 0x62 then (2, d :: rest)
    else if letter = 0x6F then (8, d :: rest)
    else if letter = 0x78 then (16, d :: rest)
    else (8, x :: d :: rest)
  | 0x30 :: rest => (8, rest)
  | text => (10, text)

/-- Whether every underscore stands between digits; the mark of a base counts as a digit. -/
def underscoresFit (hex : Bool) (after : UInt8) : Bytes → Bool
  | [] => after ≠ 0x5F
  | b :: rest =>
    if (digit? (if hex then 16 else 10) b).isSome then underscoresFit hex 0x30 rest
    else if b = 0x5F then after = 0x30 && underscoresFit hex 0x5F rest
    else after ≠ 0x5F && underscoresFit hex 0x21 rest

/-- Whether the underscores of an unsigned number are well placed. -/
def wellUnderscored : Bytes → Bool
  | 0x30 :: x :: rest =>
    let letter := lowerByte x
    if letter = 0x62 || letter = 0x6F || letter = 0x78 then
      underscoresFit (letter = 0x78) 0x30 rest
    else underscoresFit false 0x5E (0x30 :: x :: rest)
  | text => underscoresFit false 0x5E text

/-- The sign of a number and what follows it. -/
def sign : Bytes → Bool × Bytes
  | 0x2B :: rest => (false, rest)
  | 0x2D :: rest => (true, rest)
  | text => (false, text)

/-- An unsigned number in the base that it shows. -/
def natural (text : Bytes) : Except IntegerError Nat :=
  if text.isEmpty then .error .malformed
  else
    let (base, ds) := shownBase text
    match digits base true 0 ds with
    | .error e => .error e
    | .ok n => if text.any (· = 0x5F) && !wellUnderscored text then .error .malformed else .ok n

/-- An unsigned number in a given base. -/
def naturalIn (base : Nat) (text : Bytes) : Except IntegerError Nat :=
  if text.isEmpty then .error .malformed else digits base false 0 text

/-- A number with its sign, if it fits into 64 bits. -/
def signed (negative : Bool) (n : Nat) : Except IntegerError Int :=
  if negative then
    if n ≤ half64 then .ok (-(n : Int)) else .error .outOfRange
  else if n < half64 then .ok n
  else .error .outOfRange

/-- An integer in base ten. -/
def decimal (text : Bytes) : Except IntegerError Int :=
  let (negative, unsigned) := sign text
  (naturalIn 10 unsigned).bind (signed negative)

/-- An integer in the base that it shows. -/
def parse (text : Bytes) : Except IntegerError Int :=
  let (negative, unsigned) := sign text
  (natural unsigned).bind (signed negative)

/-- The spellings of the truth values. -/
def truth? (text : Bytes) : Option Bool :=
  let yes : List Bytes := ["1", "t", "T", "TRUE", "true", "True"]
  let no : List Bytes := ["0", "f", "F", "FALSE", "false", "False"]
  if yes.contains text then some true
  else if no.contains text then some false
  else none

end Integer

end GrammarCode
