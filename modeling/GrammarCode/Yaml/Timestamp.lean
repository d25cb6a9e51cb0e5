import GrammarCode.Text.Bytes

/-!
# Points in time

A plain scalar may be a date, or a date and a time of day with an optional fraction of a second.
After `T` the distance from universal time follows, as `Z` or as hours and minutes; after blanks
the time is universal.
-/

namespace GrammarCode.Yaml

/-- A date and a time of day at a distance from universal time. -/
structure Timestamp where
  year : Nat
  month : Nat
  day : Nat
  hour : Nat := 0
  minute : Nat := 0
  second : Nat := 0
  /-- The digits of the fraction of a second, at most nine. -/
  fraction : Bytes := []
  /-- Minutes east of universal time. -/
  offset : Int := 0
  deriving DecidableEq, Repr, Inhabited

namespace Timestamp

/-- A decimal digit. -/
def isDigit (b : UInt8) : Bool := 0x30 ≤ b && b ≤ 0x39

/-- The number that digits spell. -/
def value (ds : Bytes) : Nat := ds.foldl (fun n b => n * 10 + (b.toNat - 0x30)) 0

/-- A number of one or two digits, and what follows it. -/
def short? : Bytes → Option (Nat × Bytes)
  | a :: b :: rest =>
    if !isDigit a then none
    else if isDigit b then some (value [a, b], rest)
    else some (value [a], b :: rest)
  | [a] => if isDigit a then some (value [a], []) else none
  | [] => none

/-- What follows a byte at the start of a text. -/
def after? (b : UInt8) : Bytes → Option Bytes
  | x :: rest => if x = b then some rest else none
  | [] => none

/-- A short number in a range, and what follows it. -/
def ranged? (low high : Nat) (text : Bytes) : Option (Nat × Bytes) :=
  (short? text).bind fun r => if low ≤ r.1 && r.1 ≤ high then some r else none

/-- Whether a year has a day more. -/
def isLeap (year : Nat) : Bool := year % 4 = 0 && (year % 100 ≠ 0 || year % 400 = 0)

/-- The days of a month. -/
def daysIn (year month : Nat) : Nat :=
  if month = 2 then (if isLeap year then 29 else 28)
  else if month = 4 || month = 6 || month = 9 || month = 11 then 30
  else 31

/-- A date, and what follows it. -/
def date? (text : Bytes) : Option (Timestamp × Bytes) := do
  let ds := text.takeWhile isDigit
  if ds.length ≠ 4 then none
  let rest ← after? 0x2D (text.drop 4)
  let (month, rest) ← ranged? 1 12 rest
  let rest ← after? 0x2D rest
  let (day, rest) ← ranged? 1 (daysIn (value ds) month) rest
  pure ({ year := value ds, month, day }, rest)

/-- The digits of a fraction after a point or a comma, if there is one. -/
def fractionDigits : Bytes → Bytes × Bytes
  | p :: d :: rest =>
    if (p = 0x2E || p = 0x2C) && isDigit d then
      ((d :: rest).takeWhile isDigit, (d :: rest).dropWhile isDigit)
    else ([], p :: d :: rest)
  | text => ([], text)

/-- A time of day, and what follows it. -/
def time? (date : Timestamp) (text : Bytes) : Option (Timestamp × Bytes) := do
  let (hour, rest) ← ranged? 0 23 text
  let rest ← after? 0x3A rest
  let (minute, rest) ← ranged? 0 59 rest
  let rest ← after? 0x3A rest
  let (second, rest) ← ranged? 0 59 rest
  let (digits, rest) := fractionDigits rest
  pure ({ date with hour, minute, second, fraction := digits.take 9 }, rest)

/-- The minutes east of universal time, written to the end of a text. -/
def zone? : Bytes → Option Int
  | [0x5A] => some 0
  | [sign, a, b, 0x3A, c, d] =>
    let hours := value [a, b]
    let minutes := value [c, d]
    if [a, b, c, d].all isDigit && hours ≤ 24 && minutes ≤ 60 then
      if sign = 0x2B then some (hours * 60 + minutes)
      else if sign = 0x2D then some (-(hours * 60 + minutes : Nat))
      else none
    else none
  | _ => none

/-- The point in time that a text spells. -/
def parse? (text : Bytes) : Option Timestamp := do
  let (date, rest) ← date? text
  match rest with
  | [] => pure date
  | b :: more =>
    if b = 0x54 || b = 0x74 then
      let (t, rest) ← time? date more
      let offset ← zone? rest
      pure { t with offset }
    else if b = 0x20 then
      let (t, rest) ← time? date (more.dropWhile (· = 0x20))
      if rest.isEmpty then pure t else none
    else none

/-- A number with leading zeros. -/
def padded (width n : Nat) : Bytes :=
  let ds := Bytes.decimalNat n
  Bytes.fill 0x30 (width - ds.length) ++ ds

/-- The distance from universal time as a sign and four digits. -/
def offsetText (t : Timestamp) : Bytes :=
  let n := t.offset.natAbs
  (if t.offset < 0 then 0x2D else 0x2B) :: padded 2 (n / 60) ++ padded 2 (n % 60)

/-- The text of a point in time. The zone is named last; only universal time has a name. -/
def text (t : Timestamp) : Bytes :=
  let fraction := (t.fraction.reverse.dropWhile (· = 0x30)).reverse
  Bytes.cat
    [padded 4 t.year, "-", padded 2 t.month, "-", padded 2 t.day, " ",
     padded 2 t.hour, ":", padded 2 t.minute, ":", padded 2 t.second,
     if fraction.isEmpty then [] else 0x2E :: fraction,
     " ", t.offsetText, " ", if t.offset = 0 then "UTC" else t.offsetText]

end Timestamp

end GrammarCode.Yaml
