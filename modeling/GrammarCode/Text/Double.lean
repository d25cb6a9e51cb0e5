import GrammarCode.Text.Integer

/-!
# Binary floating-point numbers

Numbers with a fraction are held in the double format, as a mantissa below `2 ^ 53` times a power
of two. A decimal is rounded to the nearest such number, a half to the even mantissa, in exact
arithmetic; a number is written with the fewest digits that read back as itself.
-/

namespace GrammarCode

/-- A number of the double format; a finite one is `mantissa * 2 ^ exponent`. -/
inductive Double where
  | nan
  | infinite (negative : Bool)
  | finite (negative : Bool) (mantissa : Nat) (exponent : Int)
  deriving DecidableEq, Repr, Inhabited

namespace Double

/-- The exponent of the smallest numbers. -/
def minExponent : Int := -1074

/-- The exponent of the largest numbers. -/
def maxExponent : Int := 971

/-- How many mantissas there are: `2 ^ 53`. -/
def mantissaRange : Nat := 0x20000000000000

/-- A quotient rounded to the nearest whole number, a half to the even one. -/
def roundDiv (a b : Nat) : Nat :=
  if 2 * (a % b) < b || (2 * (a % b) = b && a / b % 2 = 0) then a / b else a / b + 1

/-- The fraction `a / b` divided by `base ^ e`. -/
def scale (base : Nat) (e : Int) (a b : Nat) : Nat × Nat :=
  if 0 ≤ e then (a, b * Nat.pow base e.toNat) else (a * Nat.pow base (-e).toNat, b)

/-- The number nearest to `a / b`. -/
def ofFraction (negative : Bool) (a b : Nat) : Double :=
  if a = 0 then .finite negative 0 minExponent
  else
    let low := max ((a.log2 : Int) - b.log2 - 53) minExponent
    let (c, d) := scale 2 low a b
    let e := if c / d < mantissaRange then low else low + 1
    let (c, d) := scale 2 e a b
    let m := roundDiv c d
    let (m, e) := if m = mantissaRange then (mantissaRange / 2, e + 1) else (m, e)
    if maxExponent < e then .infinite negative else .finite negative m e

/-- A whole number, rounded if it is large. -/
def ofInt (n : Int) : Double := ofFraction (n < 0) n.natAbs 1

/-- Decimals with more digits before or after the point are beyond every finite number. -/
def decimalReach : Int := 400

/-- The number nearest to `digits * 10 ^ exponent`. -/
def ofDecimal (negative : Bool) (digits : Nat) (exponent : Int) : Double :=
  let size : Int := (Bytes.decimalNat digits).length + exponent
  if digits = 0 || size < -decimalReach then .finite negative 0 minExponent
  else if decimalReach < size then .infinite negative
  else
    let (a, b) := scale 10 (-exponent) digits 1
    ofFraction negative a b

/-- Whether a number differs from zero; one that is no number does. -/
def isNonzero : Double → Bool
  | .finite _ m _ => m ≠ 0
  | _ => true

/-- The whole part as an integer of 64 bits with sign; the least one stands for whatever does
not fit. -/
def toInt : Double → Int
  | .finite negative m e =>
    let (a, b) := scale 2 (-e) m 1
    let n : Int := if negative then -(a / b : Nat) else (a / b : Nat)
    if -Integer.half64 ≤ n && n < Integer.half64 then n else -Integer.half64
  | _ => -Integer.half64

/-- How many digits `a / b` has before its point; for a fraction below one tenth, minus the
number of zeros after the point. At most `fuel` zeros are looked at. -/
def magnitude (fuel : Nat) (a b : Nat) : Int :=
  if b ≤ a then (Bytes.decimalNat (a / b)).length
  else
    match fuel with
    | 0 => 0
    | k + 1 => if b ≤ 10 * a then 0 else magnitude k (10 * a) b - 1

/-- The decimals with fewest digits that read back as a positive number, the nearest of them,
searched from `n` digits on. -/
def shortestFrom (x : Double) (a b : Nat) (point : Int) : Nat → Nat → Nat × Int
  | 0, _ => (0, 0)
  | tries + 1, n =>
    let e := point - n
    let (c, d) := scale 10 e a b
    let below := c / d
    let reads (k : Nat) : Bool := ofDecimal false k e = x
    if reads below && (2 * (c % d) ≤ d || !reads (below + 1)) then (below, e)
    else if reads (below + 1) then (below + 1, e)
    else shortestFrom x a b point tries (n + 1)

/-- The digits and the decimal exponent of the shortest text of a positive number. -/
def shortest (m : Nat) (e : Int) : Nat × Int :=
  let (a, b) := scale 2 (-e) m 1
  shortestFrom (.finite false m e) a b (magnitude decimalReach.toNat a b) 17 1

/-- `digits * 10 ^ exponent` written out without an exponent. -/
def positional (digits : Nat) (exponent : Int) : Bytes :=
  let ds := Bytes.decimalNat digits
  if 0 ≤ exponent then ds ++ Bytes.fill 0x30 exponent.toNat
  else
    let places := (-exponent).toNat
    let ds := Bytes.fill 0x30 (places + 1 - ds.length) ++ ds
    let fraction := (ds.drop (ds.length - places)).reverse.dropWhile (· = 0x30)
    let whole := ds.take (ds.length - places)
    if fraction.isEmpty then whole else whole ++ 0x2E :: fraction.reverse

/-- The text of a number: the fewest digits that read back, without an exponent. -/
def text : Double → Bytes
  | .nan => "NaN"
  | .infinite negative => if negative then "-Inf" else "+Inf"
  | .finite negative m e =>
    let unsigned : Bytes :=
      if m = 0 then "0"
      else
        let (digits, exponent) := shortest m e
        positional digits exponent
    if negative then 0x2D :: unsigned else unsigned

end Double

end GrammarCode
