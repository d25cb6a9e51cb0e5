import GrammarCode.Text.Base64
import GrammarCode.Text.Double
import GrammarCode.Text.Integer
import GrammarCode.Yaml.Timestamp

/-!
# The types of scalars

A plain scalar has the type that its spelling shows: null, a truth value, a whole number, a
number with a fraction, a point in time, or else a text. A tag asks for a type; a scalar whose
spelling shows another one is refused, except that a whole number may stand for any number.
-/

namespace GrammarCode.Yaml

/-- The tags of the standard types. -/
def standardTag (name : String) : Bytes := Bytes.cat ["!!", name]

/-- A tag in its short form: the standard types are written with `!!`. -/
def shortTag (tag : Bytes) : Bytes :=
  let long : Bytes := "tag:yaml.org,2002:"
  if long.isPrefixOf tag then standardTag "" ++ tag.drop long.length else tag

/-- What a scalar stands for. -/
inductive Scalar where
  | null
  | truth (b : Bool)
  | integer (n : Int)
  | real (x : Double)
  | instant (t : Timestamp)
  | text (t : Bytes)
  deriving DecidableEq, Repr, Inhabited

namespace Scalar

/-- The tag of a scalar's type. -/
def tag : Scalar → Bytes
  | .null => standardTag "null"
  | .truth _ => standardTag "bool"
  | .integer _ => standardTag "int"
  | .real _ => standardTag "float"
  | .instant _ => standardTag "timestamp"
  | .text _ => standardTag "str"

/-- The scalars that have fixed spellings. -/
def word? (text : Bytes) : Option Scalar :=
  let isOne (spellings : List String) : Bool := spellings.any fun s => text = (s : Bytes)
  if isOne ["", "~", "null", "Null", "NULL"] then some .null
  else if isOne ["true", "True", "TRUE"] then some (.truth true)
  else if isOne ["false", "False", "FALSE"] then some (.truth false)
  else if isOne [".nan", ".NaN", ".NAN"] then some (.real .nan)
  else if isOne [".inf", ".Inf", ".INF", "+.inf", "+.Inf", "+.INF"] then
    some (.real (.infinite false))
  else if isOne ["-.inf", "-.Inf", "-.INF"] then some (.real (.infinite true))
  else none

/-- Digits without leading zeros. -/
def significant (ds : Bytes) : Bytes := ds.dropWhile (· = 0x30)

/-- The number that the digits of an exponent spell; one of very many digits is only known to
be large. -/
def exponentValue (ds : Bytes) : Nat :=
  if 18 < (significant ds).length then 1000000000000000000 else Timestamp.value ds

/-- An exponent to the end of a text; there may be none. -/
def exponent? : Bytes → Option Int
  | [] => some 0
  | e :: rest =>
    if e = 0x65 || e = 0x45 then
      let (negative, ds) := Integer.sign rest
      if ds.isEmpty || !ds.all Timestamp.isDigit then none
      else some (if negative then -(exponentValue ds : Int) else exponentValue ds)
    else none

/-- More digits than a number can depend on. -/
def maxDigits : Nat := 800

/-- The number nearest to digits times a power of ten. Of the digits beyond `maxDigits` it only
matters whether they are all zero. -/
def ofDigits (negative : Bool) (ds : Bytes) (exponent : Int) : Double :=
  let ds := significant ds
  let beyond := ds.drop maxDigits
  if beyond.isEmpty then Double.ofDecimal negative (Timestamp.value ds) exponent
  else
    let last : UInt8 := if beyond.all (· = 0x30) then 0x30 else 0x31
    Double.ofDecimal negative (Timestamp.value (ds.take maxDigits ++ [last]))
      (exponent + beyond.length - 1)

/-- A decimal with an optional sign, point and exponent, if it is in the range of numbers. -/
def decimal? (text : Bytes) : Option Double := do
  let (negative, unsigned) := Integer.sign text
  let whole := unsigned.takeWhile Timestamp.isDigit
  let rest := unsigned.dropWhile Timestamp.isDigit
  let (places, rest) :=
    match rest with
    | 0x2E :: more => (more.takeWhile Timestamp.isDigit, more.dropWhile Timestamp.isDigit)
    | _ => ([], rest)
  let exponent ← exponent? rest
  if whole.isEmpty && places.isEmpty then none
  match ofDigits negative (whole ++ places) (exponent - places.length) with
  | .infinite _ => none
  | x => pure x

/-- A whole number of 64 bits, with or without sign, in the base that it shows. -/
def integer? (text : Bytes) : Option Int :=
  match Integer.parse text, Integer.natural text with
  | .ok n, _ => some n
  | .error _, .ok n => some n
  | .error _, .error _ => none

/-- A whole number whose sign follows the mark of its base. -/
def markedInteger? (text : Bytes) : Option Int :=
  let read (base : Nat) (digits : Bytes) : Option Int :=
    let (negative, unsigned) := Integer.sign digits
    ((Integer.naturalIn base unsigned).bind (Integer.signed negative)).toOption
  match text with
  | 0x30 :: 0x62 :: digits => read 2 digits
  | 0x30 :: 0x6F :: digits => read 8 digits
  | _ => none

/-- A number or a point in time that starts with a digit or a sign. -/
def numeric? (instants : Bool) (text : Bytes) : Option Scalar :=
  let plain := text.filter (· ≠ 0x5F)
  let instant := if instants then (Timestamp.parse? text).map Scalar.instant else none
  instant <|> (integer? plain).map .integer <|> (decimal? plain).map .real
    <|> (markedInteger? plain).map .integer

/-- A decimal that starts with its point; underscores may stand between digits. -/
def pointed? (text : Bytes) : Option Scalar :=
  if text.any (· = 0x5F) && !Integer.wellUnderscored text then none
  else (decimal? (text.filter (· ≠ 0x5F))).map .real

/-- The scalar that a plain text stands for; `instants` says whether points in time count. -/
def ofPlain (instants : Bool) (t : Bytes) : Scalar :=
  let found : Option Scalar :=
    match t with
    | [] => some .null
    | b :: _ =>
      word? t <|>
        if Timestamp.isDigit b || b = 0x2B || b = 0x2D then numeric? instants t
        else if b = 0x2E then pointed? t
        else none
  found.getD (.text t)

/-- Why a scalar does not have the type that its tag asks for. -/
inductive Mismatch where
  | type (found text wanted : Bytes)
  | binary
  deriving DecidableEq, Repr

/-- The scalar that a text with a tag stands for. Tags that are none of the standard types ask
for a text. -/
def ofTagged (wanted t : Bytes) : Except Mismatch Scalar :=
  if wanted = standardTag "binary" then
    match Text.Base64.decode? t with
    | some b => .ok (.text b)
    | none => .error .binary
  else if [Scalar.null, .truth true, .integer 0, .real .nan, .instant default].any
      (·.tag = wanted) then
    let found := ofPlain (wanted = (Scalar.instant default).tag) t
    if found.tag = wanted then .ok found
    else
      match found with
      | .integer n =>
        if wanted = (Scalar.real .nan).tag && n < Integer.half64 then .ok (.real (Double.ofInt n))
        else .error (.type found.tag t wanted)
      | _ => .error (.type found.tag t wanted)
  else .ok (.text t)

end Scalar

end GrammarCode.Yaml
