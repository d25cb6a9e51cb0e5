import GrammarCode.Json.Basic
import GrammarCode.Text.Quoted
import GrammarCode.Yaml.Scalar

/-!
# Values of settings

A setting comes from the command line, the environment or a configuration file, and has
whatever type it was written with there. Whoever uses it asks for an integer, a truth value or a
text, and the value is taken as that type as far as it can be: a text that spells no integer
counts as zero, and collections count as zero, false and empty.
-/

namespace GrammarCode

namespace Settings

/-- A value as it was written. -/
inductive Value where
  | null
  | truth (b : Bool)
  | integer (n : Int)
  | real (x : Double)
  | instant (text : Bytes)
  | text (t : Bytes)
  | list (items : List Value)
  | table (entries : List (Value × Value))
  deriving BEq, Repr, Inhabited

namespace Value

/-- The value of a scalar. -/
def ofScalar : Yaml.Scalar → Value
  | .null => .null
  | .truth b => .truth b
  | .integer n => .integer n
  | .real x => .real x
  | .instant t => .instant t.text
  | .text t => .text t

/-- Takes a point and the zeros after it from the end of a number; the text is given in
reverse. -/
def dropZeroFraction (seen : Bool) : Bytes → Option Bytes
  | [] => none
  | b :: rest =>
    if b = 0x2E then if seen then some rest else dropZeroFraction seen rest
    else if b = 0x30 then dropZeroFraction true rest
    else none

/-- A number without a fraction that is zero. -/
def withoutZeroFraction (t : Bytes) : Bytes :=
  match dropZeroFraction false t.reverse with
  | some rest => rest.reverse
  | none => t

/-- The value as an integer of 64 bits with sign. -/
def toInt : Value → Int
  | .truth b => if b then 1 else 0
  | .integer n => Integer.wrap64 n
  | .real x => x.toInt
  | .text t =>
    match Integer.parse (withoutZeroFraction t) with
    | .ok n => n
    | .error _ => 0
  | _ => 0

/-- The value as a truth value. -/
def toBool : Value → Bool
  | .truth b => b
  | .integer n => n ≠ 0
  | .real x => x.isNonzero
  | .text t => (Integer.truth? t).getD false
  | _ => false

/-- The value as a text. -/
def toText : Value → Bytes
  | .truth b => if b then "true" else "false"
  | .integer n => Bytes.decimal n
  | .real x => x.text
  | .instant t => t
  | .text t => t
  | _ => []

mutual

/-- The value as messages spell it out. -/
def spelled : Value → Bytes
  | .null => "interface \x7b\x7d(nil)"
  | .truth b => if b then "true" else "false"
  | .integer n => Bytes.decimal n
  | .real x => x.text
  | .instant t => t
  | .text t => Text.quoted t
  | .list items => Bytes.cat ["[]interface \x7b\x7d\x7b", spelledItems items, "\x7d"]
  | .table entries =>
    Bytes.cat ["map[string]interface \x7b\x7d\x7b", spelledEntries entries, "\x7d"]

/-- Items with commas between them. -/
def spelledItems : List Value → Bytes
  | [] => []
  | v :: rest => spelled v ++ (if rest.isEmpty then [] else 0x2C :: 0x20 :: spelledItems rest)

/-- Entries with commas between them. -/
def spelledEntries : List (Value × Value) → Bytes
  | [] => []
  | (k, v) :: rest =>
    spelled k ++ 0x3A :: spelled v
      ++ (if rest.isEmpty then [] else 0x2C :: 0x20 :: spelledEntries rest)

end

end Value

/-- The name of a setting without case. Besides the ASCII letters only the kelvin sign and the
dotted capital i have a small ASCII letter. -/
def lowerName (name : Bytes) : Bytes :=
  (Utf8.glyphs name).flatMap fun g =>
    let code := g.shown.toNat
    if 0x41 ≤ code && code ≤ 0x5A then [(code + 0x20).toUInt8]
    else if code = 0x212A then [0x6B]
    else if code = 0x130 then [0x69]
    else g.bytes

/-- Settings by name. -/
abbrev Config := List (Bytes × Value)

/-- Puts a value under a name. -/
def Config.insert (c : Config) (name : Bytes) (v : Value) : Config :=
  (name, v) :: c.filter (·.1 ≠ name)

/-- The settings with their names in lower case; of two names that become one, the one that was
not in lower case counts. -/
def Config.lowered (entries : Config) : Config :=
  let (lower, other) := entries.partition fun e => lowerName e.1 = e.1
  other.foldl (fun c e => Config.insert c (lowerName e.1) e.2) lower

/-- The value of a setting; null is none. -/
def Config.get? (c : Config) (name : Bytes) : Option Value :=
  match c.lookup name with
  | some .null | none => none
  | some v => some v

end Settings

end GrammarCode
