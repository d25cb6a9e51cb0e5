import GrammarCode.Json.Basic

/-!
# Writing JSON

A value is written on one line or with one field or item a line, indented by two spaces a
level. Inside strings the characters `<`, `>`, `&`, U+2028 and U+2029 are escaped as well, so
that the text can stand inside markup; a byte that is no UTF-8 is written as U+FFFD.
-/

namespace GrammarCode

namespace Json

/-- `\u` and four hexadecimal digits. -/
def unicodeEscape (code : Nat) : Bytes := 0x5C :: 0x75 :: Bytes.hex 4 code

/-- The characters that could end or open markup. -/
def isMarkup (code : Nat) : Bool := code = 0x3C || code = 0x3E || code = 0x26

/-- One item of a string as it stands between the quotes; `markup` says whether the markup
characters are escaped. -/
def stringItem (markup : Bool) (g : Glyph) : Bytes :=
  let code := g.shown.toNat
  match code with
  | 0x22 => [0x5C, 0x22]
  | 0x5C => [0x5C, 0x5C]
  | 0x08 => [0x5C, 0x62]
  | 0x0C => [0x5C, 0x66]
  | 0x0A => [0x5C, 0x6E]
  | 0x0D => [0x5C, 0x72]
  | 0x09 => [0x5C, 0x74]
  | _ =>
    if code < 0x20 || (markup && isMarkup code) || code = 0x2028 || code = 0x2029 then
      unicodeEscape code
    else String.utf8EncodeChar g.shown

/-- A string between quotes. -/
def stringText (markup : Bool) (s : Bytes) : Bytes :=
  0x22 :: (Utf8.glyphs s).flatMap (stringItem markup) ++ [0x22]

mutual

/-- A value on one line without spaces. -/
def compact : Json → Bytes
  | .null => "null"
  | .bool true => "true"
  | .bool false => "false"
  | .number text => text
  | .string s => stringText true s
  | .array items => 0x5B :: compactItems items ++ [0x5D]
  | .object fields => 0x7B :: compactFields fields ++ [0x7D]

/-- The items of an array with commas between them. -/
def compactItems : List Json → Bytes
  | [] => []
  | v :: rest => compact v ++ (if rest.isEmpty then [] else 0x2C :: compactItems rest)

/-- The fields of an object with commas between them. -/
def compactFields : List (Bytes × Json) → Bytes
  | [] => []
  | (name, v) :: rest =>
    stringText true name ++ 0x3A :: compact v
      ++ (if rest.isEmpty then [] else 0x2C :: compactFields rest)

end

/-- How the parts of a value are shown in the indented form. -/
structure Look where
  name : Bytes → Bytes
  string : Bytes → Bytes
  number : Bytes → Bytes

/-- The plain look. -/
def Look.plain : Look where
  name := stringText true
  string := stringText true
  number := id

/-- A new line at a level. -/
def newline (level : Nat) : Bytes := 0x0A :: Bytes.fill 0x20 (2 * level)

mutual

/-- A value with its parts on lines of their own, standing at a level. -/
def indented (look : Look) (level : Nat) : Json → Bytes
  | .null => "null"
  | .bool true => "true"
  | .bool false => "false"
  | .number text => look.number text
  | .string s => look.string s
  | .array items =>
    if items.isEmpty then "[]"
    else 0x5B :: indentedItems look (level + 1) items ++ newline level ++ [0x5D]
  | .object fields =>
    if fields.isEmpty then [0x7B, 0x7D]
    else 0x7B :: indentedFields look (level + 1) fields ++ newline level ++ [0x7D]

/-- The items of an array, each on a new line. -/
def indentedItems (look : Look) (level : Nat) : List Json → Bytes
  | [] => []
  | v :: rest =>
    newline level ++ indented look level v
      ++ (if rest.isEmpty then [] else 0x2C :: indentedItems look level rest)

/-- The fields of an object, each on a new line. -/
def indentedFields (look : Look) (level : Nat) : List (Bytes × Json) → Bytes
  | [] => []
  | (name, v) :: rest =>
    newline level ++ look.name name ++ 0x3A :: 0x20 :: indented look level v
      ++ (if rest.isEmpty then [] else 0x2C :: indentedFields look level rest)

end

end Json

end GrammarCode
