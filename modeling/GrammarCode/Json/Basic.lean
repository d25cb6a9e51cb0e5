import GrammarCode.Text.Utf8

/-!
# JSON values

Objects keep their fields in order and may repeat a name; numbers keep their text, so that
nothing is rounded.
-/

namespace GrammarCode

/-- A JSON value. -/
inductive Json where
  | null
  | bool (b : Bool)
  | number (text : Bytes)
  | string (s : Bytes)
  | array (items : List Json)
  | object (fields : List (Bytes × Json))
  deriving Repr, Inhabited

namespace Json

/-- A whole number. -/
def int (n : Int) : Json := .number (Bytes.decimal n)

/-- Puts a field in its place among fields ordered by name. -/
def insertField (f : Bytes × Json) : List (Bytes × Json) → List (Bytes × Json)
  | [] => [f]
  | g :: rest => if Bytes.before g.1 f.1 then g :: insertField f rest else f :: g :: rest

mutual

/-- A value with the fields of its objects ordered by name. -/
def sorted : Json → Json
  | .array items => .array (sortedItems items)
  | .object fields => .object (sortedFields fields)
  | v => v

/-- Items with the fields of their objects ordered. -/
def sortedItems : List Json → List Json
  | [] => []
  | v :: rest => sorted v :: sortedItems rest

/-- Fields in order, and those of the objects in them. -/
def sortedFields : List (Bytes × Json) → List (Bytes × Json)
  | [] => []
  | (name, v) :: rest => insertField (name, sorted v) (sortedFields rest)

end

end Json

end GrammarCode
