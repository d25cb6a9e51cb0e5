import GrammarCode.Text.Bytes

/-!
# Paths

A path is a byte string with `/` between its components. `clean` gives the shortest path that
means the same: no empty components, no `.`, and `..` only in front.
-/

namespace GrammarCode.Files

/-- The pieces of a text between separators; there is always at least one. -/
def splitOn (sep : UInt8) : Bytes → List Bytes
  | [] => [[]]
  | b :: rest =>
    if b = sep then [] :: splitOn sep rest
    else
      match splitOn sep rest with
      | piece :: more => (b :: piece) :: more
      | [] => [[b]]

/-- The components of a path, empty ones included. -/
def components (path : Bytes) : List Bytes := splitOn 0x2F path

/-- Whether a path starts at the root. -/
def isAbsolute (path : Bytes) : Bool := path.head? = some 0x2F

/-- One step of cleaning: `kept` holds the components so far, the last first. -/
def keep (absolute : Bool) (kept : List Bytes) (c : Bytes) : List Bytes :=
  if c.isEmpty || c = [0x2E] then kept
  else if c = [0x2E, 0x2E] then
    match kept with
    | [] => if absolute then [] else [c]
    | k :: rest => if k = [0x2E, 0x2E] then c :: kept else rest
  else c :: kept

/-- The shortest path that means the same. -/
def clean (path : Bytes) : Bytes :=
  let absolute := isAbsolute path
  let kept := ((components path).foldl (keep absolute) []).reverse
  let body := Bytes.join [0x2F] kept
  if absolute then 0x2F :: body else if body.isEmpty then [0x2E] else body

/-- Two paths one after the other, cleaned. -/
def join (base path : Bytes) : Bytes :=
  if base.isEmpty then (if path.isEmpty then [] else clean path)
  else if path.isEmpty then clean base
  else clean (base ++ 0x2F :: path)

/-- The extension of a path's last component without its dot; empty if there is none. -/
def suffix (path : Bytes) : Bytes :=
  let last := (components path).getLast?.getD []
  match (splitOn 0x2E last).reverse with
  | ext :: _ :: _ => ext
  | _ => []

end GrammarCode.Files
