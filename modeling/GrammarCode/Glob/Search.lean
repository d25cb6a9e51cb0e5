import GrammarCode.Files.Host
import GrammarCode.Glob.Pattern

/-!
# Searching for files

A pattern is looked up component by component, from the directory before its first special
character on. Only files are found, except that a path to the directory `.` or `..` stands for
itself.
-/

namespace GrammarCode.Glob

/-- The deepest search, in components. -/
def maxDepth : Nat := 4096

variable {m : Type → Type} [Monad m]

/-- The entries of a directory of one kind. -/
def entriesOf (host : Host m) (dir : Bytes) (kind : EntryKind) : m (List Bytes) := do
  return ((← host.entries dir).filter (·.2 = kind)).map Prod.fst

/-- The files below a directory that components of a pattern match, searched `fuel` deep. -/
def search (host : Host m) : Nat → Bytes → List Bytes → m (List Bytes)
  | 0, _, _ => return []
  | _ + 1, _, [] => return []
  | fuel + 1, dir, c :: rest => do
    let below (names : List Bytes) (components : List Bytes) : m (List Bytes) := do
      return (← names.mapM fun n => search host fuel (Files.join dir n) components).flatten
    if c = [0x2A, 0x2A] then
      let deeper ← below (← entriesOf host dir .directory) (c :: rest)
      if rest.isEmpty then
        return (← entriesOf host dir .file).map (Files.join dir) ++ deeper
      else
        return (← search host fuel dir rest) ++ deeper
    else if rest.isEmpty then
      return ((← entriesOf host dir .file).filter (nameMatches c)).map (Files.join dir)
    else
      below ((← entriesOf host dir .directory).filter (nameMatches c)) rest

/-- Whether a component is a name. -/
def isName (c : Bytes) : Bool := !c.isEmpty && c ≠ [0x2E] && c ≠ [0x2E, 0x2E]

/-- The file that a pattern without special characters names, if it exists. -/
def exact (host : Host m) (base pattern : Bytes) : m (List Bytes) := do
  let path := unescape pattern
  let path := if 1 < path.length && path.getLast? = some 0x2F then path.dropLast else path
  if (Files.components path).all isName then
    let found := Files.join base path
    return if (← host.kind found) = some .file then [found] else []
  else return []

/-- The files that a pattern without alternatives matches in a directory. -/
def inDirectory (host : Host m) (base pattern : Bytes) : m (List Bytes) := do
  if hasMeta pattern then
    let components := Files.components pattern
    let lead := components.takeWhile (!hasMeta ·)
    if lead.all isName then
      let dir := Files.join base (unescape (Bytes.join [0x2F] lead))
      search host maxDepth dir (components.drop lead.length)
    else return []
  else exact host base pattern

/-- The files that a pattern matches, or none at all if the cleaned pattern is malformed. -/
def files (host : Host m) (pattern : Bytes) : m (Option (List Bytes)) := do
  if pattern.isEmpty then return some []
  let path := Files.clean pattern
  let (base, rest) := split path
  if rest.isEmpty || rest = [0x2E] || rest = [0x2E, 0x2E] then
    if !isValid path then return none
    let plain := unescape path
    return some (if (← host.kind plain).isSome then [plain] else [])
  if !isValid rest then return none
  let found ← (expansions rest.length rest).mapM (inDirectory host base)
  return some found.flatten

/-- What is asked about patterns. -/
structure Finder (m : Type → Type) where
  /-- Whether a pattern is well-formed. -/
  isValid : Bytes → Bool
  /-- The files that a pattern matches, or none at all if it turns out to be malformed. -/
  files : Bytes → m (Option (List Bytes))

/-- Patterns by the rules above, and the files of a host. -/
def Finder.standard (host : Host m) : Finder m where
  isValid := Glob.isValid
  files := Glob.files host

end GrammarCode.Glob
