import GrammarCode.Files.Host
import GrammarCode.Files.Path

/-!
# Trees of files in memory

A directory holds named entries, each a file or a directory. The root of a tree is the working
directory; the world around it is an empty directory, where absolute paths start.
-/

namespace GrammarCode

/-- A file with its content, or a directory with its entries. -/
inductive FileTree where
  | file (content : Bytes)
  | directory (entries : List (Bytes × FileTree))
  deriving Repr, Inhabited

namespace FileTree

/-- The kind of a tree's root. -/
def kind : FileTree → EntryKind
  | .file _ => .file
  | .directory _ => .directory

/-- The longest name of a file. -/
def maxName : Nat := 255

/-- The longest path. -/
def maxPath : Nat := 4095

/-- Why a path leads nowhere. -/
inductive Dead where
  | missing
  | notDirectory
  | nameTooLong
  deriving DecidableEq, Repr

/-- Follows components from the innermost of the open directories. -/
def follow : List FileTree → List Bytes → Except Dead FileTree
  | [], _ => .error .missing
  | here :: _, [] => .ok here
  | here :: outer, c :: rest =>
    match here with
    | .file _ => .error .notDirectory
    | .directory entries =>
      if c.isEmpty || c = [0x2E] then follow (here :: outer) rest
      else if c = [0x2E, 0x2E] then
        match outer with
        | [] => follow [here] rest
        | up :: more => follow (up :: more) rest
      else if maxName < c.length then .error .nameTooLong
      else
        match entries.lookup c with
        | some t => follow (t :: here :: outer) rest
        | none => .error .missing

/-- What a path leads to. -/
def resolve (t : FileTree) (path : Bytes) : Except Dead FileTree :=
  let outside := FileTree.directory []
  if path.isEmpty then .error .missing
  else if maxPath < path.length then .error .nameTooLong
  else follow (if Files.isAbsolute path then [outside] else [t, outside]) (Files.components path)

/-- The content of the file that a path leads to. -/
def read (t : FileTree) (path : Bytes) : Except FileError Bytes :=
  if path.any (· = 0) then .error (.invalid path)
  else
    match t.resolve path with
    | .ok (.file content) => .ok content
    | .ok (.directory _) => .error (.isDirectory path)
    | .error .missing => .error (.missing path)
    | .error .notDirectory => .error (.notDirectory path)
    | .error .nameTooLong => .error (.nameTooLong path)

/-- The kind of what a path leads to. -/
def kind? (t : FileTree) (path : Bytes) : Option EntryKind := (t.resolve path).toOption.map kind

/-- The entries of the directory that a path leads to. -/
def list (t : FileTree) (path : Bytes) : List (Bytes × EntryKind) :=
  match t.resolve path with
  | .ok (.directory entries) => entries.map fun e => (e.1, e.2.kind)
  | _ => []

/-- The entries with the one of this name replaced, or a new one added. -/
def put (entries : List (Bytes × FileTree)) (name : Bytes) (t : FileTree) :
    List (Bytes × FileTree) :=
  match entries with
  | [] => [(name, t)]
  | e :: rest => if e.1 = name then (name, t) :: rest else e :: put rest name t

/-- Puts a tree at the end of some components, making directories on the way. -/
def insert (t : FileTree) (leaf : FileTree) : List Bytes → FileTree
  | [] => leaf
  | c :: rest =>
    let entries :=
      match t with
      | .directory es => es
      | .file _ => []
    .directory (put entries c (insert ((entries.lookup c).getD (.directory [])) leaf rest))

/-- Puts a file at a path, or an empty directory if the path ends with `/`. -/
def add (t : FileTree) (path content : Bytes) : FileTree :=
  let components := (Files.components path).filter (!·.isEmpty)
  t.insert (if path.getLast? = some 0x2F then .directory [] else .file content) components

end FileTree

end GrammarCode
