import GrammarCode.Text.Bytes

/-!
# What a command needs from outside

A command reads files, lists directories, looks at the environment and at its standard input,
and asks for the time and for identifiers. These come from a host, as actions of some monad, so
that the same command runs on a real system and on a tree of files held in memory.
-/

namespace GrammarCode

/-- Why a file cannot be read. -/
inductive FileError where
  | missing (path : Bytes)
  | notDirectory (path : Bytes)
  | nameTooLong (path : Bytes)
  | invalid (path : Bytes)
  | isDirectory (path : Bytes)
  | other (text : Bytes)
  deriving DecidableEq, Repr

/-- The wording of an error. -/
def FileError.message : FileError → Bytes
  | .missing path => Bytes.cat ["open ", path, ": no such file or directory"]
  | .notDirectory path => Bytes.cat ["open ", path, ": not a directory"]
  | .nameTooLong path => Bytes.cat ["open ", path, ": file name too long"]
  | .invalid path => Bytes.cat ["open ", path, ": invalid argument"]
  | .isDirectory path => Bytes.cat ["read ", path, ": is a directory"]
  | .other text => text

/-- What an entry of a directory is. -/
inductive EntryKind where
  | file
  | directory
  deriving DecidableEq, Repr

/-- The outside world as a command sees it. -/
structure Host (m : Type → Type) where
  /-- The content of a file. -/
  read : Bytes → m (Except FileError Bytes)
  /-- What a path leads to, if it exists. -/
  kind : Bytes → m (Option EntryKind)
  /-- The entries of a directory, if it can be listed. -/
  entries : Bytes → m (List (Bytes × EntryKind))
  /-- The value of a variable of the environment. -/
  environment : Bytes → m (Option Bytes)
  /-- The whole standard input, or the failure that ended it. -/
  input : m (Except Bytes Bytes)
  /-- A new identifier. -/
  freshId : m Bytes
  /-- The time of day. -/
  clock : m Bytes
  /-- The version of the tools that the program was built with. -/
  toolchain : Bytes
  /-- The operating system and the architecture. -/
  platform : Bytes

end GrammarCode
