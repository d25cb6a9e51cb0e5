import GrammarCode.Atom.Basic
import GrammarCode.Location
import GrammarCode.Program.Defect

/-!
# Compile errors

A tree is refused because of one of its atoms, and the error says which: its path lists, from
the root, the variant and the index taken at every step.
-/

namespace GrammarCode

/-- One step from an atom to one of its parts. -/
structure Step where
  kind : Kind
  index : Nat
  deriving DecidableEq, Repr

/-- The text of a step, such as `alt[1]`. -/
def Step.text (s : Step) : Bytes := Bytes.cat [s.kind.name, "[", Bytes.decimalNat s.index, "]"]

/-- The steps from an atom up to the root, the last step first. -/
abbrev Path := List Step

/-- The text of a path, from the root down. -/
def Path.text (p : Path) : Bytes := Bytes.join [0x2E] (p.reverse.map Step.text)

/-- Why a tree cannot be compiled. -/
inductive CompileError where
  | unsupportedKind (kind path : Bytes)
  | depthExceeded (limit : Int) (path : Bytes)
  | invalidProgram (cause : Bytes)
  deriving DecidableEq, Repr

namespace CompileError

/-- The code of an error. -/
def code : CompileError → ErrorCode
  | .unsupportedKind _ _ => .unsupportedKind
  | .depthExceeded _ _ => .depthExceeded
  | .invalidProgram _ => .invalidProgram

/-- What is wrong, without the place. -/
def text : CompileError → Bytes
  | .unsupportedKind kind _ => Bytes.cat ["unsupported atom kind ", Text.quoted kind]
  | .depthExceeded limit _ =>
    Bytes.cat ["maximum nesting depth of ", Bytes.decimal limit, " exceeded"]
  | .invalidProgram cause => Bytes.cat ["invalid program: ", cause]

/-- The text of the path to the atom at fault; empty for the root. -/
def path : CompileError → Bytes
  | .unsupportedKind _ path => path
  | .depthExceeded _ path => path
  | .invalidProgram _ => []

/-- The whole message. -/
def message (e : CompileError) : Bytes :=
  Bytes.cat ["compile error: ", e.text,
    if e.path.isEmpty then [] else Bytes.cat [" (at ", e.path, ")"]]

end CompileError

end GrammarCode
