import GrammarCode.Program.Basic
import GrammarCode.Table
import GrammarCode.Text.Screen

/-!
# Listings

A listing shows every instruction of a program with its offset, the name of its operation, its
operand and, for a branch, where it leads. Printed, it is a table; long operands are cut at a
boundary between characters and marked with dots.
-/

namespace GrammarCode

/-- One line of a listing. -/
structure ListingLine where
  offset : Int := 0
  name : Bytes := []
  opcode : UInt16 := 0
  operands : List Bytes := []
  annotation : Bytes := []
  deriving DecidableEq, Repr, Inhabited

/-- Why a program has no listing. -/
inductive ListingError where
  | unknownOpcode (opcode : UInt16) (offset : Nat)
  | unresolvedTarget (ref : Int) (offset : Nat)
  deriving DecidableEq, Repr

/-- The wording of an error. -/
def ListingError.message : ListingError → Bytes
  | .unknownOpcode opcode offset =>
    Bytes.cat ["unknown opcode ", Bytes.decimalNat opcode.toNat, " at offset ",
      Bytes.decimalNat offset]
  | .unresolvedTarget ref offset =>
    Bytes.cat ["unresolved branch target @", Bytes.decimal ref, " at offset ",
      Bytes.decimalNat offset]

namespace Program

/-- Where a branch leads, as it is shown. -/
def arrow (size : Nat) (target : Int) : Bytes :=
  Bytes.cat ["-> ", Bytes.decimal target, if target = size then " (end)" else []]

/-- The line of the instruction at an offset. -/
def listingLine (p : Program) (offset : Nat) (i : Instruction) :
    Except ListingError ListingLine :=
  match i.operation? with
  | none => .error (.unknownOpcode i.opcode offset)
  | some .matchPattern =>
    .ok { offset, name := Operation.matchPattern.name, opcode := i.opcode,
          operands := [Text.quoted i.pattern] }
  | some .packSequence =>
    .ok { offset, name := Operation.packSequence.name, opcode := i.opcode,
          operands := [Bytes.decimal i.count] }
  | some .branchOnSuccess =>
    match p.address? i.target with
    | none => .error (.unresolvedTarget i.target offset)
    | some target =>
      .ok { offset, name := Operation.branchOnSuccess.name, opcode := i.opcode,
            operands := [Bytes.cat ["@", Bytes.decimal i.target]],
            annotation := arrow p.size target }

/-- The lines of the instructions from an offset on. -/
def listingFrom (p : Program) (offset : Nat) :
    List Instruction → Except ListingError (List ListingLine)
  | [] => .ok []
  | i :: rest =>
    match p.listingLine offset i with
    | .error e => .error e
    | .ok line =>
      match p.listingFrom (offset + 1) rest with
      | .error e => .error e
      | .ok lines => .ok (line :: lines)

/-- The listing of a program; the first instruction that cannot be shown counts. -/
def listing (p : Program) : Except ListingError (List ListingLine) :=
  p.listingFrom 0 p.instructions.toList

end Program

namespace Listing

/-- The widest operand that is shown in full. -/
def maxOperandColumns : Nat := 40

/-- The colour of operands by operation. -/
def operandColour (opcode : UInt16) : Text.Attribute :=
  match Operation.ofCode? opcode with
  | some .matchPattern => .green
  | some .branchOnSuccess => .brightYellow
  | _ => .yellow

section Layout

variable (screen : Text.Screen)

/-- The longest beginning of a list of clusters that takes at most `limit` columns. -/
def fitting (limit : Nat) : List Bytes → List Bytes
  | [] => []
  | c :: rest =>
    if screen.columns c ≤ limit then c :: fitting (limit - screen.columns c) rest else []

/-- A text cut to at most `width` columns; a cut is marked with three dots. -/
def truncate (s : Bytes) (width : Nat) : Bytes :=
  if screen.columns s ≤ width then s
  else (fitting screen (width - 3) (screen.clusters s)).flatten ++ "..."

/-- The operands of a line with commas between them. -/
def operandsCell (colour : Bool) (l : ListingLine) : Bytes :=
  Bytes.join ", " (l.operands.map fun o =>
    screen.paint colour [operandColour l.opcode] (truncate screen o maxOperandColumns))

/-- The cells of a line. -/
def cells (colour : Bool) (l : ListingLine) : List Bytes :=
  [Bytes.decimal l.offset,
   screen.paint colour [.bold] l.name,
   operandsCell screen colour l,
   if l.annotation.isEmpty then [] else screen.paint colour [.brightCyan] l.annotation]

/-- The table of a listing. -/
def table (colour : Bool) (ls : List ListingLine) : Table where
  header := ["OFFSET", "OPCODE", "OPERANDS", "INFO"]
  rows := ls.map (cells screen colour)
  rowAlignment := [.right, .left, .right, .left]
  headerAlignment := [.centre, .centre, .centre, .centre]

end Layout

/-- The printed listing. -/
def print (colour : Bool) (ls : List ListingLine) (screen : Text.Screen := .standard) : Bytes :=
  (table screen colour ls).render screen.columns

end Listing

end GrammarCode
