import GrammarCode.Program.Instruction

/-!
# Programs

A program is a list of instructions, each addressed by its index, and an address table. A
branch names an entry of the table, and the entry holds the address to continue at, so that
all branches of one choice share it. The address equal to the number of instructions is the
end of the program.
-/

namespace GrammarCode

/-- A compiled grammar. -/
structure Program where
  /-- The identifier of the program. -/
  id : Bytes
  /-- The text of the grammar that the program was compiled from. -/
  source : Bytes := []
  instructions : Array Instruction := #[]
  /-- The address table. -/
  addresses : Array Int := #[]
  deriving DecidableEq, Repr, Inhabited

/-- How many instructions of each operation a program has. -/
structure Stats where
  instructions : Nat
  matchings : Nat
  packings : Nat
  branchings : Nat
  addresses : Nat
  deriving DecidableEq, Repr, Inhabited

namespace Program

/-- A table entry whose address is not known. -/
def unresolved : Int := -1

/-- The program with the given parts; an empty identifier is replaced by the fresh one. -/
def make (fresh id source : Bytes) (instructions : Array Instruction) (addresses : Array Int) :
    Program :=
  { id := if id.isEmpty then fresh else id, source, instructions, addresses }

/-- The number of instructions. -/
def size (p : Program) : Nat := p.instructions.size

/-- The instruction at an address, if the address lies in the program. -/
def instruction? (p : Program) (index : Int) : Option Instruction :=
  if index < 0 then none else p.instructions[index.toNat]?

/-- The address that an entry of the table holds, if there is such an entry and it is
resolved. -/
def address? (p : Program) (ref : Int) : Option Int :=
  if ref < 0 then none
  else
    match p.addresses[ref.toNat]? with
    | some a => if a = unresolved then none else some a
    | none => none

/-- Where the instruction at an address continues on success, if it branches and its entry
is resolved. -/
def target? (p : Program) (index : Int) : Option Int :=
  match p.instruction? index with
  | some i =>
    match i.operation? with
    | some .branchOnSuccess => p.address? i.target
    | _ => none
  | none => none

/-- How many instructions have an operation. -/
def countOf (p : Program) (o : Operation) : Nat :=
  p.instructions.toList.countP fun i => i.operation? = some o

/-- The statistics of a program. -/
def stats (p : Program) : Stats where
  instructions := p.size
  matchings := p.countOf .matchPattern
  packings := p.countOf .packSequence
  branchings := p.countOf .branchOnSuccess
  addresses := p.addresses.size

end Program

end GrammarCode
