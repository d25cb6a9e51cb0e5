import GrammarCode.Text.Quoted

/-!
# Instructions

An instruction has an opcode and one operand that belongs to it. Opcodes are numbers; three of
them have a meaning. An instruction may carry any opcode and any operands, so that programs from
elsewhere can be represented and judged.
-/

namespace GrammarCode

/-- What an instruction does. -/
inductive Operation where
  /-- Matches a pattern at the current position. -/
  | matchPattern
  /-- Combines the most recent results into one sequence. -/
  | packSequence
  /-- Continues elsewhere if the match before succeeded. -/
  | branchOnSuccess
  deriving DecidableEq, Repr, Inhabited

namespace Operation

/-- The number of an operation. -/
def code : Operation → UInt16
  | .matchPattern => 1
  | .packSequence => 10
  | .branchOnSuccess => 20

/-- The name of an operation. -/
def name : Operation → String
  | .matchPattern => "MATCH"
  | .packSequence => "PACK_SEQUENCE"
  | .branchOnSuccess => "BRANCH_ON_SUCCESS"

/-- How many operands an operation has. -/
def operandCount : Operation → Nat
  | _ => 1

/-- Every operation, by increasing number. -/
def all : List Operation := [.matchPattern, .packSequence, .branchOnSuccess]

/-- The operation of a number. -/
def ofCode? (c : UInt16) : Option Operation := all.find? fun o => o.code = c

/-- The operation of a name. -/
def ofName? (n : Bytes) : Option Operation := all.find? fun o => Bytes.ofString o.name = n

@[simp] theorem ofCode?_code (o : Operation) : ofCode? o.code = some o := by
  cases o <;> decide

@[simp] theorem ofName?_name (o : Operation) : ofName? (Bytes.ofString o.name) = some o := by
  cases o <;> decide

end Operation

/-- The name of an opcode; the same for all that have no operation. -/
def opcodeName (c : UInt16) : String := ((Operation.ofCode? c).map Operation.name).getD "INVALID"

/-- An instruction; only the operand that belongs to its opcode has a meaning. -/
structure Instruction where
  opcode : UInt16
  /-- The text to match. -/
  pattern : Bytes := []
  /-- The number of results to combine. -/
  count : Int := 0
  /-- The entry of the address table that says where to continue. -/
  target : Int := 0
  deriving DecidableEq, Repr, Inhabited

namespace Instruction

/-- The operation of an instruction, if its opcode has one. -/
def operation? (i : Instruction) : Option Operation := Operation.ofCode? i.opcode

/-- The target of instructions that do not branch. -/
def noTarget : Int := -1

/-- Matches a pattern. -/
def matching (pattern : Bytes) : Instruction :=
  { opcode := Operation.matchPattern.code, pattern, target := noTarget }

/-- Combines the `count` most recent results. -/
def packing (count : Int) : Instruction :=
  { opcode := Operation.packSequence.code, count, target := noTarget }

/-- Continues at the address that entry `target` of the table holds. -/
def branching (target : Int) : Instruction :=
  { opcode := Operation.branchOnSuccess.code, target }

/-- A compact text such as `MATCH "a"` or `BRANCH_ON_SUCCESS @0`. -/
def text (i : Instruction) : Bytes :=
  match i.operation? with
  | some .matchPattern =>
    Bytes.cat [Operation.matchPattern.name, " ", Text.quoted i.pattern]
  | some .packSequence =>
    Bytes.cat [Operation.packSequence.name, " ", Bytes.decimal i.count]
  | some .branchOnSuccess =>
    Bytes.cat [Operation.branchOnSuccess.name, " @", Bytes.decimal i.target]
  | none => opcodeName i.opcode

end Instruction

end GrammarCode
