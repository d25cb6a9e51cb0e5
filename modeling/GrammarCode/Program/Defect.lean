import GrammarCode.Program.Basic

/-!
# Defects of a program

A program is consistent when every opcode has an operation, no sequence has a negative count,
every branch names an entry of the table, and every entry lies between zero and the end of the
program. `Program.defects` lists every violation, table entries first, each in index order.
-/

namespace GrammarCode

/-- A violation of consistency. -/
inductive Defect where
  | unresolvedAddress (ref : Nat)
  | addressOutside (ref : Nat) (address : Int) (size : Nat)
  | negativeCount (index : Nat) (count : Int)
  | referenceOutside (index : Nat) (ref : Int)
  | unknownOpcode (index : Nat) (opcode : UInt16)
  deriving DecidableEq, Repr

namespace Defect

/-- The wording of a defect. -/
def message : Defect → Bytes
  | .unresolvedAddress ref => Bytes.cat ["address @", Bytes.decimalNat ref, " is unresolved"]
  | .addressOutside ref address size =>
    Bytes.cat ["address @", Bytes.decimalNat ref, " resolves to ", Bytes.decimal address,
      ", outside [0, ", Bytes.decimalNat size, "]"]
  | .negativeCount index count =>
    Bytes.cat ["instruction ", Bytes.decimalNat index, ": negative sequence count ",
      Bytes.decimal count]
  | .referenceOutside index ref =>
    Bytes.cat ["instruction ", Bytes.decimalNat index, ": branch reference @",
      Bytes.decimal ref, " outside address table"]
  | .unknownOpcode index opcode =>
    Bytes.cat ["instruction ", Bytes.decimalNat index, ": unknown opcode ",
      Bytes.decimalNat opcode.toNat]

/-- Several messages as one report, counted and listed. -/
def report (messages : List Bytes) : Bytes :=
  let items := Bytes.join "\n\t" (messages.map fun m => Bytes.cat ["* ", m])
  if messages.length = 1 then Bytes.cat ["1 error occurred:\n\t", items, "\n\n"]
  else Bytes.cat [Bytes.decimalNat messages.length, " errors occurred:\n\t", items, "\n\n"]

end Defect

namespace Program

/-- The defect of an entry of the address table, if it has one. -/
def entryDefect? (p : Program) (ref : Nat) (address : Int) : Option Defect :=
  if address = unresolved then some (.unresolvedAddress ref)
  else if address < 0 || (p.size : Int) < address then
    some (.addressOutside ref address p.size)
  else none

/-- The defect of an instruction, if it has one. -/
def instructionDefect? (p : Program) (index : Nat) (i : Instruction) : Option Defect :=
  match i.operation? with
  | some .matchPattern => none
  | some .packSequence => if i.count < 0 then some (.negativeCount index i.count) else none
  | some .branchOnSuccess =>
    if i.target < 0 || (p.addresses.size : Int) ≤ i.target then
      some (.referenceOutside index i.target)
    else none
  | none => some (.unknownOpcode index i.opcode)

/-- The items of a list with their positions, counted from `start`. -/
def numbered {α : Type} (start : Nat) : List α → List (Nat × α)
  | [] => []
  | a :: rest => (start, a) :: numbered (start + 1) rest

/-- Every defect of a program. -/
def defects (p : Program) : List Defect :=
  (numbered 0 p.addresses.toList).filterMap (fun e => p.entryDefect? e.1 e.2) ++
    (numbered 0 p.instructions.toList).filterMap (fun e => p.instructionDefect? e.1 e.2)

/-- Whether a program is consistent. -/
def isConsistent (p : Program) : Bool := p.defects.isEmpty

end Program

end GrammarCode
