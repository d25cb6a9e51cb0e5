import GrammarCode.Json.Printer
import GrammarCode.Json.Reader
import GrammarCode.Program.Defect
import GrammarCode.Text.Integer

/-!
# Programs as JSON

A program is written as an object with its identifier, its source if it has one, its
instructions and its address table. Each instruction has the name of its operation and the
operand that belongs to it; a branch also shows the address it resolves to.

Reading is lenient about the form and strict about the content. Names of fields match whatever
their case, unknown fields are passed over, `null` leaves a value as it was, and a field that
comes again is read over the earlier value, item by item for lists. The program that results has
to be consistent.
-/

namespace GrammarCode

namespace Program

/-- An instruction as JSON, with the address that it resolves to. -/
def instructionJson (i : Instruction) (address : Option Int) : Json :=
  .object (("op", .string (opcodeName i.opcode)) ::
    match i.operation? with
    | some .matchPattern => [("pattern", .string i.pattern)]
    | some .packSequence => [("count", .int i.count)]
    | some .branchOnSuccess =>
      ("target", .int i.target) ::
        match address with
        | some a => [("address", .int a)]
        | none => []
    | none => [])

/-- The source of a program as a field, if it has one. -/
def sourceField (p : Program) : List (Bytes × Json) :=
  if p.source.isEmpty then [] else [("source", .string p.source)]

/-- The instructions of a program as JSON. -/
def instructionsJson (p : Program) : List Json :=
  (numbered 0 p.instructions.toList).map fun e => instructionJson e.2 (p.target? e.1)

/-- The code of a program as fields. -/
def codeFields (p : Program) : List (Bytes × Json) :=
  [("instructions", .array p.instructionsJson),
   ("addresses", .array (p.addresses.toList.map .int))]

/-- A program as JSON. -/
def toJson (p : Program) : Json :=
  .object (("id", .string p.id) :: (p.sourceField ++ p.codeFields))

/-- The JSON text of a program on one line. -/
def marshal (p : Program) : Bytes := p.toJson.compact

/-- The JSON text of a program with indentation. -/
def marshalIndented (p : Program) : Bytes := p.toJson.indented .plain 0

end Program

/-- Why a text gives no program. -/
inductive LoadError where
  | notJson
  | wrongType
  | unknownOpcode (index : Nat) (name : Bytes)
  | missingOperand (index : Nat) (operation : Operation)
  | inconsistent (defects : List Defect)
  deriving DecidableEq, Repr

namespace Serial

/-- A list that is being read: the cells that were ever filled, and how many are in use. A
cell that falls out of use keeps its content and shows it when the list grows again. -/
structure Slots (α : Type) where
  cells : List α := []
  used : Nat := 0
  deriving Repr, Inhabited

/-- The cells in use. -/
def Slots.toList {α : Type} (s : Slots α) : List α := s.cells.take s.used

/-- An instruction that is being read. -/
structure InstructionDraft where
  op : Bytes := []
  pattern : Option Bytes := none
  count : Option Int := none
  target : Option Int := none
  address : Option Int := none
  deriving Repr, Inhabited

/-- A program that is being read. -/
structure Draft where
  id : Bytes := []
  source : Bytes := []
  instructions : Slots InstructionDraft := {}
  addresses : Slots Int := {}
  deriving Repr, Inhabited

/-- A character of a field name without its case. Besides the ASCII letters only the long s
and the kelvin sign have a small ASCII letter as their other case. -/
def foldGlyph (g : Glyph) : Bytes :=
  let code := g.shown.toNat
  if 0x41 ≤ code && code ≤ 0x5A then [(code + 0x20).toUInt8]
  else if code = 0x17F then [0x73]
  else if code = 0x212A then [0x6B]
  else String.utf8EncodeChar g.shown

/-- A field name without its case. -/
def foldName (name : Bytes) : Bytes := (Utf8.glyphs name).flatMap foldGlyph

/-- The value of a run of digits that follows `acc`. -/
def digitsValue (acc : Nat) (ds : Bytes) : Nat :=
  ds.foldl (fun n b => n * 10 + (b.toNat - 0x30)) acc

/-- The whole number that a JSON number spells without fraction and exponent, if it fits into
64 bits. -/
def int64? (text : Bytes) : Option Int :=
  match text with
  | 0x2D :: ds =>
    let n := digitsValue 0 ds
    if ds.all Json.isDigit && n ≤ Integer.half64 then some (-(n : Int)) else none
  | ds =>
    let n := digitsValue 0 ds
    if ds.all Json.isDigit && n < Integer.half64 then some (n : Int) else none

/-- Reads a text over an earlier one. -/
def text? (old : Bytes) : Json → Option Bytes
  | .string s => some s
  | .null => some old
  | _ => none

/-- Reads a whole number over an earlier one. -/
def number? (old : Int) : Json → Option Int
  | .number t => int64? t
  | .null => some old
  | _ => none

/-- Reads an operand that may be absent; `null` takes it away. -/
def operand? {α : Type} (read : α → Json → Option α) (zero : α) (old : Option α) :
    Json → Option (Option α)
  | .null => some none
  | v => (read (old.getD zero) v).map some

/-- Reads the items of a list over the cells that are there. -/
def cells? {α : Type} (read : α → Json → Option α) (zero : α) :
    List α → List Json → Option (List α)
  | cells, [] => some cells
  | [], v :: vs => do
    let c ← read zero v
    let rest ← cells? read zero [] vs
    pure (c :: rest)
  | c :: cs, v :: vs => do
    let c ← read c v
    let rest ← cells? read zero cs vs
    pure (c :: rest)

/-- Reads a list over an earlier one; `null` and the empty list start anew. -/
def list? {α : Type} (read : α → Json → Option α) (zero : α) (old : Slots α) :
    Json → Option (Slots α)
  | .null => some {}
  | .array [] => some {}
  | .array vs => (cells? read zero old.cells vs).map fun cs => { cells := cs, used := vs.length }
  | _ => none

/-- Reads one field of an instruction. -/
def instructionField? (d : InstructionDraft) (f : Bytes × Json) : Option InstructionDraft :=
  let name := foldName f.1
  if name = ("op" : Bytes) then (text? d.op f.2).map fun x => { d with op := x }
  else if name = ("pattern" : Bytes) then
    (operand? text? [] d.pattern f.2).map fun x => { d with pattern := x }
  else if name = ("count" : Bytes) then
    (operand? number? 0 d.count f.2).map fun x => { d with count := x }
  else if name = ("target" : Bytes) then
    (operand? number? 0 d.target f.2).map fun x => { d with target := x }
  else if name = ("address" : Bytes) then
    (operand? number? 0 d.address f.2).map fun x => { d with address := x }
  else some d

/-- Reads an instruction over an earlier one. -/
def instruction? (d : InstructionDraft) : Json → Option InstructionDraft
  | .object fields => fields.foldlM instructionField? d
  | .null => some d
  | _ => none

/-- Reads one field of a program. -/
def field? (d : Draft) (f : Bytes × Json) : Option Draft :=
  let name := foldName f.1
  if name = ("id" : Bytes) then (text? d.id f.2).map fun x => { d with id := x }
  else if name = ("source" : Bytes) then (text? d.source f.2).map fun x => { d with source := x }
  else if name = ("instructions" : Bytes) then
    (list? instruction? {} d.instructions f.2).map fun x => { d with instructions := x }
  else if name = ("addresses" : Bytes) then
    (list? number? 0 d.addresses f.2).map fun x => { d with addresses := x }
  else some d

/-- Reads a program from a JSON value. -/
def draft? : Json → Option Draft
  | .object fields => fields.foldlM field? {}
  | .null => some {}
  | _ => none

/-- The instruction that a draft describes. -/
def finish (index : Nat) (d : InstructionDraft) : Except LoadError Instruction :=
  match Operation.ofName? d.op with
  | none => .error (.unknownOpcode index d.op)
  | some .matchPattern =>
    match d.pattern with
    | some p => .ok (.matching p)
    | none => .error (.missingOperand index .matchPattern)
  | some .packSequence =>
    match d.count with
    | some n => .ok (.packing n)
    | none => .error (.missingOperand index .packSequence)
  | some .branchOnSuccess =>
    match d.target with
    | some t => .ok (.branching t)
    | none => .error (.missingOperand index .branchOnSuccess)

/-- The instructions that drafts describe; the first that is incomplete counts. -/
def finishAll (index : Nat) : List InstructionDraft → Except LoadError (List Instruction)
  | [] => .ok []
  | d :: rest => do
    let i ← finish index d
    let is ← finishAll (index + 1) rest
    pure (i :: is)

end Serial

namespace LoadError

/-- The operand that an operation cannot do without. -/
def operandName : Operation → String
  | .matchPattern => "pattern"
  | .packSequence => "count"
  | .branchOnSuccess => "target"

/-- The wording of an error. -/
def message : LoadError → Bytes
  | .notJson => "not a JSON text"
  | .wrongType => "a value has the wrong type"
  | .unknownOpcode index name =>
    Bytes.cat ["instruction ", Bytes.decimalNat index, ": unknown opcode ", Text.quoted name]
  | .missingOperand index o =>
    Bytes.cat ["instruction ", Bytes.decimalNat index, ": ", o.name, " requires a ",
      operandName o]
  | .inconsistent ds => Defect.report (ds.map Defect.message)

end LoadError

/-- The program that a JSON text describes, if the text is complete and the program
consistent; a missing identifier is replaced by the fresh one. -/
def Program.unmarshal (fresh text : Bytes) : Except LoadError Program :=
  match Json.parse? text with
  | none => .error .notJson
  | some v =>
    match Serial.draft? v with
    | none => .error .wrongType
    | some d =>
      match Serial.finishAll 0 d.instructions.toList with
      | .error e => .error e
      | .ok is =>
        let p := Program.make fresh d.id d.source is.toArray d.addresses.toList.toArray
        if p.isConsistent then .ok p else .error (.inconsistent p.defects)

end GrammarCode
