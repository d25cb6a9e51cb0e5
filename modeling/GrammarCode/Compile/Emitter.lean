import GrammarCode.Compile.Error

/-!
# Emission

Code is emitted in one pass over the tree, depth first and from left to right. A choice takes
an entry of the address table before its first part, lets every branch refer to it, and
resolves it when its last branch stands. An entry is resolved at most once; the emitter refuses
anything else.
-/

namespace GrammarCode

/-- The code emitted so far. -/
structure Emitter where
  instructions : Array Instruction := #[]
  addresses : Array Int := #[]
  deriving DecidableEq, Repr, Inhabited

/-- Why emission stops: the tree is at fault, or the emitter broke its own rule. -/
inductive EmitFailure where
  | refused (e : CompileError)
  | misresolved (ref : Nat)
  deriving DecidableEq, Repr

namespace Emitter

/-- Appends an instruction. -/
def emit (e : Emitter) (i : Instruction) : Emitter :=
  { e with instructions := e.instructions.push i }

/-- The entry that the next allocation takes. -/
def nextRef (e : Emitter) : Nat := e.addresses.size

/-- Takes a table entry whose address is not known yet. -/
def allocate (e : Emitter) : Emitter :=
  { e with addresses := e.addresses.push Program.unresolved }

/-- Sets an entry to the address of the next instruction; only an entry of the table that is
still unresolved can be set. -/
def resolve (e : Emitter) (ref : Nat) : Except EmitFailure Emitter :=
  if e.addresses[ref]? = some Program.unresolved then
    .ok { e with addresses := e.addresses.setIfInBounds ref e.instructions.size }
  else .error (.misresolved ref)

/-- Whether an atom at the end of a path is too deep for a limit; a limit below one is none. -/
def tooDeep (limit : Int) (path : Path) : Bool := 0 < limit && limit ≤ (path.length : Int)

mutual

/-- Emits the code of an atom at the end of a path. -/
def atom (limit : Int) (path : Path) (e : Emitter) : Atom → Except EmitFailure Emitter
  | .literal pattern =>
    if tooDeep limit path then .error (.refused (.depthExceeded limit path.text))
    else .ok (e.emit (.matching pattern))
  | .sequence parts =>
    if tooDeep limit path then .error (.refused (.depthExceeded limit path.text))
    else
      match sequenceParts limit path e 0 parts with
      | .ok e' => .ok (e'.emit (.packing parts.length))
      | .error f => .error f
  | .choice parts =>
    if tooDeep limit path then .error (.refused (.depthExceeded limit path.text))
    else
      let ref := e.nextRef
      match choiceParts limit path ref e.allocate 0 parts with
      | .ok e' => e'.resolve ref
      | .error f => .error f
  | .nothing =>
    if tooDeep limit path then .error (.refused (.depthExceeded limit path.text))
    else .error (.refused (.unsupportedKind "<nil>" path.text))
  | .hollow _ =>
    if tooDeep limit path then .error (.refused (.depthExceeded limit path.text))
    else .error (.refused (.unsupportedKind "<nil>" path.text))
  | .foreign kind _ =>
    if tooDeep limit path then .error (.refused (.depthExceeded limit path.text))
    else .error (.refused (.unsupportedKind kind path.text))

/-- Emits the code of the parts of a sequence, the first of which has index `index`. -/
def sequenceParts (limit : Int) (path : Path) (e : Emitter) (index : Nat) :
    List Atom → Except EmitFailure Emitter
  | [] => .ok e
  | a :: rest =>
    match atom limit (⟨.seq, index⟩ :: path) e a with
    | .ok e' => sequenceParts limit path e' (index + 1) rest
    | .error f => .error f

/-- Emits the code of the parts of a choice, each followed by a branch to entry `ref`. -/
def choiceParts (limit : Int) (path : Path) (ref : Nat) (e : Emitter) (index : Nat) :
    List Atom → Except EmitFailure Emitter
  | [] => .ok e
  | a :: rest =>
    match atom limit (⟨.alt, index⟩ :: path) e a with
    | .ok e' => choiceParts limit path ref (e'.emit (.branching ref)) (index + 1) rest
    | .error f => .error f

end

end Emitter

end GrammarCode
