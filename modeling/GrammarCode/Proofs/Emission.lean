import GrammarCode.Compile.Emitter
import GrammarCode.Proofs.Fragment

/-!
# What emission does

Emission either stops at the first atom that the limit or the compiler refuses, or appends the
relocated code of the tree to the code that is there. One equation says both, for an atom at any
path and for code emitted so far in any state; so no entry is ever resolved twice, and what is
emitted for an atom depends on its surroundings only through the relocation.
-/

namespace GrammarCode

namespace Emitter

/-- What is wrong with an atom that stands at a path: it is too deep, or no variant that the
compiler handles. -/
def offence? (limit : Int) (x : Path × Atom) : Option CompileError :=
  if tooDeep limit x.1 then some (.depthExceeded limit x.1.text)
  else
    match x.2 with
    | .literal _ => none
    | .sequence _ => none
    | .choice _ => none
    | .nothing => some (.unsupportedKind "<nil>" x.1.text)
    | .hollow _ => some (.unsupportedKind "<nil>" x.1.text)
    | .foreign kind _ => some (.unsupportedKind kind x.1.text)

/-- What is wrong at the first of the places where anything is. -/
def refusal? (limit : Int) (places : List (Path × Atom)) : Option CompileError :=
  places.findSome? (offence? limit)

/-- The code emitted so far with more code behind it. -/
def append (e : Emitter) (f : Fragment) : Emitter where
  instructions := e.instructions ++ f.instructions.toArray
  addresses := e.addresses ++ f.addresses.toArray

/-- Emission with a refusal, if there is one, and with new code otherwise. -/
def outcome (refusal : Option CompileError) (e : Emitter) : Except EmitFailure Emitter :=
  match refusal with
  | some err => .error (.refused err)
  | none => .ok e

@[simp] theorem outcome_some (err : CompileError) (e : Emitter) :
    outcome (some err) e = .error (.refused err) := rfl

@[simp] theorem outcome_none (e : Emitter) : outcome none e = .ok e := rfl

theorem refusal?_cons (limit : Int) (x : Path × Atom) (rest : List (Path × Atom)) :
    refusal? limit (x :: rest) = (offence? limit x).or (refusal? limit rest) := by
  rw [refusal?, List.findSome?_cons]
  cases offence? limit x <;> rfl

theorem refusal?_append (limit : Int) (xs ys : List (Path × Atom)) :
    refusal? limit (xs ++ ys) = (refusal? limit xs).or (refusal? limit ys) :=
  List.findSome?_append

@[simp] theorem size_instructions_append (e : Emitter) (f : Fragment) :
    (e.append f).instructions.size = e.instructions.size + f.instructions.length := by
  simp [append]

@[simp] theorem size_addresses_append (e : Emitter) (f : Fragment) :
    (e.append f).addresses.size = e.addresses.size + f.addresses.length := by
  simp [append]

/-- Resolving the entry that was taken before the code of the parts sets it to the end of that
code; it always succeeds. -/
theorem resolve_append_allocate (e : Emitter) (f : Fragment) :
    (e.allocate.append f).resolve e.nextRef =
      .ok (e.append ⟨f.instructions,
        ((e.instructions.size + f.instructions.length : Nat) : Int) :: f.addresses⟩) := by
  have hentry : (e.allocate.append f).addresses[e.nextRef]? = some Program.unresolved := by
    simp [append, allocate, nextRef]
  rw [resolve, if_pos hentry]
  congr 1
  rw [append, Emitter.mk.injEq]
  constructor
  · rfl
  · apply Array.toList_inj.mp
    simp [append, allocate, nextRef]

private theorem append_append_emit (e : Emitter) (f g : Fragment) (i : Instruction) :
    ((e.append f).emit i).append g =
      e.append ⟨f.instructions ++ [i] ++ g.instructions, f.addresses ++ g.addresses⟩ := by
  simp [append, emit]

private theorem append_append (e : Emitter) (f g : Fragment) :
    (e.append f).append g =
      e.append ⟨f.instructions ++ g.instructions, f.addresses ++ g.addresses⟩ := by
  simp [append]

private theorem append_emit (e : Emitter) (f : Fragment) (i : Instruction) :
    (e.append f).emit i = e.append ⟨f.instructions ++ [i], f.addresses⟩ := by
  simp [append, emit]

-- The equation to prove, as the parts of a sequence or a choice use it.
private def Emits (limit : Int) (a : Atom) : Prop :=
  ∀ path e, Emitter.atom limit path e a = outcome (refusal? limit (a.places path))
    (e.append (a.code.relocate e.addresses.size e.instructions.size))

private theorem sequenceParts_eq (limit : Int) (path : Path) (e : Emitter) (index : Nat)
    (parts : List Atom) (ih : ∀ a ∈ parts, Emits limit a) :
    sequenceParts limit path e index parts =
      outcome (refusal? limit (Atom.placesAll .seq path index parts))
        (e.append (Atom.codeAll [] e.addresses.size e.instructions.size parts)) := by
  induction parts generalizing e index with
  | nil => simp [sequenceParts, Atom.placesAll, Atom.codeAll, refusal?, append]
  | cons a rest ihr =>
    rw [List.forall_mem_cons] at ih
    rw [sequenceParts, ih.1, Atom.placesAll, refusal?_append]
    cases refusal? limit (a.places (⟨.seq, index⟩ :: path)) with
    | some err => rfl
    | none =>
      simp only [outcome_none, Option.none_or]
      rw [ihr _ _ ih.2, append_append]
      simp [Atom.codeAll]

private theorem choiceParts_eq (limit : Int) (path : Path) (ref : Nat) (e : Emitter) (index : Nat)
    (parts : List Atom) (ih : ∀ a ∈ parts, Emits limit a) :
    choiceParts limit path ref e index parts =
      outcome (refusal? limit (Atom.placesAll .alt path index parts))
        (e.append (Atom.codeAll [.branching ref] e.addresses.size e.instructions.size parts)) := by
  induction parts generalizing e index with
  | nil => simp [choiceParts, Atom.placesAll, Atom.codeAll, refusal?, append]
  | cons a rest ihr =>
    rw [List.forall_mem_cons] at ih
    rw [choiceParts, ih.1, Atom.placesAll, refusal?_append]
    cases refusal? limit (a.places (⟨.alt, index⟩ :: path)) with
    | some err => rfl
    | none =>
      simp only [outcome_none, Option.none_or]
      rw [ihr _ _ ih.2, append_append_emit]
      simp [Atom.codeAll, emit]

/-- Emission refuses a tree for the first of its atoms that is at fault, and otherwise appends the
code of the tree, relocated to where it comes to stand. -/
theorem atom_eq (limit : Int) (path : Path) (e : Emitter) (a : Atom) :
    Emitter.atom limit path e a = outcome (refusal? limit (a.places path))
      (e.append (a.code.relocate e.addresses.size e.instructions.size)) := by
  induction a generalizing path e with
  | literal pattern =>
    rw [Emitter.atom, Atom.places, refusal?_cons, offence?]
    split
    · rfl
    · simp [refusal?, append, emit, Atom.code, Fragment.relocate]
  | nothing =>
    rw [Emitter.atom, Atom.places, refusal?_cons, offence?]
    split <;> rfl
  | hollow _ =>
    rw [Emitter.atom, Atom.places, refusal?_cons, offence?]
    split <;> rfl
  | foreign _ _ =>
    rw [Emitter.atom, Atom.places, refusal?_cons, offence?]
    split <;> rfl
  | sequence parts ih =>
    rw [Emitter.atom, Atom.places, refusal?_cons, offence?]
    split
    · rfl
    · rw [sequenceParts_eq limit path e 0 parts ih, Atom.relocate_code_sequence]
      simp only [Option.none_or]
      cases refusal? limit (Atom.placesAll .seq path 0 parts) with
      | some err => rfl
      | none => simp only [outcome_none, append_emit]
  | choice parts ih =>
    rw [Emitter.atom, Atom.places, refusal?_cons, offence?]
    split
    · rfl
    · dsimp only
      rw [choiceParts_eq limit path e.nextRef e.allocate 0 parts ih, Atom.relocate_code_choice]
      simp only [Option.none_or]
      cases refusal? limit (Atom.placesAll .alt path 0 parts) with
      | some err => rfl
      | none =>
        simp only [outcome_none, resolve_append_allocate]
        simp [allocate, nextRef]

/-- When the parts of a choice are emitted, the entry that was taken before them is in the table and
still unresolved, whatever entries the parts took and resolved. -/
theorem unresolved_of_choiceParts {limit : Int} {path : Path} {e e' : Emitter} {parts : List Atom}
    (h : choiceParts limit path e.nextRef e.allocate 0 parts = .ok e') :
    e'.addresses[e.nextRef]? = some Program.unresolved := by
  rw [choiceParts_eq limit path e.nextRef e.allocate 0 parts
    fun a _ path e ↦ atom_eq limit path e a] at h
  cases hr : refusal? limit (Atom.placesAll .alt path 0 parts) with
  | some err =>
    rw [hr] at h
    cases h
  | none =>
    rw [hr, outcome_none] at h
    obtain rfl := Except.ok.inj h
    simp [append, allocate, nextRef]

end Emitter

end GrammarCode
