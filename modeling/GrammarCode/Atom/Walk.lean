import GrammarCode.Atom.Basic

/-!
# Walking through atoms

A walk visits an atom and then, if its visitor asks for it, the parts from left to right with
the visitor that it returned. Missing parts are passed over; to enter a sequence or a choice
without content is impossible, and the walk then has no result.
-/

namespace GrammarCode

namespace Atom

variable {α : Type}

mutual

/-- The visits of a walk in order, each with the visitor that made it, followed by `rest`. -/
def visits (visit : α → Atom → Option α) (v : α) (rest : List (α × Atom)) :
    Atom → Option (List (α × Atom))
  | .sequence parts =>
    match visit v (.sequence parts) with
    | none => some ((v, .sequence parts) :: rest)
    | some w => (visitsAll visit w rest parts).map ((v, .sequence parts) :: ·)
  | .choice parts =>
    match visit v (.choice parts) with
    | none => some ((v, .choice parts) :: rest)
    | some w => (visitsAll visit w rest parts).map ((v, .choice parts) :: ·)
  | .hollow k =>
    match visit v (.hollow k), k with
    | some _, .seq => none
    | some _, .alt => none
    | _, _ => some ((v, .hollow k) :: rest)
  | .literal p => some ((v, .literal p) :: rest)
  | .nothing => some ((v, .nothing) :: rest)
  | .foreign k t => some ((v, .foreign k t) :: rest)

/-- The visits of the parts that are not missing, followed by `rest`. -/
def visitsAll (visit : α → Atom → Option α) (v : α) (rest : List (α × Atom)) :
    List Atom → Option (List (α × Atom))
  | [] => some rest
  | a :: more =>
    match visitsAll visit v rest more with
    | none => none
    | some after => if a.isNothing then some after else visits visit v after a

end

/-- A walk with a changing visitor: the visits in order, each with the visitor that made it. -/
def walk (visit : α → Atom → Option α) (v : α) (a : Atom) : Option (List (α × Atom)) :=
  visits visit v [] a

/-- The atoms that are visited when the parts of an atom are passed over unless `enter` holds
of it. -/
def inspect (enter : Atom → Bool) (a : Atom) : Option (List Atom) :=
  (walk (fun (_ : Unit) b => if enter b then some () else none) () a).map (·.map Prod.snd)

/-- The number of atoms in a tree; none for a missing one. -/
def count? (a : Atom) : Option Nat :=
  if a.isNothing then some 0 else (inspect (fun _ => true) a).map List.length

end Atom

end GrammarCode
