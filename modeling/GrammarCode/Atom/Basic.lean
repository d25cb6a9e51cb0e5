import GrammarCode.Text.Bytes

/-!
# Atoms

A grammar is a tree of atoms. A literal matches its pattern, a sequence its parts in order, a
choice the first part that succeeds. A tree given by a caller may also hold places where an
atom is missing, with or without a variant, and variants that this library does not know.
-/

namespace GrammarCode

/-- The variants of atoms that a grammar is written with. -/
inductive Kind where
  | str
  | seq
  | alt
  deriving DecidableEq, Repr, Inhabited

/-- The short name of a variant. -/
def Kind.name : Kind → String
  | .str => "str"
  | .seq => "seq"
  | .alt => "alt"

/-- A node of a grammar tree. -/
inductive Atom where
  /-- Matches the pattern, byte for byte. -/
  | literal (pattern : Bytes)
  /-- Matches each part in order. -/
  | sequence (parts : List Atom)
  /-- Tries each part in order and keeps the first that succeeds. -/
  | choice (parts : List Atom)
  /-- No atom stands here. -/
  | nothing
  /-- A place of a known variant without content. -/
  | hollow (kind : Kind)
  /-- A variant from elsewhere, with its own name and its own text. -/
  | foreign (kind text : Bytes)
  deriving Repr, Inhabited

namespace Atom

/-- The name of an atom's variant; a missing atom has none. -/
def kind? : Atom → Option Bytes
  | .literal _ => some (Kind.str.name : Bytes)
  | .sequence _ => some (Kind.seq.name : Bytes)
  | .choice _ => some (Kind.alt.name : Bytes)
  | .nothing => none
  | .hollow k => some (k.name : Bytes)
  | .foreign k _ => some k

/-- Whether no atom stands here. -/
def isNothing : Atom → Bool
  | .nothing => true
  | _ => false

mutual

/-- Whether a place without content occurs in the tree. -/
def hasHollow : Atom → Bool
  | .sequence parts => anyHollow parts
  | .choice parts => anyHollow parts
  | .hollow _ => true
  | .literal _ => false
  | .nothing => false
  | .foreign _ _ => false

/-- Whether a place without content occurs in one of the trees. -/
def anyHollow : List Atom → Bool
  | [] => false
  | a :: rest => a.hasHollow || anyHollow rest

end

end Atom

end GrammarCode
