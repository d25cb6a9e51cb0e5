import GrammarCode.Atom.Basic
import GrammarCode.Grammar.Error
import GrammarCode.Yaml.Node

/-!
# Grammar documents

A grammar is written as a document in which a scalar is a literal, a list is a sequence, and a
mapping with the single key `str`, `seq` or `alt` says which atom it is. Aliases stand for what
they refer to. Since an alias may refer to a node around it, nodes are followed only to a fixed
depth.
-/

namespace GrammarCode.Grammar

open Yaml (Node Document)

/-- How deep nodes are followed. -/
def maxDepth : Nat := 10000

/-- The error of a node at fault in a named document. -/
def errorAt (filename : Bytes) (n : Node) (code : ErrorCode) (text : Bytes) : GrammarError :=
  { code, text, location := { filename, line := n.info.line, column := n.info.column } }

/-- The literal that a scalar stands for. -/
def literal (filename : Bytes) (d : Document) (n : Node) : Except GrammarError Atom :=
  match d.resolve n with
  | .scalar info text =>
    if info.tag = Yaml.standardTag "null" then
      .error (errorAt filename (d.resolve n) .invalidValue "literal pattern must not be null")
    else .ok (.literal text)
  | other => .error (errorAt filename other .invalidValue "literal pattern must be a scalar")

/-- The atom that a node stands for, followed `depth` levels deep. -/
def atom (filename : Bytes) (d : Document) : Nat → Node → Except GrammarError Atom
  | 0, n =>
    .error (errorAt filename n .invalidValue
      (Bytes.cat ["grammar nests deeper than ", Bytes.decimalNat maxDepth, " levels"]))
  | depth + 1, n =>
    let list (v : Node) : Except GrammarError (List Atom) :=
      match d.resolve v with
      | .sequence _ items => items.mapM (atom filename d depth)
      | other => .error (errorAt filename other .invalidValue "expected a list of atoms")
    match n with
    | .alias _ _ _ => atom filename d depth (d.resolve n)
    | .scalar _ _ => literal filename d n
    | .sequence _ _ => (list n).map Atom.sequence
    | .mapping _ [(key, value)] =>
      if key.text = (Kind.str.name : Bytes) then literal filename d value
      else if key.text = (Kind.seq.name : Bytes) then (list value).map Atom.sequence
      else if key.text = (Kind.alt.name : Bytes) then (list value).map Atom.choice
      else .error (errorAt filename key .unknownKey (GrammarError.unknownKeyText key.text))
    | .mapping _ entries =>
      .error (errorAt filename n .ambiguousMapping
        (Bytes.cat ["atom mapping must have exactly one key, got ",
          Bytes.decimalNat entries.length]))

/-- The error of a document that is malformed or missing. -/
def malformed (filename text : Bytes) (caused : Bool) : GrammarError :=
  { code := .malformedDocument, text, location := { filename }, caused }

/-- The tree that a grammar document describes; `filename` is named in errors and `read` reads the
document. -/
def decode (filename text : Bytes) (read : Yaml.Reader := Yaml.parse) : Except GrammarError Atom :=
  match read text with
  | .error fault => .error (malformed filename fault.message true)
  | .ok none => .error (malformed filename "empty grammar document" false)
  | .ok (some d) => atom filename d maxDepth d.root

end GrammarCode.Grammar
