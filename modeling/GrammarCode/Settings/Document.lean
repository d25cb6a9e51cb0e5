import GrammarCode.Settings.Value
import GrammarCode.Yaml.Node

/-!
# Settings in a document

A configuration file is a mapping from names to values. Nodes that do not fit are collected and
reported together; some faults end the reading at once. A mapping may take entries from others
under the key `<<`: its own entries count first, then those of the others in order.

An alias stands for the node that it refers to. A node inside itself is a fault, so every path
through aliases ends, and the number of nodes bounds its length.
-/

namespace GrammarCode.Settings

open Yaml (Node NodeInfo Document)

/-- What a node was to become. -/
inductive Wanted where
  | table
  | name
  deriving DecidableEq, Repr

/-- How messages call what a node was to become. -/
def Wanted.text : Wanted → String
  | .table => "map[string]interface \x7b\x7d"
  | .name => "string"

/-- A node that does not fit; `shown` is its content as far as messages show it. -/
inductive Misfit where
  | repeatedKey (line : Nat) (key : Bytes) (first : Nat)
  | wrongType (line : Nat) (tag shown : Bytes) (wanted : Wanted)
  deriving DecidableEq, Repr

/-- The wording of a misfit. -/
def Misfit.message : Misfit → Bytes
  | .repeatedKey line key first =>
    Bytes.cat ["line ", Bytes.decimalNat line, ": mapping key ", Text.quoted key,
      " already defined at line ", Bytes.decimalNat first]
  | .wrongType line tag shown wanted =>
    Bytes.cat ["line ", Bytes.decimalNat line, ": cannot unmarshal ", tag, shown, " into ",
      wanted.text]

/-- A fault that ends the reading at once. -/
inductive Breakdown where
  | scalar (m : Yaml.Scalar.Mismatch)
  | selfReference (name : Bytes)
  | mergeValue
  | compoundKey (spelled : Bytes)
  | bottomless
  deriving DecidableEq, Repr

/-- The wording of a breakdown. -/
def Breakdown.message : Breakdown → Bytes
  | .scalar (.type found text wanted) =>
    Bytes.cat ["cannot decode ", found, [0x20, 0x60], text, [0x60], " as a ", wanted]
  | .scalar .binary => "!!binary value contains invalid base64 data"
  | .selfReference name => Bytes.cat ["anchor '", name, "' value contains itself"]
  | .mergeValue => "map merge requires map or sequence of maps as the value"
  | .compoundKey spelled => Bytes.cat ["invalid map key: ", spelled]
  | .bottomless => "document nests without end"

/-- Reading collects misfits and may break down. -/
abbrev Reading := StateT (List Misfit) (Except Breakdown)

namespace Reading

/-- Ends the reading. -/
def fail {α : Type} (b : Breakdown) : Reading α := fun _ => .error b

/-- Adds misfits to those collected so far. -/
def report (ms : List Misfit) : Reading Unit := modify (· ++ ms)

/-- The document, and the places of the aliases that are being followed. -/
structure Context where
  document : Document
  following : List (Nat × Nat) := []

/-- Starts to follow an alias. -/
def Context.follow (c : Context) (info : NodeInfo) (name : Bytes) : Reading Context :=
  let place := (info.line, info.column)
  if c.following.contains place then fail (.selfReference name)
  else pure { c with following := place :: c.following }

/-- Whether two keys are written alike. -/
def sameKey (a b : Node) : Bool :=
  a.text = b.text &&
    match a, b with
    | .scalar _ _, .scalar _ _ => true
    | .sequence _ _, .sequence _ _ => true
    | .mapping _ _, .mapping _ _ => true
    | .alias _ _ _, .alias _ _ _ => true
    | _, _ => false

/-- The keys that repeat an earlier one. -/
def repeated : List Node → List Misfit
  | [] => []
  | k :: rest =>
    (rest.filter (sameKey k)).map (fun j => .repeatedKey j.info.line j.text k.info.line)
      ++ repeated rest

/-- The most of a scalar that messages show in full. -/
def maxShown : Nat := 10

/-- The content of a node as messages show it. -/
def shown (n : Node) : Bytes :=
  let tag := n.info.tag
  if tag = Yaml.standardTag "seq" || tag = Yaml.standardTag "map" then n.text
  else
    let text := if maxShown < n.text.length then n.text.take 7 ++ "..." else n.text
    Bytes.cat [[0x20, 0x60], text, [0x60]]

/-- The misfit of a node of the wrong type. -/
def wrongType (n : Node) (wanted : Wanted) : Misfit :=
  .wrongType n.info.line n.info.tag (shown n) wanted

/-- Whether a key asks for the entries of other mappings. -/
def isMerge (n : Node) : Bool :=
  match n with
  | .scalar info text => text = ("<<" : Bytes) && info.tag = Yaml.standardTag "merge"
  | _ => false

/-- Whether a key is a text by its tag. -/
def isName (d : Document) (n : Node) : Bool :=
  let tag := (d.resolve n).info.tag
  tag = Yaml.standardTag "str" || tag = Yaml.standardTag "merge"

/-- The value of a scalar. -/
def scalar (info : NodeInfo) (text : Bytes) : Reading Value :=
  match Yaml.Scalar.ofTagged info.tag text with
  | .ok s => pure (Value.ofScalar s)
  | .error m => fail (.scalar m)

/-- Reads a key as a name. Null is no name and is passed over. -/
def name (c : Context) (n : Node) : Reading (Option Value) := do
  let n' ←
    match n with
    | .alias info name _ => do
      let c ← c.follow info name
      pure (c.document.resolve n)
    | _ => pure n
  match n' with
  | .scalar info text =>
    match ← scalar info text with
    | .null => return none
    | .text t => return some (.text t)
    | _ => return some (.text text)
  | .mapping _ entries =>
    let again := repeated (entries.map Prod.fst)
    report (if again.isEmpty then [wrongType n' .name] else again)
    return none
  | _ =>
    report [wrongType n' .name]
    return none

/-- Puts a value under a key. -/
def put (known : List (Value × Value)) (key v : Value) : List (Value × Value) :=
  if known.any (·.1 == key) then known.map fun e => if e.1 == key then (key, v) else e
  else known ++ [(key, v)]

mutual

/-- Reads a node; nothing comes of a node that does not fit. -/
def value (fuel : Nat) (c : Context) (n : Node) : Reading (Option Value) :=
  match fuel with
  | 0 => fail .bottomless
  | fuel + 1 =>
    match n with
    | .alias info name _ => do
      let c ← c.follow info name
      value fuel c (c.document.resolve n)
    | .scalar info text => do return some (← scalar info text)
    | .sequence _ items => do
      let vs ← items.mapM (value fuel c)
      return some (.list (vs.filterMap id))
    | .mapping _ entries => do
      let names := entries.all fun e => isName c.document e.1
      return (← table fuel c names false [] entries).map .table

/-- Reads the entries of a mapping into those that are known. When `merging`, a key that is
known already is passed over; `names` says that all keys are to be names. -/
def table (fuel : Nat) (c : Context) (names merging : Bool) (known : List (Value × Value))
    (entries : List (Node × Node)) : Reading (Option (List (Value × Value))) :=
  match fuel with
  | 0 => fail .bottomless
  | fuel + 1 => do
    let again := repeated (entries.map Prod.fst)
    if !again.isEmpty then
      report again
      return none
    let own ← entries.foldlM (entry fuel c names merging) known
    match entries.find? fun e => isMerge e.1 with
    | some e => return some (← merge fuel c names own e.2)
    | none => return some own

/-- Reads one entry of a mapping. -/
def entry (fuel : Nat) (c : Context) (names merging : Bool) (known : List (Value × Value))
    (e : Node × Node) : Reading (List (Value × Value)) :=
  match fuel with
  | 0 => fail .bottomless
  | fuel + 1 => do
    if isMerge e.1 then return known
    match ← if names then name c e.1 else value fuel c e.1 with
    | none => return known
    | some key =>
      if merging && known.any (·.1 == key) then return known
      match key with
      | .list _ | .table _ => fail (.compoundKey key.spelled)
      | _ =>
        match ← value fuel c e.2 with
        | some v => return put known key v
        | none => return known

/-- Adds the entries of the mappings that a merge names. -/
def merge (fuel : Nat) (c : Context) (names : Bool) (known : List (Value × Value)) (n : Node) :
    Reading (List (Value × Value)) :=
  match fuel with
  | 0 => fail .bottomless
  | fuel + 1 =>
    match n with
    | .mapping _ entries => do return (← table fuel c names true known entries).getD known
    | .alias info name _ =>
      match c.document.resolve n with
      | .mapping _ entries => do
        let c ← c.follow info name
        return (← table fuel c names true known entries).getD known
      | _ => fail .mergeValue
    | .sequence _ items =>
      items.foldlM (fun known i =>
        match i with
        | .sequence _ _ => fail .mergeValue
        | _ => merge fuel c names known i) known
    | .scalar _ _ => fail .mergeValue

end

/-- More steps than any path through a document takes. -/
def enough (d : Document) : Nat := 4 * (d.root.size + 1) * (d.root.size + 1)

/-- Reads the root of a document: a mapping, or nothing at all. -/
def root (d : Document) : Reading Config :=
  match d.root with
  | .mapping _ entries => do
    let t ← table (enough d) { document := d } true false [] entries
    return (t.getD []).filterMap fun e =>
      match e.1 with
      | .text name => some (name, e.2)
      | _ => none
  | .scalar info text => do
    match ← scalar info text with
    | .null => return []
    | _ =>
      report [wrongType d.root .table]
      return []
  | n => do
    report [wrongType n .table]
    return []

end Reading

end GrammarCode.Settings
