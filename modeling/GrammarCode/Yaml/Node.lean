import GrammarCode.Yaml.Event
import GrammarCode.Yaml.Scalar

/-!
# Documents

A document is a tree of nodes. An alias is a leaf that refers to an anchored node by number, so
a node may well contain an alias of itself; following aliases is left to whoever reads the
document.
-/

namespace GrammarCode.Yaml

/-- What all nodes have: a tag, and the place where the node starts, counted from one. -/
structure NodeInfo where
  tag : Bytes := []
  line : Nat := 0
  column : Nat := 0
  deriving DecidableEq, Repr, Inhabited

/-- A node of a document. -/
inductive Node where
  | scalar (info : NodeInfo) (text : Bytes)
  | sequence (info : NodeInfo) (items : List Node)
  | mapping (info : NodeInfo) (entries : List (Node × Node))
  | alias (info : NodeInfo) (name : Bytes) (target : Nat)
  deriving Repr, Inhabited

namespace Node

/-- What the node has in common with all others. -/
def info : Node → NodeInfo
  | .scalar i _ => i
  | .sequence i _ => i
  | .mapping i _ => i
  | .alias i _ _ => i

/-- The text of a scalar and the name of an alias; collections have none. -/
def text : Node → Bytes
  | .scalar _ t => t
  | .alias _ name _ => name
  | _ => []

mutual

/-- How many nodes a node consists of. -/
def size : Node → Nat
  | .scalar _ _ => 1
  | .alias _ _ _ => 1
  | .sequence _ items => sizeItems items + 1
  | .mapping _ entries => sizeEntries entries + 1

/-- How many nodes the items of a sequence consist of. -/
def sizeItems : List Node → Nat
  | [] => 0
  | n :: rest => size n + sizeItems rest

/-- How many nodes the entries of a mapping consist of. -/
def sizeEntries : List (Node × Node) → Nat
  | [] => 0
  | (k, v) :: rest => size k + size v + sizeEntries rest

end

end Node

/-- The tag of a plain scalar that has none of its own. -/
def plainTag (text : Bytes) : Bytes :=
  if text = ("<<" : Bytes) then standardTag "merge" else (Scalar.ofPlain true text).tag

/-- The tag of a node: its own, unless that is missing or says nothing. -/
def tagOr (own : Bytes) (default : Bytes) : Bytes :=
  if own.isEmpty || own = [0x21] then default else shortTag own

/-- A document: its root, and the anchored nodes by number. -/
structure Document where
  root : Node
  anchored : Array Node

namespace Document

/-- A collection whose end has not come yet, its parts in reverse. -/
structure Frame where
  info : NodeInfo
  isMapping : Bool
  anchor : Option Nat
  parts : List Node

/-- Neighbours taken as pairs. -/
def pairs : List Node → List (Node × Node)
  | k :: v :: rest => (k, v) :: pairs rest
  | _ => []

/-- The node of a finished collection. -/
def Frame.node (f : Frame) : Node :=
  if f.isMapping then .mapping f.info (pairs f.parts.reverse)
  else .sequence f.info f.parts.reverse

/-- A document under construction. -/
structure Builder where
  frames : List Frame := []
  names : Std.HashMap Bytes Nat := ∅
  anchored : Array Node := #[]
  root : Option Node := none

namespace Builder

/-- Gives the next number to an anchor, if there is one. A name given twice means the later
node from then on. -/
def anchor (b : Builder) (name : Bytes) : Builder × Option Nat :=
  if name.isEmpty then (b, none)
  else
    let number := b.anchored.size
    ({ b with names := b.names.insert name number, anchored := b.anchored.push default },
     some number)

/-- Puts a finished node in its place. -/
def place (b : Builder) (number : Option Nat) (n : Node) : Builder :=
  let b :=
    match number with
    | some k => { b with anchored := b.anchored.setIfInBounds k n }
    | none => b
  match b.frames with
  | f :: outer => { b with frames := { f with parts := n :: f.parts } :: outer }
  | [] => { b with root := some n }

/-- Starts a collection. -/
def enter (b : Builder) (info : NodeInfo) (isMapping : Bool) (name : Bytes) : Builder :=
  let (b, anchor) := b.anchor name
  { b with frames := { info, isMapping, anchor, parts := [] } :: b.frames }

/-- Ends a collection. -/
def leave (b : Builder) : Builder :=
  match b.frames with
  | f :: outer => place { b with frames := outer } f.anchor f.node
  | [] => b

/-- Takes one event. -/
def step (b : Builder) (e : Event) : Builder :=
  let info (tag : Bytes) : NodeInfo :=
    { tag, line := e.mark.line + 1, column := e.mark.column + 1 }
  match e.occurrence with
  | .alias name => b.place none (.alias (info []) name (b.names.getD name 0))
  | .scalar props text plain =>
    let default := if plain then plainTag text else standardTag "str"
    let (b, number) := b.anchor props.anchor
    b.place number (.scalar (info (tagOr props.tag default)) text)
  | .sequenceStart props => b.enter (info (tagOr props.tag (standardTag "seq"))) false props.anchor
  | .mappingStart props => b.enter (info (tagOr props.tag (standardTag "map"))) true props.anchor
  | .sequenceEnd => b.leave
  | .mappingEnd => b.leave

end Builder

/-- The document that events describe. -/
def ofEvents (events : Array Event) : Document :=
  let b := events.foldl Builder.step {}
  { root := b.root.getD default, anchored := b.anchored }

/-- The node that an alias refers to, and any other node itself. -/
def resolve (d : Document) : Node → Node
  | .alias _ _ target => d.anchored.getD target default
  | n => n

end Document

/-- What reads the first document of a text, if it holds one. -/
abbrev Reader := Bytes → Except Fault (Option Document)

/-- The first document of a text, if it holds one. -/
def parse (text : Bytes) : Except Fault (Option Document) :=
  match readEvents text with
  | .ok found => .ok (found.map Document.ofEvents)
  | .error fault => .error fault

end GrammarCode.Yaml
