import GrammarCode.Yaml.Token.Stream

/-!
# Events

The tokens of a document are read as events: a scalar, an alias, the start or the end of a
collection. Which events may come next is kept as a stack of expectations, one for every
collection that is still open. Reading stops after the first document.
-/

namespace GrammarCode.Yaml

/-- The anchor and the tag of a node; empty if it has none. -/
structure Properties where
  anchor : Bytes := []
  tag : Bytes := []
  deriving DecidableEq, Repr, Inhabited

/-- What an event says. -/
inductive Occurrence where
  | alias (name : Bytes)
  | scalar (props : Properties) (text : Bytes) (plain : Bool)
  | sequenceStart (props : Properties)
  | sequenceEnd
  | mappingStart (props : Properties)
  | mappingEnd
  deriving DecidableEq, Repr, Inhabited

/-- An event and where it starts. -/
structure Event where
  occurrence : Occurrence
  mark : Mark
  deriving DecidableEq, Repr, Inhabited

/-- What is expected next. -/
inductive Expectation where
  | documentContent
  | blockNode
  | blockEntries (first : Bool)
  | indentlessEntries
  | blockKey (first : Bool)
  | blockValue
  | flowEntries (first : Bool)
  | flowPairKey
  | flowPairValue
  | flowPairEnd
  | flowKey (first : Bool)
  | flowValue
  | flowEmptyValue
  | documentEnd
  deriving DecidableEq, Repr, Inhabited

/-- The state of reading events. -/
structure EventReader where
  /-- The number of the next token. -/
  taken : Nat := 0
  /-- What is expected next, the innermost first. -/
  expected : List Expectation := []
  /-- Where the open collections start, the innermost first. -/
  starts : List Mark := []
  /-- The handles and their expansions. -/
  handles : List (Bytes × Bytes) := []
  /-- The anchors seen so far. -/
  anchors : Std.HashMap Bytes Unit := ∅

/-- Steps of reading events. -/
abbrev Read := StateT EventReader Lex

namespace Read

/-- The next token. -/
def peek : Read Token := do
  let r ← get
  Lex.token r.taken

/-- Takes the next token. -/
def drop : Read Unit := modify fun r => { r with taken := r.taken + 1 }

/-- Takes the next token and gives the one after it. -/
def next : Read Token := do
  drop
  peek

/-- Ends reading with a problem. -/
def fail {α : Type} (problem : OrderProblem) (context place : Mark) : Read α :=
  throw (.order problem context place)

/-- Replaces what is expected now. -/
def become (e : Expectation) : Read Unit :=
  modify fun r => { r with expected := e :: r.expected.drop 1 }

/-- Expects something before what is expected now. -/
def expect (e : Expectation) : Read Unit := modify fun r => { r with expected := e :: r.expected }

/-- What was expected now has come. -/
def satisfied : Read Unit := modify fun r => { r with expected := r.expected.drop 1 }

/-- Opens a collection at a place. -/
def openAt (mark : Mark) : Read Unit := modify fun r => { r with starts := mark :: r.starts }

/-- Where the innermost collection starts. -/
def innermost : Read Mark := do return (← get).starts.headD {}

/-- Closes the innermost collection. -/
def close : Read Unit := do
  satisfied
  modify fun r => { r with starts := r.starts.drop 1 }

/-- The scalar that stands for a missing node at a place. -/
def missing (mark : Mark) : Event := { occurrence := .scalar {} [] true, mark }

/-- The text of a tag: its suffix alone, or after the expansion of its handle. -/
def tagText (start : Mark) (handle suffix : Bytes) (mark : Mark) : Read Bytes := do
  if handle.isEmpty then return suffix
  match (← get).handles.lookup handle with
  | some expansion => return expansion ++ suffix
  | none => fail .undefinedHandle start mark

/-- Reads an anchor and a tag in either order, and gives the first token after them. -/
def properties (first : Token) : Read (Properties × Token) := do
  match first.lexeme with
  | .anchor anchor =>
    let second ← next
    match second.lexeme with
    | .tag handle suffix =>
      let third ← next
      return ({ anchor, tag := ← tagText first.start handle suffix second.start }, third)
    | _ => return ({ anchor }, second)
  | .tag handle suffix =>
    let second ← next
    match second.lexeme with
    | .anchor anchor =>
      let third ← next
      return ({ anchor, tag := ← tagText first.start handle suffix first.start }, third)
    | _ => return ({ tag := ← tagText first.start handle suffix first.start }, second)
  | _ => return ({}, first)

/-- Reads the first event of a node. Block collections are possible in a `block`, and a
sequence whose entries are not indented as the value of a key. -/
def node (block indentless : Bool) : Read Event := do
  let first ← peek
  match first.lexeme with
  | .alias name =>
    drop
    satisfied
    return { occurrence := .alias name, mark := first.start }
  | _ =>
    let (props, token) ← properties first
    let mark := first.start
    match token.lexeme, block, indentless with
    | .blockEntry, _, true =>
      become .indentlessEntries
      return { occurrence := .sequenceStart props, mark }
    | .scalar text plain, _, _ =>
      drop
      satisfied
      let bare := props.tag = [0x21]
      return { occurrence := .scalar (if bare then { props with tag := [] } else props) text plain,
               mark }
    | .flowSequenceStart, _, _ =>
      become (.flowEntries true)
      return { occurrence := .sequenceStart props, mark }
    | .flowMappingStart, _, _ =>
      become (.flowKey true)
      return { occurrence := .mappingStart props, mark }
    | .blockSequenceStart, true, _ =>
      become (.blockEntries true)
      return { occurrence := .sequenceStart props, mark }
    | .blockMappingStart, true, _ =>
      become (.blockKey true)
      return { occurrence := .mappingStart props, mark }
    | _, _, _ =>
      if props.anchor.isEmpty && props.tag.isEmpty then fail .nodeContent mark token.start
      satisfied
      return { occurrence := .scalar props [] true, mark }

/-- Takes the first token of a collection. -/
def enter (first : Bool) : Read Unit := do
  if first then
    openAt (← peek).start
    drop

/-- The next event of a block sequence. -/
def blockEntries (first : Bool) : Read Event := do
  enter first
  let token ← peek
  match token.lexeme with
  | .blockEntry =>
    become (.blockEntries false)
    match (← next).lexeme with
    | .blockEntry => return missing token.stop
    | .blockEnd => return missing token.stop
    | _ =>
      expect .blockNode
      node true false
  | .blockEnd =>
    drop
    close
    return { occurrence := .sequenceEnd, mark := token.start }
  | _ => fail .blockEntry (← innermost) token.start

/-- The next event of a block sequence that is not indented. -/
def indentlessEntries : Read Event := do
  let token ← peek
  match token.lexeme with
  | .blockEntry =>
    match (← next).lexeme with
    | .blockEntry => return missing token.stop
    | .key => return missing token.stop
    | .value => return missing token.stop
    | .blockEnd => return missing token.stop
    | _ =>
      expect .blockNode
      node true false
  | _ =>
    satisfied
    return { occurrence := .sequenceEnd, mark := token.start }

/-- The next event of a block mapping that expects a key. -/
def blockKey (first : Bool) : Read Event := do
  enter first
  let token ← peek
  match token.lexeme with
  | .key =>
    become .blockValue
    match (← next).lexeme with
    | .key => return missing token.stop
    | .value => return missing token.stop
    | .blockEnd => return missing token.stop
    | _ =>
      expect .blockNode
      node true true
  | .blockEnd =>
    drop
    close
    return { occurrence := .mappingEnd, mark := token.start }
  | _ => fail .blockKey (← innermost) token.start

/-- The value of a key in a block mapping. -/
def blockValue : Read Event := do
  become (.blockKey false)
  let token ← peek
  match token.lexeme with
  | .value =>
    match (← next).lexeme with
    | .key => return missing token.stop
    | .value => return missing token.stop
    | .blockEnd => return missing token.stop
    | _ =>
      expect .blockNode
      node true true
  | _ => return missing token.start

/-- The first token after the `,` of a flow collection, which has to stand before all entries
but the first; none is needed before the end. -/
def afterComma (first : Bool) (last : Lexeme) (problem : OrderProblem) : Read Token := do
  let token ← peek
  if first || token.lexeme = last then return token
  else if token.lexeme = .flowEntry then next
  else fail problem (← innermost) token.start

/-- The next event of a flow sequence. A key here starts a mapping of one pair. -/
def flowEntries (first : Bool) : Read Event := do
  enter first
  let token ← afterComma first .flowSequenceEnd .flowSequenceEnd
  match token.lexeme with
  | .key =>
    become (.flowEntries false)
    expect .flowPairKey
    drop
    return { occurrence := .mappingStart {}, mark := token.start }
  | .flowSequenceEnd =>
    drop
    close
    return { occurrence := .sequenceEnd, mark := token.start }
  | _ =>
    become (.flowEntries false)
    expect .blockNode
    node false false

/-- The key of a pair in a flow sequence. -/
def flowPairKey : Read Event := do
  become .flowPairValue
  let token ← peek
  match token.lexeme with
  | .value =>
    drop
    return missing token.stop
  | .flowEntry =>
    drop
    return missing token.stop
  | .flowSequenceEnd =>
    drop
    return missing token.stop
  | _ =>
    expect .blockNode
    node false false

/-- The value of a pair in a flow sequence. -/
def flowPairValue : Read Event := do
  become .flowPairEnd
  let token ← peek
  match token.lexeme with
  | .value =>
    match (← next).lexeme with
    | .flowEntry => return missing token.start
    | .flowSequenceEnd => return missing token.start
    | _ =>
      expect .blockNode
      node false false
  | _ => return missing token.start

/-- The end of a pair in a flow sequence. -/
def flowPairEnd : Read Event := do
  satisfied
  return { occurrence := .mappingEnd, mark := (← peek).start }

/-- The next event of a flow mapping that expects a key. -/
def flowKey (first : Bool) : Read Event := do
  enter first
  let token ← afterComma first .flowMappingEnd .flowMappingEnd
  match token.lexeme with
  | .key =>
    become .flowValue
    let token ← next
    match token.lexeme with
    | .value => return missing token.start
    | .flowEntry => return missing token.start
    | .flowMappingEnd => return missing token.start
    | _ =>
      expect .blockNode
      node false false
  | .flowMappingEnd =>
    drop
    close
    return { occurrence := .mappingEnd, mark := token.start }
  | _ =>
    become .flowEmptyValue
    expect .blockNode
    node false false

/-- The value of a key in a flow mapping. -/
def flowValue : Read Event := do
  become (.flowKey false)
  let token ← peek
  match token.lexeme with
  | .value =>
    let token ← next
    match token.lexeme with
    | .flowEntry => return missing token.start
    | .flowMappingEnd => return missing token.start
    | _ =>
      expect .blockNode
      node false false
  | _ => return missing token.start

/-- The missing value of a key without `:` in a flow mapping. -/
def flowEmptyValue : Read Event := do
  become (.flowKey false)
  return missing (← peek).start

/-- The content of a document after `---`. -/
def documentContent : Read Event := do
  let token ← peek
  match token.lexeme with
  | .version _ _ => satisfied; return missing token.start
  | .handle _ _ => satisfied; return missing token.start
  | .documentStart => satisfied; return missing token.start
  | .documentEnd => satisfied; return missing token.start
  | .streamEnd => satisfied; return missing token.start
  | _ => node true false

/-- The next event, if the document goes on. -/
def event? : Read (Option Event) := do
  match (← get).expected.head? with
  | none => return none
  | some e =>
    match e with
    | .documentContent => return some (← documentContent)
    | .blockNode => return some (← node true false)
    | .blockEntries first => return some (← blockEntries first)
    | .indentlessEntries => return some (← indentlessEntries)
    | .blockKey first => return some (← blockKey first)
    | .blockValue => return some (← blockValue)
    | .flowEntries first => return some (← flowEntries first)
    | .flowPairKey => return some (← flowPairKey)
    | .flowPairValue => return some (← flowPairValue)
    | .flowPairEnd => return some (← flowPairEnd)
    | .flowKey first => return some (← flowKey first)
    | .flowValue => return some (← flowValue)
    | .flowEmptyValue => return some (← flowEmptyValue)
    | .documentEnd =>
      let token ← peek
      if token.lexeme = .documentEnd then drop
      return none

/-- Lets a fault come up that was met while looking ahead. -/
def raiseDeferred : Read Unit := do
  let s ← (get : Lex Lexer)
  match s.deferred with
  | some problem => throw (.bytes problem)
  | none => pure ()

/-- Notes the anchor of a node. -/
def register (props : Properties) : Read Unit :=
  if props.anchor.isEmpty then pure ()
  else modify fun r => { r with anchors := r.anchors.insert props.anchor () }

/-- Keeps the anchors, and checks that an alias has one. -/
def checkAnchor (o : Occurrence) : Read Unit := do
  match o with
  | .alias name =>
    if !(← get).anchors.contains name then throw (.unknownAnchor name)
  | .scalar props _ _ => register props
  | .sequenceStart props => register props
  | .mappingStart props => register props
  | _ => pure ()

/-- The events up to the end of the document. -/
def events : Nat → Array Event → Read (Array Event)
  | 0, found => pure found
  | fuel + 1, found => do
    let e ← event?
    raiseDeferred
    match e with
    | none => return found
    | some e =>
      checkAnchor e.occurrence
      events fuel (found.push e)

/-- The handles that every document knows. -/
def standardHandles : List (Bytes × Bytes) :=
  [([0x21], [0x21]), ([0x21, 0x21], "tag:yaml.org,2002:")]

/-- Reads the directives before a document; `version` says whether one gave the version. -/
def directives : Nat → (version : Bool) → Read Unit
  | 0, _ => pure ()
  | fuel + 1, version => do
    let token ← peek
    match token.lexeme with
    | .version major minor =>
      if version then fail .repeatedVersion {} token.start
      if major ≠ 1 || minor ≠ 1 then fail .unsupportedVersion {} token.start
      drop
      directives fuel true
    | .handle name expansion =>
      if ((← get).handles.lookup name).isSome then fail .repeatedHandle {} token.start
      modify fun r => { r with handles := r.handles ++ [(name, expansion)] }
      drop
      directives fuel version
    | _ => modify fun r => { r with handles := r.handles ++ standardHandles }

/-- Reads the beginning of a document; gives whether there is one. -/
def documentStart (fuel : Nat) : Read Bool := do
  let token ← peek
  match token.lexeme with
  | .streamEnd => return false
  | .version _ _ => explicitStart
  | .handle _ _ => explicitStart
  | .documentStart => explicitStart
  | _ =>
    directives fuel false
    modify fun r => { r with expected := [.blockNode, .documentEnd] }
    return true
where
  /-- A document that starts with directives or `---`. -/
  explicitStart : Read Bool := do
    directives fuel false
    let token ← peek
    if token.lexeme ≠ .documentStart then fail .documentStart {} token.start
    drop
    modify fun r => { r with expected := [.documentContent, .documentEnd] }
    return true

/-- Reads the events of the first document, if there is one. -/
def document : Read (Option (Array Event)) := do
  let steps := 8 * (← (get : Lex Lexer)).total + 64
  let token ← peek
  if token.lexeme ≠ .streamStart then fail .streamStart {} token.start
  drop
  raiseDeferred
  let found ← documentStart steps
  raiseDeferred
  if found then return some (← events steps #[]) else return none

end Read

/-- The events of the first document of a text, or none if the text holds no document. -/
def readEvents (text : Bytes) : Except Fault (Option (Array Event)) :=
  match (Read.document.run {}).run (Lexer.start text) with
  | .ok (found, _) _ => .ok found
  | .error fault _ => .error fault

end GrammarCode.Yaml
