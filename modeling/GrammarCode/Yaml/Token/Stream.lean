import GrammarCode.Yaml.Token.Scalar
import GrammarCode.Yaml.Token.Property

/-!
# The stream of tokens

Block collections start where a line is indented deeper and end where one is indented less. A
key of a mapping is recognised only by the `:` after it, at most 1024 characters later and on
the same line; then the tokens that mark the key, and the mapping if it is a new one, are
inserted before it. So a token can be handed out only when it can no longer turn out to be a
key. Two tokens more than asked for are always read ahead.
-/

namespace GrammarCode.Yaml.Lex

/-- The widest key, in characters. -/
def keyReach : Nat := 1024

/-- The possible key of the innermost flow level. -/
def lastKey (s : Lexer) : PossibleKey := s.keys.back?.getD {}

/-- Whether a possible key may still turn out to be one here. -/
def inReach (s : Lexer) (key : PossibleKey) : Bool :=
  s.mark.line ≤ key.mark.line && s.mark.index ≤ key.mark.index + keyReach

/-- Gives up the possible key of a level. -/
def giveUp (level : Nat) : Lex Unit :=
  modify fun s => { s with keys := s.keys.modify level fun k => { k with possible := false } }

/-- Whether the possible key of a level can still be one. A required one must. -/
def keyIsValid (level : Nat) : Lex Bool := do
  let s ← get
  let key := s.keys.getD level {}
  if !key.possible then return false
  else if inReach s key then return true
  else
    if key.required then fail .keyWithoutValue key.mark
    giveUp level
    return false

/-- Removes the possible key of the innermost level. -/
def removeKey : Lex Unit := do
  let s ← get
  let key := lastKey s
  if key.possible then
    if key.required then fail .keyWithoutValue key.mark
    giveUp (s.keys.size - 1)
    modify fun s => { s with keyLevels := s.keyLevels.erase key.number }

/-- Notes that a key may start here with the next token. -/
def saveKey : Lex Unit := do
  let s ← get
  if s.keyAllowed then
    let level := s.keys.size - 1
    let key : PossibleKey :=
      { possible := true
        required := s.flowLevel = 0 && s.indent = s.mark.column
        number := s.tokens.size
        mark := s.mark }
    removeKey
    modify fun s =>
      { s with
        keys := s.keys.pop.push key
        keyLevels := s.keyLevels.insert key.number level }

/-- Enters a flow collection. -/
def enterFlow : Lex Unit := do
  let s ← get
  let mark := s.mark
  let number := s.tokens.size
  modify fun s => { s with keys := s.keys.push { number, mark }, flowLevel := s.flowLevel + 1 }
  if maxNesting < (← get).flowLevel then fail .tooDeep mark

/-- Leaves a flow collection, if one is open. -/
def leaveFlow : Lex Unit :=
  modify fun s =>
    if s.flowLevel = 0 then s
    else
      { s with
        flowLevel := s.flowLevel - 1
        keyLevels := s.keyLevels.erase (lastKey s).number
        keys := s.keys.pop }

/-- Starts a block collection at a column, unless one is open there. Its first token stands
before token `number`, or after all tokens. -/
def roll (column : Nat) (number : Option Nat) (lexeme : Lexeme) (mark : Mark) : Lex Unit := do
  let s ← get
  if s.flowLevel = 0 && s.indent < column then
    let key := lastKey s
    modify fun s => { s with indents := s.indent :: s.indents, indent := column }
    if maxNesting < (← get).indents.length then fail .tooDeep key.mark
    let token : Token := { lexeme, start := mark, stop := mark }
    modify fun s =>
      { s with
        tokens :=
          match number with
          | some n => s.tokens.insertIdxIfInBounds n token
          | none => s.tokens.push token }

/-- How many indentations are deeper than `column`, and those that stay. -/
def unrolled (column indent : Int) (count : Nat) : List Int → Nat × Int × List Int
  | [] => (count, indent, [])
  | outer :: rest =>
    if column < indent then unrolled column outer (count + 1) rest
    else (count, indent, outer :: rest)

/-- Ends the block collections that are indented deeper than `column`. -/
def unroll (column : Int) (mark : Mark) : Lex Unit :=
  modify fun s =>
    if 0 < s.flowLevel then s
    else
      let (count, indent, indents) := unrolled column s.indent 0 s.indents
      let token : Token := { lexeme := .blockEnd, start := mark, stop := mark }
      { s with indent, indents, tokens := s.tokens ++ Array.replicate count token }

/-- Whether a key may start at this place from now on. -/
def allowKey (allowed : Bool) : Lex Unit := modify fun s => { s with keyAllowed := allowed }

/-- The first token. -/
def streamStart : Lex Unit := do
  modify fun s => { s with started := true, keyAllowed := true, keys := #[{}] }
  pushIndicator .streamStart 0

/-- Ends all block collections, as before everything that is no part of a document's node. -/
def endBlocks : Lex Unit := do
  unroll (-1) (← get).mark
  removeKey
  allowKey false

/-- The last token. -/
def streamEnd : Lex Unit := do
  modify fun s =>
    if s.mark.column = 0 then s
    else { s with mark := { s.mark with line := s.mark.line + 1, column := 0 } }
  endBlocks
  pushIndicator .streamEnd 0

/-- The start of a flow collection. -/
def flowStart (lexeme : Lexeme) : Lex Unit := do
  saveKey
  enterFlow
  allowKey true
  pushIndicator lexeme 1

/-- The end of a flow collection. -/
def flowEnd (lexeme : Lexeme) : Lex Unit := do
  removeKey
  leaveFlow
  allowKey false
  pushIndicator lexeme 1

/-- The `,` of a flow collection. -/
def flowEntry : Lex Unit := do
  removeKey
  allowKey true
  pushIndicator .flowEntry 1

/-- The `-` of a block sequence. -/
def blockEntry : Lex Unit := do
  let s ← get
  if s.flowLevel = 0 then
    if !s.keyAllowed then fail .misplacedEntry s.mark
    roll s.mark.column none .blockSequenceStart s.mark
  removeKey
  allowKey true
  pushIndicator .blockEntry 1

/-- The `?` of a key that is written out. -/
def key : Lex Unit := do
  let s ← get
  if s.flowLevel = 0 then
    if !s.keyAllowed then fail .misplacedKey s.mark
    roll s.mark.column none .blockMappingStart s.mark
  removeKey
  allowKey (s.flowLevel = 0)
  pushIndicator .key 1

/-- The `:` of a value. The possible key before it is one now. -/
def value : Lex Unit := do
  let level := (← get).keys.size - 1
  if ← keyIsValid level then
    let key := lastKey (← get)
    let token : Token := { lexeme := .key, start := key.mark, stop := key.mark }
    modify fun s => { s with tokens := s.tokens.insertIdxIfInBounds key.number token }
    roll key.mark.column (some key.number) .blockMappingStart key.mark
    giveUp level
    modify fun s => { s with keyLevels := s.keyLevels.erase key.number, keyAllowed := false }
  else
    let s ← get
    if s.flowLevel = 0 then
      if !s.keyAllowed then fail .misplacedValue s.mark
      roll s.mark.column none .blockMappingStart s.mark
    allowKey (s.flowLevel = 0)
  pushIndicator .value 1

/-- Reads a token that can start a key but not be followed by one. -/
def withKey (read : Lex Unit) : Lex Unit := do
  saveKey
  allowKey false
  read

/-- Characters that start no plain scalar. -/
def isIndicator (c : Char) : Bool :=
  c = '-' || c = '?' || c = ':' || c = ',' || c = '[' || c = ']' || c.toNat = 0x7B
    || c.toNat = 0x7D || c = '#' || c = '&' || c = '*' || c = '!' || c = '|' || c = '>'
    || c = '\'' || c = '"' || c = '%' || c = '@' || c.toNat = 0x60

/-- Whether a plain scalar starts here. -/
def startsPlain (s : Lexer) : Bool :=
  let c := s.char
  let next := s.charAt 1
  !(isGap c || isIndicator c) || (c = '-' && !isBlank next)
    || (s.flowLevel = 0 && (c = '?' || c = ':') && !isGap next)

/-- Reads a token inside a document. -/
def nodeToken : Lex Unit := do
  let s ← get
  let c := s.char
  let next := s.charAt 1
  let inFlow : Bool := 0 < s.flowLevel
  if c = '[' then flowStart .flowSequenceStart
  else if c.toNat = 0x7B then flowStart .flowMappingStart
  else if c = ']' then flowEnd .flowSequenceEnd
  else if c.toNat = 0x7D then flowEnd .flowMappingEnd
  else if c = ',' then flowEntry
  else if c = '-' && isGap next then blockEntry
  else if c = '?' && (inFlow || isGap next) then key
  else if c = ':' && (inFlow || isGap next) then value
  else if c = '*' then withKey (anchorName .alias)
  else if c = '&' then withKey (anchorName .anchor)
  else if c = '!' then withKey tag
  else if c = '|' && !inFlow then
    removeKey
    allowKey true
    blockScalar true
  else if c = '>' && !inFlow then
    removeKey
    allowKey true
    blockScalar false
  else if c = '\'' then withKey (quotedScalar true)
  else if c = '"' then withKey (quotedScalar false)
  else if startsPlain s then withKey plainScalar
  else fail .strayCharacter s.mark

/-- Whether the last token is the `-` of a sequence, after which a comment belongs to what
follows. -/
def endsInEntry (s : Lexer) : Bool :=
  match s.tokens.back? with
  | some t => t.lexeme = .blockEntry
  | none => false

/-- Reads one more token, and the tokens that follow from indentation before it. -/
def fetch : Lex Unit := do
  need 1
  let s ← get
  if !s.started then streamStart
  else
    let before := { s.mark with index := s.mark.index - 1 }
    toToken s.fuel
    unroll (← get).mark.column before
    need 4
    let s ← get
    if s.char = endChar then streamEnd
    else if s.mark.column = 0 && s.char = '%' then
      endBlocks
      directive
    else if s.atDocumentIndicator then
      endBlocks
      pushIndicator (if s.char = '-' then .documentStart else .documentEnd) 3
    else
      nodeToken
      if !endsInEntry (← get) then lineComment

/-- Reads tokens until token `number` can be handed out. -/
def fetchUpTo (number : Nat) : Nat → Lex Unit
  | 0 => pure ()
  | fuel + 1 => do
    let s ← get
    if number + 2 < s.tokens.size then
      match s.keyLevels[number]? with
      | none => return
      | some level =>
        if !(← keyIsValid level) then return
        fetch
        fetchUpTo number fuel
    else
      fetch
      fetchUpTo number fuel

/-- Token `number` of the stream. After the end of the stream there are only further ends. -/
def token (number : Nat) : Lex Token := do
  fetchUpTo number (← get).fuel
  let s ← get
  return s.tokens.getD number { lexeme := .streamEnd, start := s.mark, stop := s.mark }

end GrammarCode.Yaml.Lex
