import GrammarCode.Yaml.Token.Comment

/-!
# Scalars

A scalar is written plain, between quotes, or as an indented block. In plain and quoted
scalars a single line break is folded into a space, and further breaks are kept; a literal
block keeps its lines as they are, and a folded block joins neighbouring lines that do not
start with a blank.
-/

namespace GrammarCode.Yaml

/-- The text of a scalar so far, and the blanks and line ends read after it. They become part
of the text, folded, only if more text follows. -/
structure Folding where
  text : Array Char := #[]
  /-- Blanks since the text, while no line has ended. -/
  blanks : Array Char := #[]
  /-- Whether a line has ended since the text. -/
  broken : Bool := false
  /-- The first line end since the text. -/
  firstBreak : Array Char := #[]
  /-- The line ends after the first. -/
  moreBreaks : Array Char := #[]

namespace Folding

/-- The first line end and those after it as text: one newline alone gives a space. -/
def joint (first more : Array Char) : Array Char :=
  if first[0]? = some '\n' then
    if more.isEmpty then #[' '] else more
  else first ++ more

/-- What was read after the text as part of the text. -/
def gap (f : Folding) : Array Char :=
  if f.broken then joint f.firstBreak f.moreBreaks else f.blanks

/-- Takes what was read after the text, and then a word, into the text. -/
def word (f : Folding) (chars : Array Char) : Folding := { text := f.text ++ f.gap ++ chars }

/-- Reads one more blank; at the start of a line blanks are dropped. -/
def blank (f : Folding) (c : Char) : Folding :=
  if f.broken then f else { f with blanks := f.blanks.push c }

/-- Reads one more line end. -/
def lineEnd (f : Folding) (text : Array Char) : Folding :=
  if f.broken then { f with moreBreaks := f.moreBreaks ++ text }
  else { f with blanks := #[], firstBreak := text, broken := true }

end Folding

namespace Lex

/-- Reads the blanks and line ends here. With `floor`, a tab in the indentation of a line may
not stand before that column. -/
def readGap (start : Mark) (floor : Option Int) : Nat → Folding → Lex Folding
  | 0, f => pure f
  | fuel + 1, f => do
    let s ← get
    let c := s.char
    if isBlank c then
      let early := match floor with
        | some column => (s.mark.column : Int) < column
        | none => false
      if f.broken && c = '\t' && early then fail .tabInPlain start
      advance 1
      need 1
      readGap start floor fuel (f.blank c)
    else if isBreak c then
      need 2
      let text ← readBreak
      need 1
      readGap start floor fuel (f.lineEnd text)
    else return f

/-- Characters that end a plain scalar inside a flow collection. -/
def isFlowEnd (c : Char) : Bool :=
  c = ',' || c = '?' || c = '[' || c = ']' || c.toNat = 0x7B || c.toNat = 0x7D

/-- How many characters of a plain scalar follow without a gap, after `n` others. -/
def plainRun (inFlow : Bool) (n : Nat) : List Char → Nat
  | [] => n
  | c :: rest =>
    if isGap c || (c = ':' && isGap (rest.headD endChar)) || (inFlow && isFlowEnd c) then n
    else plainRun inFlow (n + 1) rest

/-- Reads a plain scalar line by line; gives its text, where it stops, and whether a line ended
after it. -/
def plainLines (start : Mark) (floor : Int) : Nat → Folding → Mark → Lex (Folding × Mark)
  | 0, f, stop => pure (f, stop)
  | fuel + 1, f, stop => do
    need 4
    let s ← get
    if s.atDocumentIndicator || s.char = '#' then return (f, stop)
    let run := plainRun (0 < s.flowLevel) 0 s.rest
    let mut f := f
    let mut stop := stop
    if 0 < run then
      f := f.word (s.rest.take run).toArray
      advance run
      stop := (← get).mark
      need 2
    let c := (← get).char
    if isBlank c || isBreak c then
      need 1
      f ← readGap start (some floor) fuel f
      let s ← get
      if s.flowLevel = 0 && (s.mark.column : Int) < floor then return (f, stop)
      plainLines start floor fuel f stop
    else return (f, stop)

/-- Reads a plain scalar. A key may start after it if a line has ended. -/
def plainScalar : Lex Unit := do
  let s ← get
  let (f, stop) ← plainLines s.mark (s.indent + 1) s.fuel {} s.mark
  push (.scalar (encodeChars f.text) true) s.mark stop
  if f.broken then modify fun s => { s with keyAllowed := true }

/-- The character that an escape of one letter stands for. -/
def simpleEscape? (c : Char) : Option Char :=
  match c with
  | '0' => some (Char.ofNat 0x00)
  | 'a' => some (Char.ofNat 0x07)
  | 'b' => some (Char.ofNat 0x08)
  | 't' => some '\t'
  | '\t' => some '\t'
  | 'n' => some '\n'
  | 'v' => some (Char.ofNat 0x0B)
  | 'f' => some (Char.ofNat 0x0C)
  | 'r' => some '\r'
  | 'e' => some (Char.ofNat 0x1B)
  | ' ' => some ' '
  | '"' => some '"'
  | '\'' => some '\''
  | '\\' => some '\\'
  | 'N' => some (Char.ofNat 0x85)
  | '_' => some (Char.ofNat 0xA0)
  | 'L' => some (Char.ofNat 0x2028)
  | 'P' => some (Char.ofNat 0x2029)
  | _ => none

/-- How many hexadecimal digits follow the letter of an escape. -/
def escapeDigits? (c : Char) : Option Nat :=
  match c with
  | 'x' => some 2
  | 'u' => some 4
  | 'U' => some 8
  | _ => none

/-- The number that hexadecimal digits spell. -/
def hexNumber? (value : Nat) : List Char → Option Nat
  | [] => some value
  | c :: rest =>
    match hexValue? c with
    | some d => hexNumber? (value * 16 + d) rest
    | none => none

/-- Reads the escape that starts here. -/
def readEscape (start : Mark) : Lex Char := do
  let s ← get
  let letter := s.charAt 1
  match simpleEscape? letter with
  | some c =>
    advance 2
    return c
  | none =>
    match escapeDigits? letter with
    | none => fail .unknownEscape start
    | some n =>
      advance 2
      need n
      let digits := (← get).rest.take n
      let short := digits.length < n
      match hexNumber? 0 digits with
      | none => fail .hexadecimal start
      | some code =>
        if short then fail .hexadecimal start
        if (0xD800 ≤ code && code ≤ 0xDFFF) || 0x10FFFF < code then fail .escapeCode start
        advance n
        return Char.ofNat code

/-- How many characters between quotes stand for themselves, after `n` others. -/
def quotedRun (single : Bool) (n : Nat) : List Char → Nat
  | [] => n
  | c :: rest =>
    if isGap c || (if single then c = '\'' else c = '"' || c = '\\') then n
    else quotedRun single (n + 1) rest

/-- Reads the characters between quotes up to a gap, the closing quote or an escaped line end;
the flag says that it was the last. -/
def quotedWord (single : Bool) (start : Mark) : Nat → Array Char → Lex (Array Char × Bool)
  | 0, text => pure (text, false)
  | fuel + 1, text => do
    let s ← get
    let c := s.char
    let next := s.charAt 1
    if isGap c then return (text, false)
    else if single && c = '\'' then
      if next = '\'' then
        advance 2
        need 2
        quotedWord single start fuel (text.push '\'')
      else return (text, false)
    else if !single && c = '"' then return (text, false)
    else if !single && c = '\\' then
      if isBreak next then
        need 3
        advance 1
        skipBreak
        return (text, true)
      else
        let c ← readEscape start
        need 2
        quotedWord single start fuel (text.push c)
    else
      let run := quotedRun single 0 s.rest
      advance run
      need 2
      quotedWord single start fuel (text ++ (s.rest.take run).toArray)

/-- Reads what stands between quotes, word by word. -/
def quotedWords (single : Bool) (start : Mark) : Nat → Array Char → Lex (Array Char)
  | 0, text => pure text
  | fuel + 1, text => do
    need 4
    let s ← get
    if s.atDocumentIndicator then fail .documentIndicator start
    if s.char = endChar then fail .endOfStream start
    let (text, escaped) ← quotedWord single start fuel text
    need 1
    let s ← get
    if s.char = (if single then '\'' else '"') then return text
    let f ← readGap start none s.fuel { text, broken := escaped }
    quotedWords single start fuel (f.word #[]).text

/-- Reads a scalar between quotes. -/
def quotedScalar (single : Bool) : Lex Unit := do
  let s ← get
  advance 1
  let text ← quotedWords single s.mark s.fuel #[]
  advance 1
  push (.scalar (encodeChars text) false) s.mark (← get).mark

/-- What happens to the line ends after the last line of a block scalar. -/
inductive Chomping where
  | clip
  | strip
  | keep
  deriving DecidableEq, Repr

/-- The indicator of a chomping. -/
def chomping? (c : Char) : Option Chomping :=
  if c = '+' then some .keep else if c = '-' then some .strip else none

/-- Reads an indentation indicator, if one stands here. -/
def indentationIndicator (start : Mark) : Lex Nat := do
  let c := (← get).char
  if c.isDigit then
    if c = '0' then fail .zeroIndentation start
    advance 1
    return c.toNat - 48
  else return 0

/-- Reads the indicators of a block scalar, in either order. -/
def blockHeader (start : Mark) : Lex (Chomping × Nat) := do
  need 1
  match chomping? (← get).char with
  | some chomping =>
    advance 1
    need 1
    return (chomping, ← indentationIndicator start)
  | none =>
    let increment ← indentationIndicator start
    if increment = 0 then return (.clip, 0)
    need 1
    match chomping? (← get).char with
    | some chomping =>
      advance 1
      return (chomping, increment)
    | none => return (.clip, increment)

/-- Reads empty lines and the indentation of the next line, with `indent` zero while the
indentation is not known; gives the line ends and the widest indentation seen. -/
def blockBreaks (start : Mark) (indent : Nat) :
    Nat → (breaks : Array Char) → (widest : Nat) → (stop : Mark) →
      Lex (Array Char × Nat × Mark)
  | 0, breaks, widest, stop => pure (breaks, widest, stop)
  | fuel + 1, breaks, widest, stop => do
    need 1
    let s ← get
    let spaces := (s.rest.takeWhile (· = ' ')).length
    advance (if indent = 0 then spaces else min spaces (indent - s.mark.column))
    need 1
    let s ← get
    let widest := max widest s.mark.column
    if (indent = 0 || s.mark.column < indent) && s.char = '\t' then fail .tabIndentation start
    if isBreak s.char then
      need 2
      let text ← readBreak
      blockBreaks start indent fuel (breaks ++ text) widest (← get).mark
    else return (breaks, widest, stop)

/-- The lines of a block scalar so far: its text, the end of the last line and the empty lines
after it. -/
structure BlockText where
  text : Array Char := #[]
  firstBreak : Array Char := #[]
  moreBreaks : Array Char := #[]
  /-- Whether the last line starts with a blank. -/
  blank : Bool := false

/-- The text with what stands between the last line and a next one, which starts with a blank
or not. -/
def BlockText.joined (b : BlockText) (literal blank : Bool) : Array Char :=
  let fold := !literal && !b.blank && !blank && b.firstBreak[0]? = some '\n'
  let first :=
    if fold then (if b.moreBreaks.isEmpty then #[' '] else #[]) else b.firstBreak
  b.text ++ first ++ b.moreBreaks

/-- Reads the lines of a block scalar whose indentation is known. -/
def blockLines (start : Mark) (literal : Bool) (indent : Nat) :
    Nat → BlockText → Mark → Lex (BlockText × Mark)
  | 0, b, stop => pure (b, stop)
  | fuel + 1, b, stop => do
    let s ← get
    if s.mark.column = indent && s.char ≠ endChar then
      let blank := isBlank s.char
      let text := b.joined literal blank
      let line ← readWhile fun c => !isBreakOrEnd c
      need 2
      let firstBreak ← readBreak
      let s ← get
      let (moreBreaks, _, stop) ← blockBreaks start indent s.fuel #[] 0 s.mark
      blockLines start literal indent fuel
        { text := text ++ line.toArray, firstBreak, moreBreaks, blank } stop
    else return (b, stop)

/-- The text of a block scalar after chomping. -/
def BlockText.chomped (b : BlockText) (chomping : Chomping) : Array Char :=
  match chomping with
  | .strip => b.text
  | .clip => b.text ++ b.firstBreak
  | .keep => b.text ++ b.firstBreak ++ b.moreBreaks

/-- Reads a block scalar. -/
def blockScalar (literal : Bool) : Lex Unit := do
  let start := (← get).mark
  advance 1
  let (chomping, increment) ← blockHeader start
  need 1
  skipBlanks
  if (← get).char = '#' then skipToBreak
  if !isBreakOrEnd (← get).char then fail .commentOrBreak start
  if isBreak (← get).char then
    need 2
    skipBreak
  let s ← get
  let outer := s.indent.toNat
  let given := if increment = 0 then 0 else outer + increment
  let (moreBreaks, widest, stop) ← blockBreaks start given s.fuel #[] 0 s.mark
  let indent := if given = 0 then max widest (max (s.indent + 1).toNat 1) else given
  need 1
  let (b, stop) ← blockLines start literal indent s.fuel { moreBreaks } stop
  push (.scalar (encodeChars (b.chomped chomping)) false) start stop

end Lex

end GrammarCode.Yaml
