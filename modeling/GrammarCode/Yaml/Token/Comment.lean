import GrammarCode.Yaml.Token.Lexer

/-!
# Comments and the space between tokens

A comment runs from a `#` to the end of its line. After a token a comment on the same line is
read at once, and a comment on a line of its own takes with it the comments that follow on the
next lines. Looking for a further comment goes at most 512 characters ahead.
-/

namespace GrammarCode.Yaml.Lex

/-- How far ahead a comment is looked for. -/
def commentReach : Nat := 512

/-- Reads the comment that follows on the line of a token. -/
def lineComment : Lex Unit := do
  let s ← get
  if s.newlines = 0 then
    let gap := ((s.rest.take commentReach).takeWhile isBlank).length
    if gap = commentReach then
      let _ ← needAhead gap
    else if ← needAhead (gap + 1) then
      if s.charAt gap = '#' then
        advance gap
        skipToBreak

/-- Blanks and the line ends of one byte. -/
def isPlainGap (c : Char) : Bool := isBlank c || c = '\n' || c = '\r'

/-- Moves over `n` blanks and line ends. -/
def skipGap : Nat → Lex Unit
  | 0 => pure ()
  | n + 1 => do
    let s ← get
    match s.breakWidth with
    | 0 =>
      advance 1
      skipGap n
    | 2 =>
      skipBreak
      skipGap (n - 1)
    | _ =>
      skipBreak
      skipGap n

/-- Reads the comment here and the comments on lines of their own that follow it. -/
def comments : Nat → Lex Unit
  | 0 => pure ()
  | fuel + 1 => do
    skipToBreak
    let s ← get
    if isPlainGap s.char then
      let gap := (((s.rest.drop 1).take (commentReach - 1)).takeWhile isPlainGap).length + 1
      if gap = commentReach then
        let _ ← needAhead gap
      else if ← needAhead (gap + 1) then
        if s.charAt gap = '#' then
          skipGap gap
          comments fuel
    else
      let _ ← needAhead 2

/-- The byte order mark. -/
def byteOrderMark : Char := Char.ofNat 0xFEFF

/-- Moves to the next token. Tabs separate tokens only where no key may start. At the start of
a line, one character is passed over when the last window began with a byte order mark. -/
def toToken : Nat → Lex Unit
  | 0 => pure ()
  | fuel + 1 => do
    need 1
    let s ← get
    if s.mark.column = 0 && s.origin = byteOrderMark then advance 1
    need 1
    let s ← get
    let tabs := 0 < s.flowLevel || !s.keyAllowed
    let _ ← readWhile fun c => c = ' ' || (tabs && c = '\t')
    if (← get).char = '#' then comments fuel
    if isBreak (← get).char then
      need 2
      skipBreak
      modify fun s => if s.flowLevel = 0 then { s with keyAllowed := true } else s
      toToken fuel

end GrammarCode.Yaml.Lex
