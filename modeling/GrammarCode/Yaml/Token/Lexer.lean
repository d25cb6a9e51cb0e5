import Std.Data.HashMap
import GrammarCode.Yaml.Input
import GrammarCode.Yaml.Token.Basic

/-!
# The state of tokenisation

A lexer holds the characters still to be read, the place reached, the open collections and the
tokens found so far. Before characters are looked at they are asked for with `need`, which is
where a fault in the bytes shows. Moving keeps count of lines and columns.
-/

namespace GrammarCode.Yaml

/-- A token that may turn out to start the key of a mapping, once a `:` follows. `required`
says that nothing else may stand there, and `number` which token it is. -/
structure PossibleKey where
  possible : Bool := false
  required : Bool := false
  number : Nat := 0
  mark : Mark := {}
  deriving Repr, Inhabited

/-- The state of tokenisation. -/
structure Lexer where
  /-- The characters not yet read. -/
  rest : List Char
  /-- How many characters there are in all. -/
  total : Nat
  /-- The fault that follows the last character. -/
  fault : Option ReadProblem := none
  /-- How many characters each further window makes available. -/
  bounds : List Nat := []
  /-- How many characters are available so far; beyond the end it counts refills as well. -/
  available : Nat := 0
  /-- The character at which the last window was asked for. -/
  origin : Char := endChar
  /-- A fault met while only looking ahead. -/
  deferred : Option ReadProblem := none
  mark : Mark := {}
  /-- How many lines have ended since the last character that is not blank. -/
  newlines : Nat := 0
  started : Bool := false
  flowLevel : Nat := 0
  indent : Int := -1
  /-- The indentations of the enclosing block collections, the innermost first. -/
  indents : List Int := []
  /-- Whether a key may start at this place. -/
  keyAllowed : Bool := false
  /-- The possible keys, one for each flow level. -/
  keys : Array PossibleKey := #[]
  /-- The flow level of the possible key that starts with a token, by the token's number. -/
  keyLevels : Std.HashMap Nat Nat := ∅
  /-- All tokens found so far. -/
  tokens : Array Token := #[]

/-- Steps of tokenisation, which may end in a fault. -/
abbrev Lex := EStateM Fault Lexer

namespace Lexer

/-- The state before the first character of a text. A text without bytes counts as one line
break. -/
def start (text : Bytes) : Lexer :=
  let input := Input.decode (if text.isEmpty then [0x0A] else text)
  { rest := input.chars.toList
    total := input.chars.size
    fault := input.fault
    bounds := input.bounds.toList }

/-- The character at this place. -/
def char (s : Lexer) : Char := s.rest.headD endChar

/-- The character `n` places ahead. -/
def charAt (s : Lexer) (n : Nat) : Char := (s.rest.drop n).headD endChar

/-- A bound for the number of steps that each read a character. -/
def fuel (s : Lexer) : Nat := s.total + 8 - s.mark.index

/-- Whether a line starts here with `---` or `...` and a gap. -/
def atDocumentIndicator (s : Lexer) : Bool :=
  s.mark.column = 0 &&
    match s.rest with
    | '-' :: '-' :: '-' :: r => isGap (r.headD endChar)
    | '.' :: '.' :: '.' :: r => isGap (r.headD endChar)
    | _ => false

/-- The lexer after `n` characters, none of which ends a line. -/
def advanced (s : Lexer) (n : Nat) : Lexer :=
  { s with
    newlines := if (s.rest.take n).all isBlank then s.newlines else 0
    mark := { s.mark with index := s.mark.index + n, column := s.mark.column + n }
    rest := s.rest.drop n }

/-- The lexer after a line end of `width` characters. -/
def broken (s : Lexer) (width : Nat) : Lexer :=
  { s with
    rest := s.rest.drop width
    mark := { index := s.mark.index + width, line := s.mark.line + 1, column := 0 }
    newlines := s.newlines + 1 }

/-- The width of the line end here, if there is one. -/
def breakWidth (s : Lexer) : Nat :=
  match s.rest with
  | '\r' :: '\n' :: _ => 2
  | c :: _ => if isBreak c then 1 else 0
  | [] => 0

/-- The lexer with enough windows for `n` characters from here, or the fault in the way. -/
def refilled (s : Lexer) (n : Nat) : Except ReadProblem Lexer :=
  let wanted := s.mark.index + n
  match s.bounds.dropWhile (· < wanted) with
  | bound :: more => .ok { s with available := bound, bounds := more, origin := s.char }
  | [] =>
    match s.fault with
    | some problem => .error problem
    | none =>
      .ok { s with available := max s.available s.total + 1, bounds := [], origin := s.char }

end Lexer

namespace Lex

/-- Makes `n` characters from here available. -/
def need (n : Nat) : Lex Unit := do
  let s ← get
  if s.available < s.mark.index + n then
    match s.refilled n with
    | .ok s' => set s'
    | .error problem => throw (.bytes problem)

/-- Makes `n` characters available for looking ahead. A fault is kept for later; the good
characters before it count as available then. -/
def needAhead (n : Nat) : Lex Bool := do
  let s ← get
  if s.available < s.mark.index + n then
    match s.refilled n with
    | .ok s' =>
      set s'
      return true
    | .error problem =>
      set { s with deferred := some problem, available := s.total, bounds := [], origin := s.char }
      return false
  else return true

/-- Ends tokenisation with a problem of a construct that starts at `context`. -/
def fail {α : Type} (problem : TokenProblem) (context : Mark) : Lex α := do
  throw (.token problem context (← get).mark)

/-- Moves over `n` characters, none of which ends a line. -/
def advance (n : Nat) : Lex Unit := modify fun s => s.advanced n

/-- Moves over the line end here. -/
def skipBreak : Lex Unit := modify fun s =>
  match s.breakWidth with
  | 0 => s
  | w => s.broken w

/-- Moves over the line end here and gives the text it stands for: a newline, unless it is a
line or paragraph separator. -/
def readBreak : Lex (Array Char) := do
  let s ← get
  match s.breakWidth with
  | 0 => return #[]
  | w =>
    let c := s.char
    set (s.broken w)
    return if c.toNat = 0x2028 || c.toNat = 0x2029 then #[c] else #['\n']

/-- Moves over the characters of a class that holds no line end, and gives them. -/
def readWhile (p : Char → Bool) : Lex (List Char) := do
  let s ← get
  let run := s.rest.takeWhile p
  set (s.advanced run.length)
  need 1
  return run

/-- Moves over spaces and tabs. -/
def skipBlanks : Lex Unit := do
  let _ ← readWhile isBlank

/-- Moves to the end of the line. -/
def skipToBreak : Lex Unit := do
  let _ ← readWhile fun c => !isBreakOrEnd c

/-- Adds a token after all others. -/
def push (lexeme : Lexeme) (start stop : Mark) : Lex Unit :=
  modify fun s => { s with tokens := s.tokens.push { lexeme, start, stop } }

/-- Adds a token of `n` characters. -/
def pushIndicator (lexeme : Lexeme) (n : Nat) : Lex Unit := do
  let start := (← get).mark
  advance n
  push lexeme start (← get).mark

end Lex

end GrammarCode.Yaml
