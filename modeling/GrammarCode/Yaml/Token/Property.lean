import GrammarCode.Yaml.Token.Comment

/-!
# Anchors, aliases, tags and directives

An anchor names a node and an alias refers to one by that name. A tag is written in full
between `!<` and `>`, or as a handle and a suffix; its text may hold octets written as `%`
and two hexadecimal digits. A directive gives the version of the format or the expansion of a
handle.
-/

namespace GrammarCode.Yaml.Lex

/-- Characters that may follow the name of an anchor without a gap. -/
def endsName (c : Char) : Bool :=
  isGap c || c = '?' || c = ':' || c = ',' || c = ']' || c.toNat = 0x7D || c = '%' || c = '@'
    || c.toNat = 0x60

/-- The UTF-8 bytes of characters in a list. -/
def encodeList (chars : List Char) : Bytes := chars.flatMap String.utf8EncodeChar

/-- Reads the name of an anchor or of an alias. -/
def anchorName (lexeme : Bytes → Lexeme) : Lex Unit := do
  let start := (← get).mark
  advance 1
  need 1
  let name ← readWhile isNameChar
  let s ← get
  if name.isEmpty || !endsName s.char then fail .anchorName start
  push (lexeme (encodeList name)) start s.mark

/-- Characters of a tag's text, `%` apart. -/
def isUriChar (c : Char) : Bool :=
  isNameChar c || c = ';' || c = '/' || c = '?' || c = ':' || c = '@' || c = '&' || c = '='
    || c = '+' || c = '$' || c = ',' || c = '.' || c = '!' || c = '~' || c = '*' || c = '\''
    || c = '(' || c = ')' || c = '[' || c = ']'

/-- The octet written as `%` and two digits at the front. -/
def escapedOctet? : List Char → Option UInt8
  | '%' :: a :: b :: _ =>
    match hexValue? a, hexValue? b with
    | some x, some y => some (x * 16 + y).toUInt8
    | _, _ => none
  | _ => none

/-- Reads `n` escaped octets that continue a character. -/
def trailingOctets (start : Mark) : Nat → Bytes → Lex Bytes
  | 0, octets => pure octets
  | n + 1, octets => do
    need 3
    match escapedOctet? (← get).rest with
    | none => fail .uriEscape start
    | some b =>
      if !Utf8.isTail b then fail .uriTrailingOctet start
      advance 3
      trailingOctets start n (octets ++ [b])

/-- Reads a character whose octets are escaped. -/
def escapedChar (start : Mark) : Lex Bytes := do
  need 3
  match escapedOctet? (← get).rest with
  | none => fail .uriEscape start
  | some b =>
    match Front.octets? b with
    | none => fail .uriLeadingOctet start
    | some width =>
      advance 3
      trailingOctets start (width - 1) [b]

/-- Reads the text of a tag, run by run, after `text`. -/
def uriRuns (start : Mark) : Nat → Bytes → Lex Bytes
  | 0, text => pure text
  | fuel + 1, text => do
    let run ← readWhile isUriChar
    let text := text ++ encodeList run
    if (← get).char = '%' then
      let octets ← escapedChar start
      need 1
      uriRuns start fuel (text ++ octets)
    else return text

/-- Reads the text of a tag. Without `head`, the characters read before it, some text has to
follow. -/
def tagUri (start : Mark) (head : Option Bytes) : Lex Bytes := do
  need 1
  let s ← get
  if head.isNone && !(isUriChar s.char || s.char = '%') then fail .tagUri start
  uriRuns start s.fuel (head.getD [])

/-- Reads a handle: `!`, letters, and a second `!` if there is one. In a directive the second
one may only be missing after no letters. -/
def tagHandle (start : Mark) (directive : Bool) : Lex Bytes := do
  need 1
  if (← get).char ≠ '!' then fail .tagMark start
  advance 1
  need 1
  let name ← readWhile isNameChar
  let open_ := 0x21 :: encodeList name
  if (← get).char = '!' then
    advance 1
    return open_ ++ [0x21]
  else
    if directive && !name.isEmpty then fail .tagMark start
    return open_

/-- The handle and the suffix of a tag that is not written in full. What looked like a handle
without a second `!` is the beginning of the suffix; `!` alone stands for itself. -/
def shorthand (start : Mark) : Lex (Bytes × Bytes) := do
  let handle ← tagHandle start false
  if 1 < handle.length && handle.getLast? = some 0x21 then
    return (handle, ← tagUri start none)
  else
    let suffix ← tagUri start (some (handle.drop 1))
    return if suffix.isEmpty then ([], handle) else ([0x21], suffix)

/-- Reads a tag. -/
def tag : Lex Unit := do
  let start := (← get).mark
  need 2
  let (handle, suffix) ← do
    if (← get).charAt 1 = '<' then
      advance 2
      let text ← tagUri start none
      if (← get).char ≠ '>' then fail .tagBracket start
      advance 1
      pure ([], text)
    else shorthand start
  need 1
  let s ← get
  if !isGap s.char then fail .whitespaceOrBreak start
  push (.tag handle suffix) start s.mark

/-- Reads a number of a version, of one or two digits. -/
def versionNumber (start : Mark) : Lex Nat := do
  need 1
  let digits := (← get).rest.takeWhile Char.isDigit
  if digits.isEmpty then fail .versionNumber start
  if 2 < digits.length then
    advance 2
    fail .versionLength start
  advance digits.length
  need 1
  return digits.foldl (fun n c => n * 10 + (c.toNat - 48)) 0

/-- Reads the version of a `%YAML` directive. -/
def versionDirective (start : Mark) : Lex Lexeme := do
  need 1
  skipBlanks
  let major ← versionNumber start
  if (← get).char ≠ '.' then fail .versionDot start
  advance 1
  return .version major (← versionNumber start)

/-- Reads the handle of a `%TAG` directive and its expansion. -/
def handleDirective (start : Mark) : Lex Lexeme := do
  need 1
  skipBlanks
  let name ← tagHandle start true
  need 1
  if !isBlank (← get).char then fail .whitespace start
  skipBlanks
  let expansion ← tagUri start none
  need 1
  if !isGap (← get).char then fail .whitespaceOrBreak start
  return .handle name expansion

/-- Reads a directive and the rest of its line. -/
def directive : Lex Unit := do
  let start := (← get).mark
  advance 1
  need 1
  let name := String.ofList (← readWhile isNameChar)
  if name.isEmpty then fail .directiveName start
  if !isGap (← get).char then fail .directiveCharacter start
  let lexeme ←
    if name = "YAML" then versionDirective start
    else if name = "TAG" then handleDirective start
    else fail .unknownDirective start
  let stop := (← get).mark
  need 1
  skipBlanks
  if (← get).char = '#' then skipToBreak
  if !isBreakOrEnd (← get).char then fail .commentOrBreak start
  if isBreak (← get).char then
    need 2
    skipBreak
  push lexeme start stop

end GrammarCode.Yaml.Lex
