import GrammarCode.Files.Path
import GrammarCode.Text.Utf8

/-!
# Glob patterns

In a pattern `*` stands for any characters of one name, `?` for one character, `[...]` for one
character of a class, and `**` as a whole component for any number of directories. `{a,b}`
stands for either alternative. A backslash takes the next character as it is.
-/

namespace GrammarCode.Glob

/-- One piece of the pattern of a name. -/
inductive Piece where
  /-- Any characters, or none. -/
  | any
  /-- One character. -/
  | one
  /-- One character in one of the ranges, or in none of them. -/
  | oneOf (negated : Bool) (ranges : List (Char × Char))
  /-- This character. -/
  | exactly (c : Char)
  deriving DecidableEq, Repr

namespace Piece

/-- Whether a piece that stands for one character can stand for this one. -/
def fits (p : Piece) (c : Char) : Bool :=
  match p with
  | .any => false
  | .one => true
  | .oneOf negated ranges => (ranges.any fun r => r.1 ≤ c && c ≤ r.2) != negated
  | .exactly x => x = c

end Piece

/-- For every place in a name, whether a list of flags holds from there on somewhere. -/
def somewhere : List Bool → List Bool
  | [] => []
  | b :: rest =>
    let more := somewhere rest
    (b || more.headD false) :: more

/-- For every place in a name, the end included, whether the pieces match all that follows. -/
def matchRow (name : List Char) : List Piece → List Bool
  | [] => name.map (fun _ => false) ++ [true]
  | .any :: rest => somewhere (matchRow name rest)
  | p :: rest => (name.zip (matchRow name rest).tail).map (fun e => p.fits e.1 && e.2) ++ [false]

/-- Whether pieces match a whole name. -/
def pieceMatch (pieces : List Piece) (name : List Char) : Bool :=
  (matchRow name pieces).headD false

/-- A character that may be escaped, and what follows it. -/
def literal? : List Char → Option (Char × List Char)
  | '\\' :: c :: rest => some (c, rest)
  | c :: rest => some (c, rest)
  | [] => none

/-- The ranges of a class up to its bracket, and what follows it. `last` is the character
before, if a range can start with it; the fuel is the length of the text. -/
def classRanges : Nat → (last : Option Char) → List Char →
    List (Char × Char) × List Char
  | 0, _, rest => ([], rest)
  | _ + 1, _, [] => ([], [])
  | _ + 1, _, ']' :: rest => ([], rest)
  | fuel + 1, last, c :: rest =>
    match last, c, rest with
    | some low, '-', d :: more =>
      if d = ']' then
        let (ranges, after) := classRanges fuel (some '-') rest
        (('-', '-') :: ranges, after)
      else
        let (high, after) := (literal? (d :: more)).getD ('-', [])
        let (ranges, after) := classRanges fuel none after
        ((low, high) :: ranges, after)
    | _, _, _ =>
      let (x, after) := (literal? (c :: rest)).getD (c, rest)
      let (ranges, after) := classRanges fuel (some x) after
      ((x, x) :: ranges, after)

/-- The pieces of a name's pattern; the fuel is the length of the text. -/
def pieces : Nat → List Char → List Piece
  | 0, _ => []
  | _ + 1, [] => []
  | fuel + 1, c :: rest =>
    match c with
    | '*' => .any :: pieces fuel rest
    | '?' => .one :: pieces fuel rest
    | '[' =>
      let (negated, body) :=
        match rest with
        | '!' :: more => (true, more)
        | '^' :: more => (true, more)
        | _ => (false, rest)
      let (ranges, after) := classRanges body.length none body
      .oneOf negated ranges :: pieces fuel after
    | '\\' =>
      match rest with
      | x :: more => .exactly x :: pieces fuel more
      | [] => []
    | _ => .exactly c :: pieces fuel rest

/-- Three stars or more at the end of a pattern stand for at least one character. -/
def settleStars (ps : List Piece) : List Piece :=
  let stars := (ps.reverse.takeWhile (· = .any)).length
  if 2 < stars then ps ++ [.one] else ps

/-- The characters that bytes show. -/
def shown (b : Bytes) : List Char := (Utf8.glyphs b).map Glyph.shown

/-- Whether the pattern of a name matches a name. -/
def nameMatches (pattern name : Bytes) : Bool :=
  let cs := shown pattern
  pieceMatch (settleStars (pieces cs.length cs)) (shown name)

/-- The rest of a class after its opening bracket, if it is closed and not empty. -/
def afterClass? (body : Bytes) : Option Bytes :=
  let body :=
    match body with
    | 0x5E :: more => more
    | 0x21 :: more => more
    | _ => body
  if body.head? = some 0x5D then none else close body.length body
where
  /-- What follows the closing bracket. -/
  close : Nat → Bytes → Option Bytes
    | 0, _ => none
    | _ + 1, [] => none
    | _ + 1, 0x5D :: rest => some rest
    | fuel + 1, 0x5C :: rest => close fuel (rest.drop 1)
    | fuel + 1, _ :: rest => close fuel rest

/-- Whether classes and alternatives are closed and no backslash ends the pattern; `depth`
alternatives are open, and the fuel is the length of the text. -/
def wellFormed : Nat → (depth : Nat) → Bytes → Bool
  | 0, depth, _ => depth = 0
  | _ + 1, depth, [] => depth = 0
  | fuel + 1, depth, b :: rest =>
    if b = 0x5C then !rest.isEmpty && wellFormed fuel depth (rest.drop 1)
    else if b = 0x5B then
      match afterClass? rest with
      | some after => wellFormed fuel depth after
      | none => false
    else if b = 0x7B then wellFormed fuel (depth + 1) rest
    else if b = 0x7D then 0 < depth && wellFormed fuel (depth - 1) rest
    else wellFormed fuel depth rest

/-- Whether a pattern is well-formed. -/
def isValid (pattern : Bytes) : Bool := wellFormed pattern.length 0 pattern

/-- Whether an unescaped special character occurs. -/
def hasMeta : Bytes → Bool
  | [] => false
  | 0x5C :: rest =>
    match rest with
    | [] => false
    | _ :: more => hasMeta more
  | b :: rest => b = 0x2A || b = 0x3F || b = 0x5B || b = 0x7B || hasMeta rest

/-- A pattern without special characters as a path: backslashes before them are dropped. -/
def unescape : Bytes → Bytes
  | 0x5C :: b :: rest =>
    if b = 0x2A || b = 0x3F || b = 0x5B || b = 0x5D || b = 0x7B || b = 0x7D then
      b :: unescape rest
    else 0x5C :: unescape (b :: rest)
  | b :: rest => b :: unescape rest
  | [] => []

/-- The directory before the first component with a special character, and the rest; `here` is
the component read so far and `base` what stands before it, both in reverse. -/
def splitFrom (base : Option Bytes) (here : Bytes) : Bytes → Option Bytes × Bytes
  | [] => (base, here.reverse)
  | 0x2F :: rest =>
    let outer := match base with
      | some b => here ++ 0x2F :: b
      | none => here
    splitFrom (some outer) [] rest
  | 0x5C :: rest =>
    match rest with
    | [] => (base, (0x5C :: here).reverse)
    | c :: more => splitFrom base (c :: 0x5C :: here) more
  | b :: rest =>
    if b = 0x2A || b = 0x3F || b = 0x5B || b = 0x7B then (base, here.reverse ++ b :: rest)
    else splitFrom base (b :: here) rest

/-- The directory in which a pattern's search starts, and the pattern from there on. -/
def split (pattern : Bytes) : Bytes × Bytes :=
  match splitFrom none [] pattern with
  | (none, rest) => ([0x2E], rest)
  | (some base, rest) => if base.isEmpty then ([0x2F], rest) else (unescape base.reverse, rest)

/-- The body of alternatives up to their closing brace, and what follows it. -/
def braceBody (depth : Nat) (body : Bytes) : Bytes → Option (Bytes × Bytes)
  | [] => none
  | 0x5C :: rest =>
    match rest with
    | [] => none
    | c :: more => braceBody depth (c :: 0x5C :: body) more
  | b :: rest =>
    if b = 0x7B then braceBody (depth + 1) (b :: body) rest
    else if b = 0x7D then
      match depth with
      | 0 => some (body.reverse, rest)
      | d + 1 => braceBody d (b :: body) rest
    else braceBody depth (b :: body) rest

/-- The first alternatives of a pattern: what stands before them, between and after. -/
def firstBraces (before : Bytes) : Bytes → Option (Bytes × Bytes × Bytes)
  | [] => none
  | 0x5C :: rest =>
    match rest with
    | [] => none
    | c :: more => firstBraces (c :: 0x5C :: before) more
  | b :: rest =>
    if b = 0x7B then
      match braceBody 0 [] rest with
      | some (body, after) => some (before.reverse, body, after)
      | none => firstBraces (b :: before) rest
    else firstBraces (b :: before) rest

/-- The alternatives of a body; an empty one at the end does not count. -/
def alternatives (depth : Nat) (here : Bytes) : Bytes → List Bytes
  | [] => if here.isEmpty then [] else [here.reverse]
  | 0x5C :: rest =>
    match rest with
    | [] => [(0x5C :: here).reverse]
    | c :: more => alternatives depth (c :: 0x5C :: here) more
  | b :: rest =>
    if b = 0x2C && depth = 0 then here.reverse :: alternatives 0 [] rest
    else if b = 0x7B then alternatives (depth + 1) (b :: here) rest
    else if b = 0x7D then alternatives (depth - 1) (b :: here) rest
    else alternatives depth (b :: here) rest

/-- The patterns without alternatives that a pattern stands for. Every step removes a pair of
braces, so the length of the pattern is fuel enough. -/
def expansions : Nat → Bytes → List Bytes
  | 0, pattern => [pattern]
  | fuel + 1, pattern =>
    match firstBraces [] pattern with
    | none => [pattern]
    | some (before, body, after) =>
      (alternatives 0 [] body).flatMap fun a => expansions fuel (before ++ a ++ after)

end GrammarCode.Glob
