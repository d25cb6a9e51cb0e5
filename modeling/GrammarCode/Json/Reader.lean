import GrammarCode.Json.Basic

/-!
# Reading JSON

The reader accepts exactly one value with blanks around it. Arrays and objects may nest ten
thousand deep. In strings a lone surrogate and a byte that is no UTF-8 become U+FFFD.
-/

namespace GrammarCode

namespace Json

/-- A space, a tab, a line feed or a carriage return. -/
def isBlank (b : UInt8) : Bool := b = 0x20 || b = 0x09 || b = 0x0A || b = 0x0D

/-- The text after its leading blanks. -/
def skipBlanks (input : Bytes) : Bytes := input.dropWhile isBlank

/-- A decimal digit. -/
def isDigit (b : UInt8) : Bool := 0x30 ≤ b && b ≤ 0x39

/-- The value of a hexadecimal digit. -/
def hexValue? (b : UInt8) : Option Nat :=
  if 0x30 ≤ b && b ≤ 0x39 then some (b.toNat - 0x30)
  else if 0x61 ≤ b && b ≤ 0x66 then some (b.toNat - 0x57)
  else if 0x41 ≤ b && b ≤ 0x46 then some (b.toNat - 0x37)
  else none

/-- The number that four hexadecimal digits give. -/
def hex4? : Bytes → Option Nat
  | a :: b :: c :: d :: _ => do
    let a ← hexValue? a
    let b ← hexValue? b
    let c ← hexValue? c
    let d ← hexValue? d
    pure (((a * 16 + b) * 16 + c) * 16 + d)
  | _ => none

/-- The byte that a one-letter escape stands for. -/
def shortEscape? (b : UInt8) : Option UInt8 :=
  if b = 0x22 || b = 0x5C || b = 0x2F then some b
  else if b = 0x62 then some 0x08
  else if b = 0x66 then some 0x0C
  else if b = 0x6E then some 0x0A
  else if b = 0x72 then some 0x0D
  else if b = 0x74 then some 0x09
  else none

/-- The text of a string up to its closing quote, escapes kept, and what follows the quote.
Control characters and unknown escapes are refused; the first `held` bytes belong to an
escape. -/
def rawString (held : Nat) : Bytes → Option (Bytes × Bytes)
  | [] => none
  | b :: rest =>
    match held with
    | k + 1 => (rawString k rest).map fun r => (b :: r.1, r.2)
    | 0 =>
      if b = 0x22 then some ([], rest)
      else if b < 0x20 then none
      else if b = 0x5C then
        match rest with
        | [] => none
        | e :: digits =>
          if (shortEscape? e).isSome then (rawString 1 rest).map fun r => (b :: r.1, r.2)
          else if e = 0x75 && (hex4? digits).isSome then
            (rawString 5 rest).map fun r => (b :: r.1, r.2)
          else none
      else (rawString 0 rest).map fun r => (b :: r.1, r.2)

/-- The code that a `\u` escape at the start of a text gives. -/
def unicodeAt? : Bytes → Option Nat
  | 0x5C :: 0x75 :: digits => hex4? digits
  | _ => none

/-- The bytes of a code point; a surrogate gives those of U+FFFD. -/
def codeBytes (code : Nat) : Bytes :=
  String.utf8EncodeChar
    (if 0xD800 ≤ code && code ≤ 0xDFFF then Char.ofNat 0xFFFD else Char.ofNat code)

/-- The code point of a surrogate pair. -/
def pairCode? (high low : Nat) : Option Nat :=
  if 0xD800 ≤ high && high < 0xDC00 && 0xDC00 ≤ low && low < 0xE000 then
    some ((high - 0xD800) * 1024 + (low - 0xDC00) + 0x10000)
  else none

/-- Undoes the escapes of a text after its first `skip` bytes, which are done already. -/
def unescapeAfter (skip : Nat) : Bytes → Bytes
  | [] => []
  | b :: rest =>
    match skip with
    | k + 1 => unescapeAfter k rest
    | 0 =>
      if b = 0x5C then
        match unicodeAt? (b :: rest) with
        | some u =>
          match (unicodeAt? (rest.drop 5)).bind (pairCode? u) with
          | some code => codeBytes code ++ unescapeAfter 11 rest
          | none => codeBytes u ++ unescapeAfter 5 rest
        | none =>
          match rest.head?.bind shortEscape? with
          | some e => e :: unescapeAfter 1 rest
          | none => unescapeAfter 0 rest
      else b :: unescapeAfter 0 rest

/-- The string that a text between quotes spells. -/
def unescape (raw : Bytes) : Bytes := Utf8.repair (unescapeAfter 0 raw)

/-- A string after its opening quote, and what follows it. -/
def string? (input : Bytes) : Option (Bytes × Bytes) :=
  (rawString 0 input).map fun r => (unescape r.1, r.2)

/-- One or more digits, and what follows them. -/
def digits? (input : Bytes) : Option (Bytes × Bytes) :=
  let ds := input.takeWhile isDigit
  if ds.isEmpty then none else some (ds, input.dropWhile isDigit)

/-- The whole part of a number: zero, or digits that do not start with zero. -/
def whole? : Bytes → Option (Bytes × Bytes)
  | 0x30 :: rest => some ([0x30], rest)
  | input => digits? input

/-- The fraction of a number, if there is one. -/
def fraction? : Bytes → Option (Bytes × Bytes)
  | 0x2E :: rest => (digits? rest).map fun r => (0x2E :: r.1, r.2)
  | input => some ([], input)

/-- The exponent of a number, if there is one. -/
def exponent? : Bytes → Option (Bytes × Bytes)
  | e :: rest =>
    if e = 0x65 || e = 0x45 then
      match rest with
      | s :: more =>
        if s = 0x2B || s = 0x2D then (digits? more).map fun r => (e :: s :: r.1, r.2)
        else (digits? rest).map fun r => (e :: r.1, r.2)
      | [] => none
    else some ([], e :: rest)
  | [] => some ([], [])

/-- A number as written, and what follows it. -/
def number? (input : Bytes) : Option (Bytes × Bytes) := do
  let (sign, unsigned) :=
    match input with
    | 0x2D :: rest => (([0x2D] : Bytes), rest)
    | _ => ([], input)
  let (w, rest) ← whole? unsigned
  let (f, rest) ← fraction? rest
  let (e, rest) ← exponent? rest
  pure (sign ++ w ++ f ++ e, rest)

/-- What follows a given word at the start of a text. -/
def after? (word input : Bytes) : Option Bytes :=
  if word.isPrefixOf input then some (input.drop word.length) else none

mutual

/-- Reads a value that may open `depth` more levels. Every call takes a byte of the text, so a
`fuel` above the length of the text is never used up. -/
def value (fuel depth : Nat) (input : Bytes) : Option (Json × Bytes) :=
  match fuel with
  | 0 => none
  | fuel + 1 =>
    match skipBlanks input with
    | [] => none
    | b :: rest =>
      if b = 0x22 then (string? rest).map fun r => (.string r.1, r.2)
      else if b = 0x5B then
        match depth with
        | 0 => none
        | d + 1 =>
          match skipBlanks rest with
          | 0x5D :: after => some (.array [], after)
          | _ => (items fuel d rest).map fun r => (.array r.1, r.2)
      else if b = 0x7B then
        match depth with
        | 0 => none
        | d + 1 =>
          match skipBlanks rest with
          | 0x7D :: after => some (.object [], after)
          | _ => (fields fuel d rest).map fun r => (.object r.1, r.2)
      else if b = 0x74 then (after? "true" (b :: rest)).map fun r => (.bool true, r)
      else if b = 0x66 then (after? "false" (b :: rest)).map fun r => (.bool false, r)
      else if b = 0x6E then (after? "null" (b :: rest)).map fun r => (.null, r)
      else (number? (b :: rest)).map fun r => (.number r.1, r.2)

/-- Reads the items of an array up to its bracket. -/
def items (fuel depth : Nat) (input : Bytes) : Option (List Json × Bytes) :=
  match fuel with
  | 0 => none
  | fuel + 1 => do
    let (v, rest) ← value fuel depth input
    match skipBlanks rest with
    | 0x5D :: after => pure ([v], after)
    | 0x2C :: more => do
      let (vs, after) ← items fuel depth more
      pure (v :: vs, after)
    | _ => none

/-- Reads the fields of an object up to its brace. -/
def fields (fuel depth : Nat) (input : Bytes) : Option (List (Bytes × Json) × Bytes) :=
  match fuel with
  | 0 => none
  | fuel + 1 =>
    match skipBlanks input with
    | 0x22 :: rest => do
      let (name, rest) ← string? rest
      match skipBlanks rest with
      | 0x3A :: rest => do
        let (v, rest) ← value fuel depth rest
        match skipBlanks rest with
        | 0x7D :: after => pure ([(name, v)], after)
        | 0x2C :: more => do
          let (vs, after) ← fields fuel depth more
          pure ((name, v) :: vs, after)
        | _ => none
      | _ => none
    | _ => none

end

/-- The deepest nesting of arrays and objects that is read. -/
def maxNesting : Nat := 10000

/-- The value of a text that is one JSON value and blanks. -/
def parse? (input : Bytes) : Option Json :=
  match value (2 * input.length + 2) maxNesting input with
  | some (v, rest) => if (skipBlanks rest).isEmpty then some v else none
  | none => none

end Json

end GrammarCode
