import GrammarCode.Settings.Value

/-!
# Flags

A command line holds flags and arguments in any order. A flag has a long name after `--` and may
have a letter after `-`; letters can be run together. A switch takes a value only after `=`;
every other flag takes what follows `=`, the rest of its letters or the next word. The word `--`
ends the flags.
-/

namespace GrammarCode.Cli

open Settings (Value)

/-- What a flag takes. -/
inductive FlagKind where
  | switch
  | integer
  | text
  deriving DecidableEq, Repr

/-- A flag that a command knows. -/
structure Flag where
  name : Bytes
  letter : Option UInt8 := none
  kind : FlagKind
  /-- The value of the setting when it is given nowhere. -/
  default : Value
  deriving Repr

/-- Why the text given to a flag is not a value. -/
inductive ValueError where
  | integer (text : Bytes) (e : IntegerError)
  | truth (text : Bytes)
  deriving DecidableEq, Repr

/-- The wording of an error. -/
def ValueError.message : ValueError → Bytes
  | .integer text e => Bytes.cat ["strconv.ParseInt: parsing ", Text.quoted text, ": ", e.text]
  | .truth text => Bytes.cat ["strconv.ParseBool: parsing ", Text.quoted text, ": invalid syntax"]

/-- The value that a text gives to a flag of a kind. -/
def FlagKind.read (kind : FlagKind) (text : Bytes) : Except ValueError Value :=
  match kind with
  | .switch =>
    match Integer.truth? text with
    | some b => .ok (.truth b)
    | none => .error (.truth text)
  | .integer =>
    match Integer.parse text with
    | .ok n => .ok (.integer n)
    | .error e => .error (.integer text e)
  | .text => .ok (.text text)

/-- Why the flags of a command line are refused. -/
inductive FlagError where
  | malformed (word : Bytes)
  | unknown (name : Bytes)
  | unknownLetter (letter : UInt8) (letters : Bytes)
  | needsValue (word : Bytes)
  | letterNeedsValue (letter : UInt8) (letters : Bytes)
  | badValue (text shown : Bytes) (e : ValueError)
  deriving DecidableEq, Repr

/-- A letter between single quotes. -/
def quotedLetter (letter : UInt8) : Bytes :=
  let c := Char.ofNat letter.toNat
  let body : Bytes :=
    if letter = 0x27 then [0x5C, 0x27]
    else if letter = 0x22 then [0x22]
    else Text.Quoted.item (.char c)
  0x27 :: body ++ [0x27]

/-- The wording of an error. -/
def FlagError.message : FlagError → Bytes
  | .malformed word => Bytes.cat ["bad flag syntax: ", word]
  | .unknown name => Bytes.cat ["unknown flag: --", name]
  | .unknownLetter letter letters =>
    Bytes.cat ["unknown shorthand flag: ", quotedLetter letter, " in -", letters]
  | .needsValue word => Bytes.cat ["flag needs an argument: ", word]
  | .letterNeedsValue letter letters =>
    Bytes.cat ["flag needs an argument: ", quotedLetter letter, " in -", letters]
  | .badValue text shown e =>
    Bytes.cat ["invalid argument ", Text.quoted text, " for ", Text.quoted shown, " flag: ",
      e.message]

namespace Flag

/-- A flag as messages show it. -/
def shown (f : Flag) : Bytes :=
  match f.letter with
  | some l => Bytes.cat ["-", [l], ", --", f.name]
  | none => Bytes.cat ["--", f.name]

/-- The flag of a long name. -/
def find? (flags : List Flag) (name : Bytes) : Option Flag := flags.find? (·.name = name)

/-- The flag of a letter. -/
def findLetter? (flags : List Flag) (letter : UInt8) : Option Flag :=
  flags.find? (·.letter = some letter)

/-- Whether a flag takes the next word when no value is joined to it. -/
def takesNext (f : Flag) : Bool := f.kind ≠ .switch

end Flag

/-- What a command line gives: the values of flags, the latest first, and the arguments. -/
structure Given where
  values : List (Bytes × Value) := []
  arguments : List Bytes := []
  deriving Repr, Inhabited

namespace Given

/-- Gives a text to a flag. -/
def assign (g : Given) (f : Flag) (text : Bytes) : Except FlagError Given :=
  match f.kind.read text with
  | .ok v => .ok { g with values := (f.name, v) :: g.values }
  | .error e => .error (.badValue text f.shown e)

/-- Takes a word of the form `--name` or `--name=value`; says whether the next word was used. -/
def takeLong (flags : List Flag) (g : Given) (word : Bytes) (next : Option Bytes) :
    Except FlagError (Given × Bool) :=
  let body := word.drop 2
  let name := body.takeWhile (· ≠ 0x3D)
  if name.isEmpty || name.head? = some 0x2D then .error (.malformed word)
  else
    match Flag.find? flags name with
    | none => .error (.unknown name)
    | some f =>
      if name.length < body.length then
        (g.assign f (body.drop (name.length + 1))).map fun g => (g, false)
      else if !f.takesNext then (g.assign f "true").map fun g => (g, false)
      else
        match next with
        | some text => (g.assign f text).map fun g => (g, true)
        | none => .error (.needsValue word)

/-- Letters that a test runner adds; they are passed over. -/
def isTestRunner (letters : Bytes) : Bool := ("test." : Bytes).isPrefixOf letters

/-- Takes letters that are run together; says whether the next word was used. -/
def takeLetters (flags : List Flag) (g : Given) (next : Option Bytes) :
    Bytes → Except FlagError (Given × Bool)
  | [] => .ok (g, false)
  | letter :: rest =>
    if isTestRunner (letter :: rest) then .ok (g, false)
    else
      match Flag.findLetter? flags letter with
      | none => .error (.unknownLetter letter (letter :: rest))
      | some f =>
        if rest.head? = some 0x3D && 1 < rest.length then
          (g.assign f (rest.drop 1)).map fun g => (g, false)
        else if !f.takesNext then
          match g.assign f "true" with
          | .ok g => takeLetters flags g next rest
          | .error e => .error e
        else if !rest.isEmpty then (g.assign f rest).map fun g => (g, false)
        else
          match next with
          | some text => (g.assign f text).map fun g => (g, true)
          | none => .error (.letterNeedsValue letter (letter :: rest))

/-- Whether a word is an argument and not a flag. -/
def isArgument (word : Bytes) : Bool := word.head? ≠ some 0x2D || word.length = 1

/-- Takes the words of a command line; a word that a flag has used is passed over. -/
def take (flags : List Flag) (g : Given) (used : Bool) : List Bytes → Except FlagError Given
  | [] => .ok g
  | word :: rest =>
    if used then take flags g false rest
    else if isArgument word then
      take flags { g with arguments := g.arguments ++ [word] } false rest
    else if word = [0x2D, 0x2D] then .ok { g with arguments := g.arguments ++ rest }
    else
      let taken :=
        if word.take 2 = [0x2D, 0x2D] then takeLong flags g word rest.head?
        else takeLetters flags g rest.head? (word.drop 1)
      match taken with
      | .ok (g, used) => take flags g used rest
      | .error e => .error e

end Given

end GrammarCode.Cli
