import GrammarCode.Cli.Flag
import GrammarCode.Compile.Basic

/-!
# Commands

The first argument of a command line names the command; flags may stand before it. To find it,
a flag that is not known to be a switch is taken to use the next word. A name that is no command
is answered with the names that look like it.
-/

namespace GrammarCode.Cli

/-- The name of the program. -/
def programName : Bytes := "pegc"

/-- A command; `guide` and `completion` only explain the others. -/
inductive Command where
  | check
  | dis
  | json
  | pos
  | version
  | guide
  | completion
  deriving DecidableEq, Repr

namespace Command

/-- The name of a command. -/
def name : Command → Bytes
  | .check => "check"
  | .dis => "dis"
  | .json => "json"
  | .pos => "pos"
  | .version => "version"
  | .guide => "help"
  | .completion => "completion"

/-- All commands. -/
def all : List Command := [.check, .dis, .json, .pos, .version, .guide, .completion]

/-- The flags that every command knows, and that are known before the command is found. -/
def sharedFlags : List Flag :=
  [{ name := "config", kind := .text, default := .text [] },
   { name := "no-color", kind := .switch, default := .truth false },
   { name := "log-level", kind := .text, default := .text "warn" },
   { name := "max-depth", kind := .integer, default := .integer defaultMaxDepth }]

/-- The flag that asks for help. -/
def helpFlag : Flag :=
  { name := "help", letter := some 0x68, kind := .switch, default := .truth false }

/-- The flags that say where a grammar comes from. -/
def inputFlags : List Flag :=
  [{ name := "code", letter := some 0x63, kind := .text, default := .text [] },
   { name := "stdin", kind := .switch, default := .truth false }]

/-- How many bytes are read at a time unless another number is given. -/
def defaultChunk : Int := 4096

/-- The flags of a command's own. -/
def ownFlags : Command → List Flag
  | .check => [{ name := "jobs", letter := some 0x6A, kind := .integer, default := .integer 1 }]
  | .dis => inputFlags ++ [{ name := "stats", kind := .switch, default := .truth false }]
  | .json => inputFlags
  | .pos => [{ name := "chunk", kind := .integer, default := .integer defaultChunk }]
  | _ => []

/-- All flags of a command, or of the program without a command. -/
def flags (c : Option Command) : List Flag :=
  sharedFlags ++ helpFlag :: (c.map ownFlags).getD []

/-- The fewest arguments of a command. -/
def least : Command → Nat
  | .check => 1
  | .pos => 2
  | _ => 0

/-- The most arguments of a command, if there is a limit. -/
def most : Command → Option Nat
  | .dis => some 1
  | .json => some 1
  | .version => some 0
  | _ => none

/-- The command of a name. -/
def ofName? (name : Bytes) : Option Command := all.find? (·.name = name)

/-- Whether a word is a flag that may use the next word. -/
def mayUseNext (word : Bytes) : Bool :=
  let used (f : Option Flag) : Bool := (f.map Flag.takesNext).getD true
  if word.any (· = 0x3D) then false
  else
    match word with
    | 0x2D :: 0x2D :: name => used (Flag.find? sharedFlags name)
    | [0x2D, letter] => used (Flag.findLetter? sharedFlags letter)
    | _ => false

/-- Whether a word starts like a flag. -/
def isDashed (word : Bytes) : Bool := word.head? = some 0x2D

/-- The first argument among words, if there is one. A flag before the last word hides it. -/
def firstArgument (used : Bool) : List Bytes → Option Bytes
  | [] => none
  | word :: rest =>
    if used then firstArgument false rest
    else if word = [0x2D, 0x2D] then none
    else if mayUseNext word then if rest.length ≤ 1 then none else firstArgument true rest
    else if word.isEmpty || isDashed word then firstArgument false rest
    else some word

/-- The words without the first argument, which is `name`. -/
def withoutFirst (name : Bytes) (used : Bool) : List Bytes → List Bytes
  | [] => []
  | word :: rest =>
    if used then word :: withoutFirst name false rest
    else if word = [0x2D, 0x2D] then word :: rest
    else if mayUseNext word then word :: withoutFirst name true rest
    else if word = name then rest
    else word :: withoutFirst name false rest

/-- One row of the table of edit distances: from the row before it and the new byte. -/
def editRow (b : UInt8) (left : Nat) : Bytes → List Nat → List Nat
  | t :: ts, d :: u :: row =>
    let here := if t = b then d else 1 + min (min u left) d
    here :: editRow b here ts (u :: row)
  | _, _ => []

/-- How many bytes have to be inserted, removed or replaced to turn one text into the other. -/
def distance (s t : Bytes) : Nat :=
  let last := (s.foldl (fun (acc : Nat × List Nat) b =>
      (acc.1 + 1, (acc.1 + 1) :: editRow b (acc.1 + 1) t acc.2))
    (0, List.range (t.length + 1))).2
  last.getLast?.getD 0

/-- The largest distance at which a name looks like another. -/
def maxDistance : Nat := 2

/-- Whether a command's name looks like what was typed. -/
def looksLike (typed : Bytes) (c : Command) : Bool :=
  let typed := Settings.lowerName typed
  distance typed c.name ≤ maxDistance || typed.isPrefixOf c.name

/-- The commands to suggest for a name that is none. -/
def suggestions (typed : Bytes) : List Command :=
  all.filter fun c => c ≠ .guide && looksLike typed c

end Command

/-- What is to be run: a command or none, and the words for it. -/
structure Call where
  command : Option Command
  words : List Bytes
  deriving Repr

/-- Finds the command among the words of a command line; a name that is none is the error. -/
def Call.find (words : List Bytes) : Except Bytes Call :=
  match Command.firstArgument false words with
  | none => .ok { command := none, words }
  | some name =>
    match Command.ofName? name with
    | some c => .ok { command := some c, words := Command.withoutFirst name false words }
    | none => .error name

end GrammarCode.Cli
