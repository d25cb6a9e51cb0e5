import GrammarCode.Cli.Command
import GrammarCode.Grammar.Error
import GrammarCode.Program.Listing
import GrammarCode.Settings.File
import GrammarCode.Source.Stream

/-!
# Errors of commands

Everything that can end a command, with its wording.
-/

namespace GrammarCode.Cli

/-- Why a command failed. -/
inductive CommandError where
  | flag (e : FlagError)
  | unknownCommand (typed : Bytes)
  | unexpectedArgument (argument : Bytes) (c : Command)
  | tooFewArguments (least given : Nat)
  | tooManyArguments (most given : Nat)
  | config (e : Settings.ConfigError)
  | logLevel (text : Bytes)
  | noJobs
  | invalidPattern (pattern : Bytes)
  | malformedPattern
  | nothingToCheck
  | failedGrammars (failed all : Nat)
  | severalInputs
  | noInput
  | input (text : Bytes)
  | file (e : FileError)
  | grammar (e : GrammarError)
  | compile (e : CompileError)
  | listing (e : ListingError)
  | stream (e : StreamError)
  | offset (text : Bytes)
  | chunk
  | broken
  deriving DecidableEq, Repr

/-- The suggestions for a name that is no command. -/
def suggestionText (typed : Bytes) : Bytes :=
  match Command.suggestions typed with
  | [] => []
  | cs => Bytes.cat ["\n\nDid you mean this?\n", cs.flatMap fun c => Bytes.cat ["\t", c.name, "\n"]]

/-- The wording of an error. -/
def CommandError.message : CommandError → Bytes
  | .flag e => e.message
  | .unknownCommand typed =>
    Bytes.cat ["unknown command ", Text.quoted typed, " for ", Text.quoted programName,
      suggestionText typed]
  | .unexpectedArgument argument c =>
    Bytes.cat ["unknown command ", Text.quoted argument, " for ",
      Text.quoted (Bytes.cat [programName, " ", c.name])]
  | .tooFewArguments least given =>
    Bytes.cat ["requires at least ", Bytes.decimalNat least, " arg(s), only received ",
      Bytes.decimalNat given]
  | .tooManyArguments most given =>
    Bytes.cat ["accepts at most ", Bytes.decimalNat most, " arg(s), received ",
      Bytes.decimalNat given]
  | .config e => e.message
  | .logLevel text => Bytes.cat ["invalid log level ", Text.quoted text]
  | .noJobs => "jobs must be at least 1"
  | .invalidPattern pattern => Bytes.cat ["invalid pattern ", Text.quoted pattern]
  | .malformedPattern => "syntax error in pattern"
  | .nothingToCheck => "no grammar files matched"
  | .failedGrammars failed all =>
    Bytes.cat [Bytes.decimalNat failed, " of ", Bytes.decimalNat all, " grammars failed"]
  | .severalInputs => "multiple input sources specified"
  | .noInput => "no input provided"
  | .input text => text
  | .file e => e.message
  | .grammar e => e.message
  | .compile e => e.message
  | .listing e => e.message
  | .stream e => e.message
  | .offset text => Bytes.cat ["invalid offset ", Text.quoted text]
  | .chunk => "chunk size must be positive"
  | .broken => "internal error"

/-- What a command did: what it printed, the events that it reported, and its error. -/
structure Report where
  out : Bytes := []
  events : List Log.Event := []
  error : Option CommandError := none

/-- The report of a command that only failed. -/
def Report.failed (e : CommandError) : Report := { error := some e }

end GrammarCode.Cli
