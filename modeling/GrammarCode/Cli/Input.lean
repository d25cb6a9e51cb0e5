import GrammarCode.Cli.Error
import GrammarCode.Grammar.Decode
import GrammarCode.Settings.Layers

/-!
# The grammar of a command

A grammar is given on the command line, on the standard input or as a file, in exactly one of
these ways.
-/

namespace GrammarCode.Cli

open Settings (Layers)

/-- A program or the error that prevents it, with the events on the way. -/
structure Compiled where
  result : Except CommandError Program
  events : List Log.Event := []

/-- Compiles the text of a grammar; `filename` is named in errors. -/
def compileText (reader : Yaml.Reader) (maxDepth : Int) (fresh filename text : Bytes) : Compiled :=
  match Grammar.decode filename text reader with
  | .error e => { result := .error (.grammar e) }
  | .ok a =>
    let c := compile maxDepth fresh a
    match c.result with
    | .ok p => { result := .ok p, events := c.events }
    | .error (.refused e) => { result := .error (.compile e), events := c.events }
    | .error .broken => { result := .error .broken, events := c.events }

variable {m : Type → Type} [Monad m]

/-- Compiles the grammar in a file. -/
def compileFile (host : Host m) (reader : Yaml.Reader) (maxDepth : Int) (path : Bytes) :
    m Compiled := do
  match ← host.read path with
  | .error e => return { result := .error (.file e) }
  | .ok text => return compileText reader maxDepth (← host.freshId) path text

/-- Where a grammar comes from. -/
inductive GrammarInput where
  | code (text : Bytes)
  | standardInput
  | file (path : Bytes)
  deriving DecidableEq, Repr

/-- The one place where the grammar is given. Text counts only if the command line gives it. -/
def grammarInput (settings : Layers) (arguments : List Bytes) :
    Except CommandError GrammarInput :=
  let code := (settings.given.get? "code").map Settings.Value.toText
  match code, settings.truth "stdin", arguments with
  | some text, false, [] => .ok (.code text)
  | none, true, [] => .ok .standardInput
  | none, false, path :: _ => .ok (.file path)
  | none, false, [] => .error .noInput
  | _, _, _ => .error .severalInputs

/-- Compiles the grammar that a command is given. -/
def compileInput (host : Host m) (reader : Yaml.Reader) (settings : Layers)
    (arguments : List Bytes) : m Compiled := do
  let maxDepth := settings.int "max-depth"
  match grammarInput settings arguments with
  | .error e => return { result := .error e }
  | .ok (.code text) => return compileText reader maxDepth (← host.freshId) [] text
  | .ok (.file path) => compileFile host reader maxDepth path
  | .ok .standardInput =>
    match ← host.input with
    | .error text => return { result := .error (.input text) }
    | .ok text => return compileText reader maxDepth (← host.freshId) [] text

end GrammarCode.Cli
