import GrammarCode.Cli.Check
import GrammarCode.Cli.Log
import GrammarCode.Cli.Positions
import GrammarCode.Cli.Show

/-!
# Running a command line

A command line is run in steps, each of which can end it: the command is found, its flags are
taken, its arguments are counted, the configuration file is read, and the threshold for log
events is set. Only then the command itself runs.
-/

namespace GrammarCode.Cli

open Settings (Config Layers)

/-- What is left of a command line: what it printed, what it logged and its error. -/
structure Outcome where
  out : Bytes := []
  log : Bytes := []
  error : Option CommandError := none

/-- Whether the number of arguments suits a command. -/
def checkArguments (c : Command) (arguments : List Bytes) : Except CommandError Unit :=
  if arguments.length < c.least then
    .error (.tooFewArguments c.least arguments.length)
  else
    match c.most, arguments with
    | some 0, a :: _ => .error (.unexpectedArgument a c)
    | some most, _ =>
      if most < arguments.length then .error (.tooManyArguments most arguments.length)
      else .ok ()
    | none, _ => .ok ()

/-- The values that are built in. -/
def builtIn (flags : List Flag) : Config := flags.map fun f => (f.name, f.default)

/-- The version of the program, and what it was built from. -/
def versionText (toolchain platform : Bytes) : Bytes :=
  Bytes.cat
    [programName, " dev\n", "  commit:  unknown\n", "  built:   unknown\n",
     "  go:      ", toolchain, "\n", "  os/arch: ", platform, "\n"]

variable {m : Type → Type} [Monad m]

/-- The settings that the environment gives; an empty variable gives none. -/
def environment (host : Host m) (flags : List Flag) : m Config := do
  let values ← flags.mapM fun f => do
    return (f.name, ← host.environment (Settings.environmentName f.name))
  return values.filterMap fun (name, v) =>
    match v with
    | some text => if text.isEmpty then none else some (name, .text text)
    | none => none

/-- The settings of the configuration file that is named, or found. -/
def configuration (host : Host m) (settings : Layers) : m (Except Settings.ConfigError Config) :=
  let path := settings.text "config"
  if path.isEmpty then Settings.ofWorkingDirectory host else Settings.ofFile host path

/-- Runs a command with its settings and arguments. -/
def execute (host : Host m) (libraries : Libraries m) (colour : Bool) (settings : Layers)
    (c : Command) (arguments : List Bytes) : m Report :=
  let view := showInput host libraries.reader settings arguments
  match c, arguments with
  | .check, patterns => Check.run host libraries colour settings patterns
  | .dis, _ => view (showListing libraries.screen colour (settings.truth "stats"))
  | .json, _ => view fun p => .ok (showJson libraries.screen colour p)
  | .pos, path :: offsets => Positions.run host settings path offsets
  | .version, _ => return { out := versionText host.toolchain host.platform }
  | _, _ => return {}

/-- The lines of the events at or above a threshold. -/
def logLines (host : Host m) (threshold : Int) : List Log.Event → m Bytes
  | [] => return []
  | e :: rest => do
    if e.level.rank < threshold then logLines host threshold rest
    else return e.line (← host.clock) ++ (← logLines host threshold rest)

/-- Runs a command whose flags and arguments are known. -/
def runCommand (host : Host m) (libraries : Libraries m) (colour : Bool) (c : Command)
    (given : Given) : m Outcome := do
  let flags := Command.flags (some c)
  let settings : Layers :=
    { given := given.values, environment := ← environment host flags, builtIn := builtIn flags }
  match ← configuration host settings with
  | .error e => return { error := some (.config e) }
  | .ok config =>
    let settings := { settings with config }
    match Log.threshold? (settings.text "log-level") with
    | none => return { error := some (.logLevel (settings.text "log-level")) }
    | some threshold =>
      let colour := colour && !settings.truth "no-color"
      let r ← execute host libraries colour settings c given.arguments
      return { out := r.out, log := ← logLines host threshold r.events, error := r.error }

/-- Whether help was asked for. -/
def asksForHelp (given : Given) : Bool :=
  ((given.values.lookup Command.helpFlag.name).map Settings.Value.toBool).getD false

/-- Runs a command line; `colour` says whether colours may be used. -/
def run (host : Host m) (colour : Bool) (words : List Bytes)
    (libraries : Libraries m := .standard host) : m Outcome := do
  match Call.find words with
  | .error typed => return { error := some (.unknownCommand typed) }
  | .ok call =>
    match Given.take (Command.flags call.command) {} false call.words with
    | .error e => return { error := some (.flag e) }
    | .ok given =>
      match call.command with
      | none | some .guide | some .completion => return {}
      | some c =>
        if asksForHelp given then return {}
        match checkArguments c given.arguments with
        | .error e => return { error := some e }
        | .ok () => runCommand host libraries colour c given

end GrammarCode.Cli
