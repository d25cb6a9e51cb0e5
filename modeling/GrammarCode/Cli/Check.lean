import GrammarCode.Cli.Input
import GrammarCode.Cli.Libraries

/-!
# Checking many grammars

The files that patterns match are compiled by some workers, who finish in any order, and reported
together. The report has a line for every path, each path once and in the order of their bytes,
whatever the order of the patterns and of the compilations.
-/

namespace GrammarCode.Cli.Check

open Settings (Layers)

/-- What became of one file. -/
inductive Verdict where
  | accepted (instructions : Nat)
  | refused (message : Bytes)
  deriving DecidableEq, Repr, Inhabited

namespace Verdict

/-- The verdict on a compilation. -/
def ofCompiled (c : Compiled) : Verdict :=
  match c.result with
  | .ok p => .accepted p.size
  | .error e => .refused e.message

/-- Whether a file was refused. -/
def isRefused : Verdict → Bool
  | .accepted _ => false
  | .refused _ => true

/-- The line of a path in the report. -/
def line (screen : Text.Screen) (colour : Bool) (path : Bytes) : Verdict → Bytes
  | .accepted n =>
    Bytes.cat [screen.paint colour [.green] "ok", " ", path, " (", Bytes.decimalNat n,
      " instructions)\n"]
  | .refused message =>
    Bytes.cat [screen.paint colour [.red] "FAIL", " ", path, ": ", message, "\n"]

end Verdict

/-- What a pattern stands for: its matches, or the pattern itself if there are none. -/
def expansion (pattern : Bytes) (found : List Bytes) : List Bytes :=
  if found.isEmpty then [pattern] else found

/-- The distinct paths of some expansions, in order. -/
def paths (expansions : List (List Bytes)) : List Bytes :=
  expansions.flatten.eraseDups.mergeSort fun a b => !Bytes.before b a

/-- The verdicts in the order of the paths. They come in with the number of their path, in any
order, and each goes to its own place. -/
def slots (n : Nat) (finished : List (Nat × Verdict)) : Array Verdict :=
  finished.foldl (fun vs f => vs.setIfInBounds f.1 f.2) (Array.replicate n (.accepted 0))

/-- The lines of paths and their verdicts, and the summary if some were refused. -/
def summary (screen : Text.Screen) (colour : Bool) (ps : List Bytes) (verdicts : Array Verdict) :
    Bytes × Option CommandError :=
  let entries := ps.zip verdicts.toList
  let failed := (entries.filter fun e => e.2.isRefused).length
  (entries.flatMap fun e => e.2.line screen colour e.1,
   if failed = 0 then none else some (.failedGrammars failed ps.length))

variable {m : Type → Type} [Monad m]

/-- The expansions of patterns; the first pattern that is invalid counts. -/
def expand (finder : Glob.Finder m) : List Bytes → m (Except CommandError (List (List Bytes)))
  | [] => return .ok []
  | p :: rest => do
    if !finder.isValid p then return .error (.invalidPattern p)
    match ← finder.files p with
    | none => return .error .malformedPattern
    | some found =>
      match ← expand finder rest with
      | .error e => return .error e
      | .ok more => return .ok (expansion p found :: more)

/-- Compiles files with the numbers of their paths, in the order given. -/
def compileAll (host : Host m) (reader : Yaml.Reader) (maxDepth : Int) (ps : List (Bytes × Nat)) :
    m (List (Nat × Compiled)) :=
  ps.mapM fun p => do return (p.2, ← compileFile host reader maxDepth p.1)

/-- Checks the files that patterns match. -/
def run (host : Host m) (libraries : Libraries m) (colour : Bool) (settings : Layers)
    (patterns : List Bytes) : m Report := do
  let jobs := settings.int "jobs"
  if jobs < 1 then return .failed .noJobs
  match ← expand libraries.finder patterns with
  | .error e => return .failed e
  | .ok expansions =>
    let ps := paths expansions
    if ps.isEmpty then return .failed .nothingToCheck
    let finished ← compileAll host libraries.reader (settings.int "max-depth")
      (libraries.order jobs.toNat ps.zipIdx)
    let verdicts := slots ps.length (finished.map fun f => (f.1, Verdict.ofCompiled f.2))
    let (out, error) := summary libraries.screen colour ps verdicts
    return { out, events := finished.flatMap fun f => f.2.events, error }

end GrammarCode.Cli.Check
