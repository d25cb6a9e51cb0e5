import GrammarCode.Cli.Error
import GrammarCode.Settings.Layers
import GrammarCode.Source.Basic
import GrammarCode.Source.Memory

/-!
# Positions in a file

Byte offsets of a file are shown as lines and columns. The file is read in chunks to its end,
and its line ends are indexed on the way.
-/

namespace GrammarCode.Cli.Positions

open Settings (Layers)

/-- The offset that an argument spells: a decimal number that is not negative. -/
def offset? (text : Bytes) : Option Int :=
  match Integer.decimal text with
  | .ok n => if 0 ≤ n then some n else none
  | .error _ => none

/-- The offsets that arguments spell; the first that is none counts. -/
def offsets : List Bytes → Except CommandError (List Int)
  | [] => .ok []
  | text :: rest =>
    match offset? text with
    | none => .error (.offset text)
    | some n => (offsets rest).map (n :: ·)

/-- The event of an indexed file. -/
def indexedEvent {σ : Type} (src : Source σ) : Log.Event :=
  { level := .debug
    message := "indexed input"
    fields :=
      [("filename", .text src.filename), ("size", .number src.position),
       ("lines", .number (src.lineEnds.size + 1))] }

/-- The line of an offset; offsets beyond the end are marked. -/
def line {σ : Type} (src : Source σ) (offset : Int) : Bytes :=
  Bytes.cat
    [(src.location offset).text, if src.position < offset then " (past end of input)" else [],
     "\n"]

/-- Reads a file in chunks and shows offsets in it. -/
def ofContent (filename content : Bytes) (chunk : Int) (offsets : List Int) : Report :=
  match Source.start Memory.stream filename { content } with
  | .error e => .failed (.stream e)
  | .ok (src, events) =>
    let r := Source.readAll Memory.stream chunk (content.length + 1) src
    let events := events ++ r.events
    match r.error with
    | some e => { events, error := some (.stream e) }
    | none =>
      { out := offsets.flatMap (line r.source), events := events ++ [indexedEvent r.source] }

variable {m : Type → Type} [Monad m]

/-- Shows the offsets that follow the name of a file. -/
def run (host : Host m) (settings : Layers) (path : Bytes) (arguments : List Bytes) :
    m Report := do
  match offsets arguments with
  | .error e => return .failed e
  | .ok ns =>
    let chunk := settings.int "chunk"
    if chunk ≤ 0 then return .failed .chunk
    match ← host.read path with
    | .error e => return .failed (.file e)
    | .ok content => return ofContent path content chunk ns

end GrammarCode.Cli.Positions
