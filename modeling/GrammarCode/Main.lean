import GrammarCode.Cli.Run
import GrammarCode.Program.Identifier
import Std.Time.DateTime.Timestamp

/-!
# The program

The command line on a real system: files, the environment, the standard streams, the clock and
random bytes. Everything else is decided by `GrammarCode.Cli.run`.
-/

namespace GrammarCode.Terminal

/-- The string of a byte string, stray bytes replaced. -/
def string (b : Bytes) : String := String.ofList ((Utf8.glyphs b).map Glyph.shown)

/-- The reason why a file at a path could not be read. -/
def fileError (path : Bytes) : IO.Error → FileError
  | .noFileOrDirectory .. => .missing path
  | e => .other (Bytes.cat ["open ", path, ": ", e.toString])

/-- What a path leads to. -/
def kind (path : Bytes) : IO (Option EntryKind) := do
  try
    let p ← IO.FS.realPath (string path)
    if ← p.isDir then return some .directory
    return if ← p.pathExists then some .file else none
  catch _ => return none

/-- The content of a file. -/
def read (path : Bytes) : IO (Except FileError Bytes) := do
  if (← kind path) = some .directory then return .error (.isDirectory path)
  try
    return .ok (← IO.FS.readBinFile (string path)).toList
  catch e => return .error (fileError path e)

/-- The entries of a directory. -/
def entries (path : Bytes) : IO (List (Bytes × EntryKind)) := do
  try
    let p ← IO.FS.realPath (string path)
    (← p.readDir).toList.mapM fun e => do
      return (Bytes.ofString e.fileName, if ← e.path.isDir then .directory else .file)
  catch _ => return []

/-- Reads a stream to its end. -/
partial def readAll (s : IO.FS.Stream) (sofar : ByteArray) : IO ByteArray := do
  let more ← s.read 65536
  if more.isEmpty then return sofar
  readAll s (sofar ++ more)

/-- The standard input. -/
def input : IO (Except Bytes Bytes) := do
  try
    return .ok (← readAll (← IO.getStdin) .empty).toList
  catch e => return .error e.toString

/-- The universal time of day on a twelve-hour clock. -/
def clock : IO Bytes := do
  let seconds := (← Std.Time.Timestamp.now).toSecondsSinceUnixEpoch.val.toNat
  let hour := seconds / 3600 % 24
  let minute := Bytes.decimalNat (seconds / 60 % 60)
  return Bytes.cat
    [Bytes.decimalNat (if hour % 12 = 0 then 12 else hour % 12), ":",
     Bytes.fill 0x30 (2 - minute.length), minute, if hour < 12 then "AM" else "PM"]

/-- The real system. -/
def host : Host IO where
  read := read
  kind := kind
  entries := entries
  environment := fun name => do
    return (← IO.getEnv (string name)).map Bytes.ofString
  input := input
  freshId := do return Identifier.ofRandom (← IO.getRandomBytes 16).toList
  clock := clock
  toolchain := "unknown"
  platform := "unknown"

/-- Whether colours may be used on the standard output. -/
def colour : IO Bool := do
  let plain := ((← IO.getEnv "NO_COLOR").getD "" != "") || (← IO.getEnv "TERM") == some "dumb"
  return !plain && (← (← IO.getStdout).isTty)

/-- Writes bytes to a stream. -/
def write (s : IO.FS.Stream) (b : Bytes) : IO Unit := do
  s.write (ByteArray.mk b.toArray)
  s.flush

end GrammarCode.Terminal

open GrammarCode in
/-- Runs the command line; an error is printed in red and makes the status one. -/
def main (words : List String) : IO UInt32 := do
  let colour ← Terminal.colour
  let libraries : Cli.Libraries IO := .standard Terminal.host
  let r ← Cli.run Terminal.host colour (words.map Bytes.ofString) libraries
  Terminal.write (← IO.getStderr) r.log
  Terminal.write (← IO.getStdout) r.out
  match r.error with
  | none => return 0
  | some e =>
    Terminal.write (← IO.getStderr)
      (libraries.screen.paint colour [.red] e.message ++ [0x0A])
    return 1
