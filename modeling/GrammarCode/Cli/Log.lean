import GrammarCode.Log
import GrammarCode.Settings.Value

/-!
# Writing log events

Events at or above a threshold are written a line each: the time, the level in three letters,
the message, and the fields in alphabetical order with an error first.
-/

namespace GrammarCode.Log

/-- The thresholds that have names. -/
def thresholdNames : List (Bytes × Int) :=
  [("trace", -1), ("debug", 0), ("info", 1), ("warn", 2), ("error", 3), ("fatal", 4),
   ("panic", 5), ("", 6), ("disabled", 7)]

/-- The threshold that a text names or spells as a small number. -/
def threshold? (text : Bytes) : Option Int :=
  let name := Settings.lowerName text
  match thresholdNames.lookup name with
  | some rank => some rank
  | none =>
    match Integer.decimal name with
    | .ok n => if -128 ≤ n && n ≤ 127 then some n else none
    | .error _ => none

/-- The three letters of a level. -/
def Level.short : Level → String
  | .debug => "DBG"
  | .warn => "WRN"

/-- Whether a byte makes a text be quoted. -/
def needsQuotes (b : UInt8) : Bool :=
  b < 0x20 || 0x7E < b || b = 0x20 || b = 0x5C || b = 0x22

/-- The value of a field as it is written. -/
def Value.written : Value → Bytes
  | .number n => Bytes.decimal n
  | .text t =>
    let t := Utf8.repair t
    if t.any needsQuotes then Text.quoted t else t

/-- Whether a field is written before another: an error is first, the others go by name. -/
def fieldBefore (a b : String) : Bool :=
  a = "error" || (b ≠ "error" && !Bytes.before b a)

/-- The line of an event at a time. -/
def Event.line (time : Bytes) (e : Event) : Bytes :=
  let fields := e.fields.mergeSort fun a b => fieldBefore a.1 b.1
  Bytes.join [0x20] ([time, (e.level.short : Bytes), (e.message : Bytes)] ++
    fields.map fun f => Bytes.cat [f.1, "=", f.2.written]) ++ [0x0A]

end GrammarCode.Log
