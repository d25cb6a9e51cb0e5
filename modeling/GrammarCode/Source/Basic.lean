import GrammarCode.Location
import GrammarCode.Log
import GrammarCode.Source.Stream
import GrammarCode.Text.Integer

/-!
# Sources

A source reads from a stream and keeps an index of the line ends that passed by, so that an
offset can be resolved to a line and a column without reading anything again. The index covers
only what was read: a forward seek leaves a gap, and positions behind a gap are not reliable.
-/

namespace GrammarCode

/-- A stream state with the index of what was read from it. -/
structure Source (σ : Type) where
  inner : σ
  filename : Bytes := []
  /-- The offset of the next byte to be read. -/
  position : Int := 0
  /-- The offset just after each line end seen, in increasing order. -/
  lineEnds : Array Int := #[]
  /-- The offset up to which bytes were examined. -/
  scanned : Int := 0
  /-- The end of the part from offset zero on that was read without a gap. -/
  contiguous : Int := 0
  /-- Whether a read has met the end of the stream. -/
  eofReached : Bool := false

namespace Source

variable {σ : Type}

/-- The event of a stream that does not start at offset zero. -/
def offStartEvent (filename : Bytes) (position : Int) : Log.Event :=
  { level := .warn
    message := "line counting will be off if the stream is not rewound"
    fields := [("filename", .text filename), ("position", .number position)] }

/-- The event of a read behind a gap. -/
def gapEvent (filename : Bytes) (scanned offset : Int) : Log.Event :=
  { level := .warn
    message := "reading past unscanned input; positions beyond it are unreliable"
    fields :=
      [("filename", .text filename), ("scanned", .number scanned), ("offset", .number offset)] }

/-- A source over a stream in a state. The position of the stream has to be known; one other
than zero is reported. -/
def start (st : Stream σ) (filename : Bytes) (s : σ) :
    Except StreamError (Source σ × List Log.Event) :=
  match st.seek s .current 0 with
  | (.error e, _) => .error e
  | (.ok position, s') =>
    .ok ({ inner := s', filename, position },
      if position = 0 then [] else [offStartEvent filename position])

/-- The offsets just after the line ends of bytes that stand at an offset. -/
def lineEndsOf (offset : Int) : Bytes → List Int
  | [] => []
  | b :: rest =>
    if b = 0x0A then (offset + 1) :: lineEndsOf (offset + 1) rest
    else lineEndsOf (offset + 1) rest

/-- Takes bytes that were read at an offset into the index. Only those beyond the scanned mark
are examined. -/
def scan (src : Source σ) (offset : Int) (bytes : Bytes) : Source σ × List Log.Event :=
  let stop := offset + bytes.length
  if stop ≤ src.scanned then (src, [])
  else
    let known := (src.scanned - offset).toNat
    ({ src with
        lineEnds := src.lineEnds ++ (lineEndsOf (offset + known) (bytes.drop known)).toArray
        contiguous :=
          if src.contiguous = src.scanned && offset ≤ src.contiguous then stop
          else src.contiguous
        scanned := stop },
      if src.scanned < offset then [gapEvent src.filename src.scanned offset] else [])

/-- The outcome of an operation: the source after it, its value, an error and the events. -/
structure Outcome (σ α : Type) where
  source : Source σ
  value : α
  error : Option StreamError := none
  events : List Log.Event := []

/-- Reads up to `n` bytes. The end of the stream is no error; any other error comes with the
bytes that were read before it. -/
def read (st : Stream σ) (src : Source σ) (n : Int) : Outcome σ Bytes :=
  if n ≤ 0 then { source := src, value := [] }
  else
    let d := st.readFull n.toNat src.inner
    let offset := src.position
    let moved := { src with inner := d.next, position := offset + d.bytes.length }
    let (indexed, events) := moved.scan offset d.bytes
    match d.error with
    | none => { source := indexed, value := d.bytes, events }
    | some .endOfInput | some .unexpectedEnd =>
      { source := { indexed with eofReached := true }, value := d.bytes, events }
    | some e => { source := indexed, value := d.bytes, error := some e, events }

/-- Whether the stream has no more bytes: reads one byte and moves back. -/
def atEnd (st : Stream σ) (src : Source σ) : Outcome σ Bool :=
  let d := st.read src.inner 1
  if d.bytes.isEmpty then
    let src := { src with inner := d.next }
    match d.error with
    | some .endOfInput => { source := src, value := true }
    | e => { source := src, value := false, error := e }
  else
    match st.seek d.next .current (-(d.bytes.length : Int)) with
    | (.ok _, s) => { source := { src with inner := s }, value := false }
    | (.error e, s) => { source := { src with inner := s }, value := false, error := some e }

/-- Moves to an absolute offset. -/
def setPosition (st : Stream σ) (src : Source σ) (offset : Int) : Outcome σ Unit :=
  match st.seek src.inner .start offset with
  | (.ok position, s) => { source := { src with inner := s, position }, value := () }
  | (.error e, s) => { source := { src with inner := s }, value := (), error := some e }

/-- Reads chunks until an error, an empty chunk or `times` chunks; the value is the number of
bytes. -/
def readAll (st : Stream σ) (chunk : Int) : Nat → Source σ → Outcome σ Nat
  | 0, src => { source := src, value := 0 }
  | k + 1, src =>
    let r := src.read st chunk
    if r.error.isSome || r.value.isEmpty then { r with value := r.value.length }
    else
      let rest := readAll st chunk k r.source
      { rest with value := r.value.length + rest.value, events := r.events ++ rest.events }

/-- The least index from `low` up to `high` at which a monotone test holds, else `high`; the
interval shrinks with every step, so `high - low` steps are enough. -/
def bisect (test : Nat → Bool) : Nat → Nat → Nat → Nat
  | 0, low, _ => low
  | steps + 1, low, high =>
    if low < high then
      let middle := (low + high) / 2
      if test middle then bisect test steps low middle
      else bisect test steps (middle + 1) high
    else low

/-- How many line ends are at or before an offset. -/
def linesBefore (src : Source σ) (offset : Int) : Nat :=
  bisect (fun i => offset < src.lineEnds.getD i 0) src.lineEnds.size 0 src.lineEnds.size

/-- The line and the column of an offset, both from one. Offsets beyond the last line end are
on the line after it. -/
def lineAndColumn (src : Source σ) (offset : Int) : Int × Int :=
  let i := src.linesBefore offset
  let lineStart := if i = 0 then 0 else src.lineEnds.getD (i - 1) 0
  (i + 1, Integer.wrap64 (offset - lineStart + 1))

/-- The location of an offset. -/
def location (src : Source σ) (offset : Int) : Location :=
  let (line, column) := src.lineAndColumn offset
  { filename := src.filename, line, column }

/-- The location of the next byte. -/
def currentLocation (src : Source σ) : Location := src.location src.position

/-- Whether everything before an offset was read without a gap. -/
def reliable (src : Source σ) (offset : Int) : Bool := offset ≤ src.contiguous

end Source

end GrammarCode
