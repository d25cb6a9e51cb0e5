import GrammarCode.Text.Bytes

/-!
# Streams

A stream is read from a position and can be repositioned. It may deliver fewer bytes than asked
for, and it reports its end and its failures as errors, with or without bytes. Its state is
abstract; a stream is what its two operations do to it.
-/

namespace GrammarCode

/-- What a stream reports. -/
inductive StreamError where
  /-- There are no more bytes. -/
  | endOfInput
  /-- The bytes ended in the middle of what was asked for. -/
  | unexpectedEnd
  /-- Nothing is delivered and no reason is given, again and again. -/
  | noProgress
  /-- Any other failure, with its own text. -/
  | failure (text : Bytes)
  deriving DecidableEq, Repr

/-- The wording of an error. -/
def StreamError.message : StreamError → Bytes
  | .endOfInput => "EOF"
  | .unexpectedEnd => "unexpected EOF"
  | .noProgress => "multiple Read calls return no data or error"
  | .failure text => text

/-- What an offset is counted from. -/
inductive Whence where
  | start
  | current
  deriving DecidableEq, Repr

/-- The outcome of a read: the bytes, an error that may come with them, and the state after. -/
structure Delivery (σ : Type) where
  bytes : Bytes
  error : Option StreamError
  next : σ

/-- A stream with states in `σ`. -/
structure Stream (σ : Type) where
  /-- Reads at most the given number of bytes. -/
  read : σ → Nat → Delivery σ
  /-- Moves to an offset and gives the new absolute position. -/
  seek : σ → Whence → Int → Except StreamError Int × σ
  /-- How often a read of many bytes puts up with a delivery of nothing without a reason. A stream
  that stalls for good wears out any patience; one that goes on again needs only enough of it. -/
  patience : Nat := 100

namespace Stream

variable {σ : Type}

/-- Reads until `wanted` bytes are there or an error comes, with at most `calls` reads. -/
def gather (st : Stream σ) (calls wanted : Nat) (s : σ) : Delivery σ :=
  if wanted = 0 then { bytes := [], error := none, next := s }
  else
    match calls with
    | 0 => { bytes := [], error := some .noProgress, next := s }
    | k + 1 =>
      let d := st.read s wanted
      match d.error with
      | some e => { bytes := d.bytes, error := some e, next := d.next }
      | none =>
        let rest := gather st k (wanted - d.bytes.length) d.next
        { rest with bytes := d.bytes ++ rest.bytes }

/-- Reads exactly `wanted` bytes. Fewer come with the error that stopped the read; the end of
the input after some bytes is an unexpected one. An error that comes with the last byte asked
for does not count. -/
def readFull (st : Stream σ) (wanted : Nat) (s : σ) : Delivery σ :=
  let d := st.gather (wanted + st.patience) wanted s
  if wanted ≤ d.bytes.length then { d with error := none }
  else if d.error = some .endOfInput && !d.bytes.isEmpty then
    { d with error := some .unexpectedEnd }
  else d

end Stream

end GrammarCode
