import GrammarCode.Source.Stream

/-!
# Streams over a byte string

A byte string is a stream that never fails except for a seek before its start. For trying out
how a reader copes it can be told to deliver little at a time, to report its end together with
the last bytes, to fail or to stall from an offset on, and to refuse seeks after some.
-/

namespace GrammarCode

/-- A byte string with a position and the faults it shows. -/
structure Memory where
  content : Bytes
  position : Int := 0
  /-- The most bytes that one read delivers. -/
  most : Option Nat := none
  /-- Where reads start to fail, and with what. -/
  failing : Option (Int × StreamError) := none
  /-- Where reads start to deliver nothing. -/
  stalling : Option Int := none
  /-- How many more seeks succeed. -/
  seeks : Option Nat := none
  /-- Whether the end is reported together with the last bytes. -/
  eager : Bool := false
  /-- The wording for a seek before the start. -/
  negativeSeek : Bytes := []
  deriving Repr

namespace Memory

/-- The bytes from the position on, at most `n`. -/
def ahead (m : Memory) (n : Nat) : Bytes := (m.content.drop m.position.toNat).take n

/-- How many bytes a read may deliver when `n` are asked for. -/
def allowance (m : Memory) (n : Nat) : Nat :=
  let n :=
    match m.failing with
    | some (at_, _) => min n (at_ - m.position).toNat
    | none => n
  match m.most with
  | some k => min n k
  | none => n

/-- Whether the position has reached an offset, if there is one. -/
def reached (m : Memory) : Option Int → Bool
  | some at_ => at_ ≤ m.position
  | none => false

/-- Reads at most `n` bytes. -/
def read (m : Memory) (n : Nat) : Delivery Memory :=
  if m.reached m.stalling then { bytes := [], error := none, next := m }
  else if m.reached (m.failing.map Prod.fst) then
    { bytes := [], error := m.failing.map Prod.snd, next := m }
  else if (m.content.length : Int) ≤ m.position then
    { bytes := [], error := some .endOfInput, next := m }
  else
    let bytes := m.ahead (m.allowance n)
    let position := m.position + bytes.length
    { bytes
      error :=
        if m.eager && position = m.content.length then some .endOfInput else none
      next := { m with position } }

/-- Moves to an offset that is not before the start. -/
def seek (m : Memory) (w : Whence) (offset : Int) : Except StreamError Int × Memory :=
  if m.seeks = some 0 then (.error (.failure "seek failed"), m)
  else
    let m := { m with seeks := m.seeks.map (· - 1) }
    let position :=
      match w with
      | .start => offset
      | .current => m.position + offset
    if position < 0 then (.error (.failure m.negativeSeek), m)
    else (.ok position, { m with position })

/-- The stream over byte strings. -/
def stream : Stream Memory where
  read := Memory.read
  seek := Memory.seek

end Memory

end GrammarCode
