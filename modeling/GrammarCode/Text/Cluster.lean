import GrammarCode.Text.Utf8
import GrammarCode.Text.BreakClass

/-!
# User-perceived characters and display width

Text is cut into clusters, each what a reader takes for one character: a letter with its
marks, a Hangul syllable, a pair of regional indicators, an emoji sequence. A small machine
reads the classes from the left; its state keeps what the rules need to know of the characters
before. The width of a text is the sum of the widths of its clusters, in terminal columns.
-/

namespace GrammarCode.Text

namespace Cluster

/-- What the rules remember of the characters read so far. -/
inductive State where
  | plain
  | cr
  | control
  | hangulL
  | hangulV
  | hangulT
  | prepend
  | pictographic
  | pictographicJoiner
  | regionalOdd
  | regionalEven
  deriving DecidableEq, Repr, Inhabited

/-- The state after a character when nothing before it matters. -/
def entry : BreakClass → State
  | .cr => .cr
  | .lf | .control => .control
  | .hangulL => .hangulL
  | .hangulV | .hangulLV => .hangulV
  | .hangulT | .hangulLVT => .hangulT
  | .prepend => .prepend
  | .pictographic => .pictographic
  | .regional => .regionalOdd
  | .extend | .joiner | .spacingMark | .other => .plain

/-- Whether a character stays with whatever stands before it. -/
def attaches : BreakClass → Bool
  | .extend | .joiner | .spacingMark => true
  | _ => false

/-- Whether a character is a line end or another control. -/
def isControl : BreakClass → Bool
  | .cr | .lf | .control => true
  | _ => false

/-- The state after the next character, and whether a new cluster starts with it. -/
def step (s : State) (k : BreakClass) : State × Bool :=
  match s, k with
  | .cr, .lf => (.control, false)
  | .cr, _ | .control, _ => (entry k, true)
  | .hangulL, .hangulL => (.hangulL, false)
  | .hangulL, .hangulV | .hangulL, .hangulLV => (.hangulV, false)
  | .hangulL, .hangulLVT => (.hangulT, false)
  | .hangulV, .hangulV => (.hangulV, false)
  | .hangulV, .hangulT | .hangulT, .hangulT => (.hangulT, false)
  | .pictographic, .extend => (.pictographic, false)
  | .pictographic, .joiner => (.pictographicJoiner, false)
  | .pictographicJoiner, .pictographic => (.pictographic, false)
  | .regionalOdd, .regional => (.regionalEven, false)
  | .prepend, _ => (entry k, isControl k)
  | _, _ => (entry k, !attaches k)

/-- The class of an item of a reading. -/
def classOf (g : Glyph) : BreakClass := breakClass g.shown.toNat

/-- Cuts the rest of a text whose unfinished cluster, last item first, is `current`. -/
def splitFrom (s : State) (current : List Glyph) : List Glyph → List (List Glyph)
  | [] => [current.reverse]
  | g :: rest =>
    match step s (classOf g) with
    | (s', true) => current.reverse :: splitFrom s' [g] rest
    | (s', false) => splitFrom s' (g :: current) rest

/-- The clusters of a text in order. -/
def split : List Glyph → List (List Glyph)
  | [] => []
  | g :: rest => splitFrom (entry (classOf g)) [g] rest

/-- The columns of one character by itself. -/
def itemWidth (g : Glyph) : Nat :=
  let code := g.shown.toNat
  match breakClass code with
  | .control | .cr | .lf | .extend | .joiner => 0
  | .regional => 2
  | .pictographic => if emojiByDefault.covers code then 2 else 1
  | _ =>
    if code = 0x2E3A then 3
    else if code = 0x2E3B then 4
    else if code < 0x1100 then 1
    else if wides.covers code then 2
    else 1

/-- The columns of a cluster. A pictograph is as wide as its last variation selector says; a
regional pair and a Hangul block are as wide as their first character; otherwise the
characters add up. -/
def width : List Glyph → Nat
  | [] => 0
  | g :: rest =>
    match classOf g with
    | .pictographic =>
      rest.foldl (fun w h =>
        if h.shown.toNat = 0xFE0E then 1
        else if h.shown.toNat = 0xFE0F then 2
        else w) (itemWidth g)
    | .regional | .hangulL => itemWidth g
    | _ => rest.foldl (fun w h => w + itemWidth h) (itemWidth g)

/-- Cutting loses nothing and keeps the order. -/
theorem flatten_splitFrom (s : State) (current rest : List Glyph) :
    (splitFrom s current rest).flatten = current.reverse ++ rest := by
  induction rest generalizing s current with
  | nil => simp [splitFrom]
  | cons g rest ih =>
    unfold splitFrom
    split <;> simp [ih]

@[simp] theorem flatten_split (text : List Glyph) : (split text).flatten = text := by
  cases text with
  | nil => rfl
  | cons g rest => simp [split, flatten_splitFrom]

end Cluster

/-- The bytes of a cluster. -/
def Cluster.bytes (c : List Glyph) : Bytes := c.flatMap Glyph.bytes

/-- The clusters of a byte string, item by item. -/
def glyphClusters (b : Bytes) : List (List Glyph) := Cluster.split (Utf8.glyphs b)

/-- The clusters of a byte string. -/
def clusters (b : Bytes) : List Bytes := (glyphClusters b).map Cluster.bytes

/-- The columns that clusters take together. -/
def Cluster.total : List (List Glyph) → Nat
  | [] => 0
  | c :: rest => Cluster.width c + Cluster.total rest

/-- The columns that a byte string takes on a terminal. -/
def columns (b : Bytes) : Nat := Cluster.total (glyphClusters b)

end GrammarCode.Text
