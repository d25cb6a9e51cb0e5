import GrammarCode.Text.Cluster
import GrammarCode.Text.Style

/-!
# Bordered tables

A table has an optional header, rows that may be ragged and an alignment per column. Every
column is as wide as its widest cell; missing cells are empty and missing alignments left. How many
columns a text takes is a parameter; escape sequences never count.
-/

namespace GrammarCode

/-- Where the text stands in a wider cell. -/
inductive Alignment where
  | left
  | right
  | centre
  deriving DecidableEq, Repr, Inhabited

/-- The alignment that a number stands for: left, unless it is that of another one. -/
def Alignment.ofNumber : Int → Alignment
  | 1 => .right
  | 2 => .centre
  | _ => .left

/-- A table of text cells. -/
structure Table where
  header : List Bytes := []
  rows : List (List Bytes) := []
  rowAlignment : List Alignment := []
  headerAlignment : List Alignment := []
  deriving Repr, Inhabited

namespace Table

/-- The table with a header in place of the old one. -/
def withHeader (t : Table) (cells : List Bytes) : Table := { t with header := cells }

/-- The table with the alignment of body cells set. -/
def withRowAlignment (t : Table) (a : List Alignment) : Table := { t with rowAlignment := a }

/-- The table with the alignment of header cells set. -/
def withHeaderAlignment (t : Table) (a : List Alignment) : Table :=
  { t with headerAlignment := a }

/-- The table with more rows at its end. -/
def withRows (t : Table) (more : List (List Bytes)) : Table := { t with rows := t.rows ++ more }

/-- The table with one more row at its end. -/
def append (t : Table) (row : List Bytes) : Table := t.withRows [row]

/-- The larger of two column lists, place by place; the longer one gives the rest. -/
def widest : List Nat → List Nat → List Nat
  | [], ys => ys
  | xs, [] => xs
  | x :: xs, y :: ys => max x y :: widest xs ys

@[simp] theorem length_widest (xs ys : List Nat) :
    (widest xs ys).length = max xs.length ys.length := by
  induction xs generalizing ys with
  | nil => simp [widest]
  | cons x xs ih =>
    cases ys with
    | nil => simp [widest]
    | cons y ys => simp [widest, ih, Nat.add_max_add_right]

/-- The line of dashes between borders. -/
def separator (widths : List Nat) : Bytes :=
  0x2B :: widths.flatMap (fun w => Bytes.fill 0x2D (w + 2) ++ [0x2B]) ++ [0x0A]

section Layout

variable (columns : Bytes → Nat)

/-- The columns of a cell as shown, escape sequences not counted. -/
def shownColumns (cell : Bytes) : Nat := columns (Text.Style.strip cell)

/-- The width of each column: that of its widest cell. -/
def columnWidths (t : Table) : List Nat :=
  (t.header :: t.rows).foldl (fun ws row => widest ws (row.map (shownColumns columns))) []

/-- A cell filled with spaces to `width` columns; a wider cell is kept. -/
def pad (cell : Bytes) (width : Nat) (a : Alignment) : Bytes :=
  let padding := width - shownColumns columns cell
  match a with
  | .left => cell ++ Bytes.fill 0x20 padding
  | .right => Bytes.fill 0x20 padding ++ cell
  | .centre =>
    Bytes.fill 0x20 (padding / 2) ++ cell ++ Bytes.fill 0x20 (padding - padding / 2)

/-- The cells of a row, one per column, each with its closing border. -/
def rowCells (row : List Bytes) (a : List Alignment) : List Nat → Bytes
  | [] => []
  | w :: ws =>
    0x20 :: pad columns (row.headD []) w (a.headD .left) ++ [0x20, 0x7C]
      ++ rowCells row.tail a.tail ws

/-- One line of cells. -/
def rowLine (row : List Bytes) (a : List Alignment) (widths : List Nat) : Bytes :=
  0x7C :: rowCells columns row a widths ++ [0x0A]

/-- The lines of the table, top border first; none if the table has no column. -/
def lines (t : Table) : List Bytes :=
  let ws := t.columnWidths columns
  if ws.isEmpty then []
  else
    separator ws ::
      ((if t.header.isEmpty then []
        else [rowLine columns t.header t.headerAlignment ws, separator ws])
      ++ t.rows.map (fun row => rowLine columns row t.rowAlignment ws)
      ++ (if t.rows.isEmpty then [] else [separator ws]))

end Layout

/-- The text of the table. -/
def render (t : Table) (columns : Bytes → Nat := Text.columns) : Bytes := (t.lines columns).flatten

end Table

end GrammarCode
