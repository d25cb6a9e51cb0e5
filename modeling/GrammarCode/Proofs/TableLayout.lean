import GrammarCode.Proofs.Screen
import GrammarCode.Table

/-!
# The layout of a table

However a table was put together, its columns are those of the longest row, each as wide as its
widest cell. Where the cells show printable ASCII, every line has one length, and the borders of a
column stand at one offset in all lines. Between them stands the text of the cell, filled up with
spaces as its alignment says. Of the columns of a text only those of printable ASCII have to be
known.
-/

namespace GrammarCode

namespace Text

/-- A cell of printable ASCII characters and complete escape sequences. -/
def Legible (cell : Bytes) : Prop :=
  ∃ plain, Style.Displays cell plain ∧ ∀ b ∈ plain, isPrintableAscii b = true

namespace Legible

variable {cell : Bytes} (h : Legible cell)

include h

theorem displays_strip : Style.Displays cell (Style.strip cell) := by
  obtain ⟨plain, hplain, -⟩ := h
  rw [hplain.strip_eq]
  exact hplain

theorem printable_strip : ∀ b ∈ Style.strip cell, isPrintableAscii b = true := by
  obtain ⟨plain, hplain, hprintable⟩ := h
  rw [hplain.strip_eq]
  exact hprintable

end Legible

end Text

open Text (Legible)
open Text.Style (Displays strip)

namespace Table

variable {columns : Bytes → Nat}

/-! ### Cells as they are displayed -/

/-- A cell is as wide as what it displays. -/
theorem shownColumns_eq_of_displays {cell plain : Bytes} (h : Displays cell plain) :
    shownColumns columns cell = shownColumns columns plain := by
  rw [shownColumns, shownColumns, h.strip_eq, (Displays.self h.escape_notMem).strip_eq]

/-- A legible cell is as wide as its text is long. -/
theorem shownColumns_of_legible (hcolumns : Text.Narrow columns) {cell : Bytes} (h : Legible cell) :
    shownColumns columns cell = (strip cell).length :=
  hcolumns _ h.printable_strip

theorem displays_pad {cell plain : Bytes} (h : Displays cell plain) (width : Nat) (a : Alignment) :
    Displays (pad columns cell width a) (pad columns plain width a) := by
  have hfill (n : Nat) : Displays (Bytes.fill 0x20 n) (Bytes.fill 0x20 n) :=
    .self (by simp [Bytes.fill])
  unfold pad
  rw [shownColumns_eq_of_displays h]
  cases a with
  | left => exact h.append (hfill _)
  | right => exact (hfill _).append h
  | centre => exact ((hfill _).append h).append (hfill _)

theorem displays_rowCells {row plain : List Bytes} (h : List.Forall₂ Displays row plain)
    (a : List Alignment) (ws : List Nat) :
    Displays (rowCells columns row a ws) (rowCells columns plain a ws) := by
  induction ws generalizing row plain a with
  | nil => exact .nil
  | cons w ws ih =>
    have hcell {cell plain : Bytes} (hcell : Displays cell plain) :
        Displays (0x20 :: pad columns cell w (a.headD .left) ++ [0x20, 0x7C])
          (0x20 :: pad columns plain w (a.headD .left) ++ [0x20, 0x7C]) :=
      .byte (by decide) ((displays_pad hcell w _).append (.self (by decide)))
    cases h with
    | nil => exact (hcell .nil).append (ih .nil a.tail)
    | cons hhead htail => exact (hcell hhead).append (ih htail a.tail)

/-! ### Widths of columns -/

/-- Widths that rows of widths have together: as many as the longest row has, and each the greatest
that a row has in its place. -/
structure Spans (rows : List (List Nat)) (ws : List Nat) : Prop where
  length_le : ∀ row ∈ rows, row.length ≤ ws.length
  length_eq : ∃ row ∈ rows, row.length = ws.length
  le : ∀ row ∈ rows, ∀ (i x w : Nat), row[i]? = some x → ws[i]? = some w → x ≤ w
  attained : ∀ (i w : Nat), ws[i]? = some w → ∃ row ∈ rows, row[i]? = some w

theorem getElem?_widest (xs ys : List Nat) (i : Nat) :
    (widest xs ys)[i]? = Option.merge max xs[i]? ys[i]? := by
  induction xs generalizing ys i with
  | nil => simp [widest]
  | cons x xs ih =>
    cases ys with
    | nil => simp [widest]
    | cons y ys =>
      cases i with
      | zero => simp [widest]
      | succ i => simpa [widest] using ih ys i

theorem getElem?_of_widest {xs ys : List Nat} {i w : Nat} (h : (widest xs ys)[i]? = some w) :
    xs[i]? = some w ∨ ys[i]? = some w := by
  rw [getElem?_widest] at h
  cases hx : xs[i]? with
  | none => exact Or.inr (by simpa [hx] using h)
  | some x =>
    cases hy : ys[i]? with
    | none => exact Or.inl (by simpa [hx, hy] using h)
    | some y =>
      rw [hx, hy] at h
      obtain rfl := Option.some.inj h
      rcases Nat.le_total x y with hle | hle
      · exact Or.inr (by rw [Nat.max_eq_right hle])
      · exact Or.inl (by rw [Nat.max_eq_left hle])

theorem widest_comm (xs ys : List Nat) : widest xs ys = widest ys xs := by
  induction xs generalizing ys with
  | nil => cases ys <;> rfl
  | cons x xs ih =>
    cases ys with
    | nil => rfl
    | cons y ys => rw [widest, widest, Nat.max_comm, ih]

theorem le_widest {xs : List Nat} {i x : Nat} (ys : List Nat) (h : xs[i]? = some x) :
    ∃ w, (widest xs ys)[i]? = some w ∧ x ≤ w := by
  rw [getElem?_widest, h]
  cases ys[i]? with
  | none => exact ⟨x, rfl, Nat.le_refl x⟩
  | some y => exact ⟨max x y, rfl, Nat.le_max_left x y⟩

/-- Two rows may be measured as one. -/
theorem Spans.of_widest {xs ys : List Nat} {rows : List (List Nat)} {ws : List Nat}
    (h : Spans (widest xs ys :: rows) ws) : Spans (xs :: ys :: rows) ws := by
  obtain ⟨hlength, hrows⟩ := List.forall_mem_cons.mp h.length_le
  obtain ⟨hle, hrowsLe⟩ := List.forall_mem_cons.mp h.le
  rw [length_widest] at hlength
  refine ⟨?_, ?_, ?_, ?_⟩
  · simp only [List.forall_mem_cons]
    exact ⟨by omega, by omega, hrows⟩
  · obtain ⟨row, hrow, heq⟩ := h.length_eq
    rcases List.mem_cons.mp hrow with rfl | hrow
    · rw [length_widest] at heq
      rcases Nat.le_total xs.length ys.length with hxy | hxy
      · exact ⟨ys, by simp, by omega⟩
      · exact ⟨xs, by simp, by omega⟩
    · exact ⟨row, by simp [hrow], heq⟩
  · simp only [List.forall_mem_cons]
    refine ⟨fun i x w hx hw ↦ ?_, fun i y w hy hw ↦ ?_, hrowsLe⟩
    · obtain ⟨v, hv, hxv⟩ := le_widest ys hx
      exact Nat.le_trans hxv (hle i v w hv hw)
    · obtain ⟨v, hv, hyv⟩ := le_widest xs hy
      exact Nat.le_trans hyv (hle i v w (widest_comm xs ys ▸ hv) hw)
  · intro i w hw
    obtain ⟨row, hrow, hget⟩ := h.attained i w hw
    rcases List.mem_cons.mp hrow with rfl | hrow
    · rcases getElem?_of_widest hget with hget | hget
      · exact ⟨xs, by simp, hget⟩
      · exact ⟨ys, by simp, hget⟩
    · exact ⟨row, by simp [hrow], hget⟩

theorem spans_foldl (rows : List (List Nat)) (ws : List Nat) :
    Spans (ws :: rows) (rows.foldl widest ws) := by
  induction rows generalizing ws with
  | nil => exact ⟨by simp, by simp, by simp +contextual, by simp⟩
  | cons row rows ih => exact (ih (widest ws row)).of_widest

/-- The columns of a table are those of its longest row, the header included, each as wide as its
widest cell. -/
theorem spans_columnWidths (t : Table) :
    Spans ((t.header :: t.rows).map (List.map (shownColumns columns)))
      (t.columnWidths columns) := by
  have hfold : t.columnWidths columns = (t.rows.map (List.map (shownColumns columns))).foldl widest
      (t.header.map (shownColumns columns)) := by
    rw [columnWidths, List.foldl_map, List.foldl_cons]
    rfl
  rw [hfold, List.map_cons]
  exact spans_foldl _ _

/-! ### Fields between borders -/

/-- Fields with a border before, between and after them. -/
def frame (border : UInt8) (fields : List Bytes) : Bytes :=
  border :: fields.flatMap fun f ↦ f ++ [border]

/-- Where the border before column `i` stands; behind the last column, where the last border
stands. -/
def borderAt (ws : List Nat) (i : Nat) : Nat := ((ws.take i).map (· + 3)).sum

theorem frame_cons (border : UInt8) (f : Bytes) (fields : List Bytes) :
    frame border (f :: fields) = border :: (f ++ frame border fields) := by
  simp [frame]

/-- Fields of two more bytes than the columns are wide put the borders where they belong. -/
theorem frame_split (border : UInt8) {fields : List Bytes} {ws : List Nat}
    (h : fields.map List.length = ws.map (· + 2)) {i : Nat} (hi : i ≤ ws.length) :
    ∃ before, frame border fields = before ++ frame border (fields.drop i) ∧
      before.length = borderAt ws i := by
  induction fields generalizing ws i with
  | nil =>
    obtain rfl : ws = [] := by simpa using h.symm
    exact ⟨[], by simp, by simp [borderAt]⟩
  | cons f fields ih =>
    cases ws with
    | nil => simp at h
    | cons w ws =>
      cases i with
      | zero => exact ⟨[], by simp, by simp [borderAt]⟩
      | succ i =>
        rw [List.map_cons, List.map_cons] at h
        obtain ⟨hf, hfields⟩ := List.cons.inj h
        obtain ⟨before, hbefore, hlength⟩ := ih hfields (by simpa using hi)
        refine ⟨border :: (f ++ before), ?_, ?_⟩
        · rw [frame_cons, hbefore]
          simp
        · simp only [borderAt] at hlength
          simp [borderAt, hf, hlength]
          omega

theorem length_frame (border : UInt8) {fields : List Bytes} {ws : List Nat}
    (h : fields.map List.length = ws.map (· + 2)) :
    (frame border fields).length = 1 + (ws.map (· + 3)).sum := by
  have hlength : fields.length = ws.length := by simpa using congrArg List.length h
  obtain ⟨before, hbefore, heq⟩ := frame_split border h (Nat.le_refl _)
  rw [hbefore, ← hlength, List.drop_length, List.length_append, heq, borderAt, ← hlength]
  simp [frame, hlength, Nat.add_comm]

/-! ### Lines -/

/-- A line of a table: a border, or the cells of a row with the alignments of the columns. -/
inductive Line where
  | border
  | cells (row : List Bytes) (alignments : List Alignment)

/-- A text stands in a field between spaces that fill it up to a width, on the side that an
alignment says. -/
def Sits (a : Alignment) (text : Bytes) (width : Nat) (field : Bytes) : Prop :=
  ∃ before after, before + text.length + after = width ∧
    field = 0x20 :: (Bytes.fill 0x20 before ++ text ++ Bytes.fill 0x20 after) ++ [0x20] ∧
    match a with
    | .left => before = 0
    | .right => after = 0
    | .centre => before ≤ after ∧ after ≤ before + 1

namespace Line

/-- The byte of the borders of a line. -/
def borderByte : Line → UInt8
  | .border => 0x2B
  | .cells _ _ => 0x7C

/-- What stands in column `i` of a line: dashes, or the text of the cell, which is empty if the row
has none there. Columns without an alignment are left aligned. -/
def Fills (i width : Nat) (field : Bytes) : Line → Prop
  | .border => field = Bytes.fill 0x2D (width + 2)
  | .cells row a => Sits (a.getD i .left) (strip (row.getD i [])) width field

/-- The fields of a line between its borders. -/
def fields (columns : Bytes → Nat) (ws : List Nat) : Line → List Bytes
  | .border => ws.map fun w ↦ Bytes.fill 0x2D (w + 2)
  | .cells row a =>
    ws.mapIdx fun i w ↦ 0x20 :: pad columns (row.getD i []) w (a.getD i .left) ++ [0x20]

/-- A line without its newline. -/
def text (columns : Bytes → Nat) (ws : List Nat) (l : Line) : Bytes :=
  frame l.borderByte (l.fields columns ws)

end Line

/-- A text is a line of a table with columns of these widths: it is one line, of one length for all,
each border stands at its offset, and each column holds what belongs there. -/
structure Draws (ws : List Nat) (l : Line) (text : Bytes) : Prop where
  newline_notMem : 0x0A ∉ text
  length : text.length = 1 + (ws.map (· + 3)).sum
  border : ∀ i ≤ ws.length, text[borderAt ws i]? = some l.borderByte
  field : ∀ (i w : Nat), ws[i]? = some w →
    l.Fills i w ((text.drop (borderAt ws i + 1)).take (w + 2))

/-- Fields of the right lengths with the right contents make a line. -/
theorem draws_frame {l : Line} {ws : List Nat} {fields : List Bytes}
    (hlength : fields.map List.length = ws.map (· + 2)) (hnewline : ∀ f ∈ fields, 0x0A ∉ f)
    (hfills : ∀ (i w : Nat) (f : Bytes), ws[i]? = some w → fields[i]? = some f → l.Fills i w f) :
    Draws ws l (frame l.borderByte fields) where
  newline_notMem := by
    have hborder : (0x0A : UInt8) ≠ l.borderByte := by cases l <;> simp [Line.borderByte]
    simp only [frame, List.mem_cons, List.mem_flatMap, List.mem_append, List.not_mem_nil, or_false,
      not_or, not_exists, not_and]
    exact ⟨hborder, fun f hf ↦ ⟨hnewline f hf, hborder⟩⟩
  length := length_frame l.borderByte hlength
  border i hi := by
    obtain ⟨before, hbefore, heq⟩ := frame_split l.borderByte hlength hi
    rw [hbefore, ← heq, List.getElem?_append_right (Nat.le_refl _), Nat.sub_self]
    rfl
  field i w hw := by
    obtain ⟨hi, rfl⟩ := List.getElem?_eq_some_iff.mp hw
    have hcount : fields.length = ws.length := by simpa using congrArg List.length hlength
    obtain ⟨before, hbefore, heq⟩ := frame_split l.borderByte hlength (Nat.le_of_lt hi)
    have hi' : i < fields.length := hcount ▸ hi
    have hget : fields[i]? = some fields[i] := List.getElem?_eq_getElem hi'
    have hwidth : fields[i].length = ws[i] + 2 := by
      have := congrArg (fun ns ↦ ns[i]?) hlength
      simpa [hget, hw] using this
    rw [hbefore, ← heq, ← List.drop_drop, List.drop_left, List.drop_eq_getElem_cons hi',
      frame_cons, List.drop_one, List.tail_cons, ← hwidth, List.take_left]
    exact hfills i _ _ hw hget

/-! ### Rows -/

/-- Padding puts a printable text that is not too wide in its place. -/
theorem sits_pad (hcolumns : Text.Narrow columns) {text : Bytes}
    (h : ∀ b ∈ text, Text.isPrintableAscii b = true) {width : Nat} (hwidth : text.length ≤ width)
    (a : Alignment) : Sits a text width (0x20 :: pad columns text width a ++ [0x20]) := by
  have hshown : shownColumns columns text = text.length := by
    have hescape : 0x1B ∉ text := fun hmem ↦ absurd (h _ hmem) (by decide)
    rw [shownColumns, (Displays.self hescape).strip_eq, hcolumns _ h]
  unfold pad
  rw [hshown]
  cases a with
  | left => exact ⟨0, width - text.length, by omega, by simp [Bytes.fill], rfl⟩
  | right => exact ⟨width - text.length, 0, by omega, by simp [Bytes.fill], rfl⟩
  | centre =>
    exact ⟨(width - text.length) / 2, width - text.length - (width - text.length) / 2, by omega,
      rfl, by omega, by omega⟩

theorem Sits.length {a : Alignment} {text field : Bytes} {width : Nat}
    (h : Sits a text width field) : field.length = width + 2 := by
  obtain ⟨before, after, hsum, rfl, -⟩ := h
  simp
  omega

theorem Sits.mem {a : Alignment} {text field : Bytes} {width : Nat} {b : UInt8}
    (h : Sits a text width field) (hb : b ∈ field) : b = 0x20 ∨ b ∈ text := by
  obtain ⟨before, after, -, rfl, -⟩ := h
  simp only [Bytes.fill, List.cons_append, List.mem_cons, List.mem_append, List.mem_replicate,
    List.not_mem_nil, or_false] at hb
  tauto

/-- A border is a line. -/
theorem draws_border (ws : List Nat) : Draws ws .border (Line.text columns ws .border) := by
  apply draws_frame
  · simp [Line.fields, Function.comp_def]
  · simp [Line.fields, Bytes.fill]
  · intro i w f hw hf
    simp only [Line.fields, List.getElem?_map, hw, Option.map_some, Option.some.injEq] at hf
    exact hf.symm

/-- A row whose texts are printable and not wider than their columns is a line, when it is written
with these texts. -/
theorem draws_cells (hcolumns : Text.Narrow columns) {row : List Bytes} {ws : List Nat}
    (hprintable : ∀ i, ∀ b ∈ strip (row.getD i []), Text.isPrintableAscii b = true)
    (hwidth : ∀ (i w : Nat), ws[i]? = some w → (strip (row.getD i [])).length ≤ w)
    (a : List Alignment) :
    Draws ws (.cells row a) (Line.text columns ws (.cells (row.map strip) a)) := by
  have hfills (i w : Nat) (f : Bytes) (hw : ws[i]? = some w)
      (hf : (Line.fields columns ws (.cells (row.map strip) a))[i]? = some f) :
      Sits (a.getD i .left) (strip (row.getD i [])) w f := by
    simp only [Line.fields, List.getElem?_mapIdx, hw, Option.map_some, Option.some.injEq] at hf
    have hcell : (row.map strip).getD i [] = strip (row.getD i []) := by
      rw [List.getD_eq_getElem?_getD, List.getD_eq_getElem?_getD, List.getElem?_map]
      cases row[i]? <;> rfl
    rw [← hf, hcell]
    exact sits_pad hcolumns (hprintable i) (hwidth i w hw) _
  have hcount : (Line.fields columns ws (.cells (row.map strip) a)).length = ws.length :=
    List.length_mapIdx
  apply draws_frame _ _ hfills
  · apply List.ext_getElem
    · simpa using hcount
    · intro i hi hi'
      rw [List.length_map] at hi hi'
      rw [List.getElem_map, List.getElem_map]
      exact (hfills i _ _ (List.getElem?_eq_getElem hi') (List.getElem?_eq_getElem hi)).length
  · intro f hf hmem
    obtain ⟨i, hi⟩ := List.getElem?_of_mem hf
    have hi' : i < ws.length := hcount ▸ (List.getElem?_eq_some_iff.mp hi).1
    rcases (hfills i _ f (List.getElem?_eq_getElem hi') hi).mem hmem with hspace | htext
    · exact absurd hspace (by decide)
    · exact absurd (hprintable i _ htext) (by decide)

theorem separator_eq (ws : List Nat) :
    separator ws = frame 0x2B (ws.map fun w ↦ Bytes.fill 0x2D (w + 2)) ++ [0x0A] := by
  simp [separator, frame, List.flatMap_map]

theorem rowCells_eq (row : List Bytes) (a : List Alignment) (ws : List Nat) :
    rowCells columns row a ws =
      (Line.fields columns ws (.cells row a)).flatMap fun f ↦ f ++ [0x7C] := by
  induction ws generalizing row a with
  | nil => rfl
  | cons w ws ih =>
    rw [rowCells, ih, Line.fields, Line.fields, List.mapIdx_cons, List.flatMap_cons]
    cases row <;> cases a <;> simp

theorem text_cells (row : List Bytes) (a : List Alignment) (ws : List Nat) :
    Line.text columns ws (.cells row a) = 0x7C :: rowCells columns row a ws := by
  rw [Line.text, frame, rowCells_eq]
  rfl

/-! ### Tables -/

/-- The lines of a table from the top. -/
def plan (columns : Bytes → Nat) (t : Table) : List Line :=
  if (t.columnWidths columns).isEmpty then []
  else
    .border ::
      ((if t.header.isEmpty then [] else [.cells t.header t.headerAlignment, .border])
      ++ t.rows.map (fun row ↦ .cells row t.rowAlignment)
      ++ (if t.rows.isEmpty then [] else [.border]))

/-- The cells in the lines of a table are those of its header and of its rows. -/
theorem mem_of_cells_mem_plan {t : Table} {row : List Bytes} {a : List Alignment}
    (h : .cells row a ∈ t.plan columns) : row ∈ t.header :: t.rows := by
  unfold plan at h
  split at h
  · cases h
  · simp only [List.mem_cons, List.mem_append, List.mem_map, reduceCtorEq, false_or] at h
    rcases h with (h | ⟨row', hrow', heq⟩) | h
    · split at h
      · cases h
      · simp only [List.mem_cons, Line.cells.injEq, reduceCtorEq, List.not_mem_nil, or_false] at h
        simp [h.1]
    · cases heq
      exact List.mem_cons_of_mem _ hrow'
    · split at h
      · cases h
      · simp at h

/-- A table is written line by line. -/
theorem lines_eq (t : Table) :
    t.lines columns =
      (t.plan columns).map fun l ↦ l.text columns (t.columnWidths columns) ++ [0x0A] := by
  have hcells (row : List Bytes) (a : List Alignment) (ws : List Nat) :
      rowLine columns row a ws = Line.text columns ws (.cells row a) ++ [0x0A] := by
    rw [rowLine, text_cells]
  have hborder (ws : List Nat) : separator ws = Line.text columns ws .border ++ [0x0A] :=
    separator_eq ws
  unfold lines plan
  simp only [hcells, hborder]
  split
  · rfl
  · cases t.header.isEmpty <;> cases t.rows.isEmpty <;> simp [Function.comp_def]

/-- Every cell of a table is legible. -/
def Clear (t : Table) : Prop := ∀ row ∈ t.header :: t.rows, ∀ cell ∈ row, Legible cell

/-- The columns of a clear table are as wide as the texts of its cells are long. -/
theorem Clear.spans {t : Table} (h : t.Clear) (hcolumns : Text.Narrow columns) :
    Spans ((t.header :: t.rows).map (List.map fun cell ↦ (strip cell).length))
      (t.columnWidths columns) := by
  have hsame : (t.header :: t.rows).map (List.map (shownColumns columns)) =
      (t.header :: t.rows).map (List.map fun cell ↦ (strip cell).length) :=
    List.map_congr_left fun row hrow ↦
      List.map_congr_left fun cell hcell ↦
        shownColumns_of_legible hcolumns (h row hrow cell hcell)
  rw [← hsame]
  exact t.spans_columnWidths

/-- Every row of a clear table is drawn as it belongs, with the texts of its cells. -/
theorem Clear.draws_cells {t : Table} (h : t.Clear) (hcolumns : Text.Narrow columns)
    {row : List Bytes} (hrow : row ∈ t.header :: t.rows) (a : List Alignment) :
    Draws (t.columnWidths columns) (.cells row a)
      (Line.text columns (t.columnWidths columns) (.cells (row.map strip) a)) := by
  refine Table.draws_cells hcolumns (fun i ↦ ?_) (fun i w hw ↦ ?_) a
  · rw [List.getD_eq_getElem?_getD]
    cases hcell : row[i]? with
    | none => exact List.forall_mem_nil _
    | some cell => exact (h row hrow cell (List.mem_of_getElem? hcell)).printable_strip
  · rw [List.getD_eq_getElem?_getD]
    cases hcell : row[i]? with
    | none => exact Nat.zero_le w
    | some cell =>
      exact (h.spans hcolumns).le _ (List.mem_map_of_mem hrow) i _ w (by simp [hcell]) hw

/-- A written line of a clear table displays a line that is drawn as it belongs. -/
theorem Clear.exists_displays {t : Table} (h : t.Clear) (hcolumns : Text.Narrow columns) {l : Line}
    (hl : l ∈ t.plan columns) :
    ∃ text, Displays (l.text columns (t.columnWidths columns)) text ∧
      Draws (t.columnWidths columns) l text := by
  cases l with
  | border =>
    refine ⟨Line.text columns _ .border, ?_, draws_border (t.columnWidths columns)⟩
    apply Displays.self
    simp [Line.text, Line.borderByte, frame, Line.fields, Bytes.fill]
  | cells row a =>
    have hrow := mem_of_cells_mem_plan hl
    refine ⟨_, ?_, h.draws_cells hcolumns hrow a⟩
    rw [text_cells, text_cells]
    refine .byte (by decide) (displays_rowCells ?_ a (t.columnWidths columns))
    rw [List.forall₂_map_right_iff, List.forall₂_same]
    exact fun cell hcell ↦ (h row hrow cell hcell).displays_strip

/-- What changes a table. -/
inductive Edit where
  | header (cells : List Bytes)
  | rows (more : List (List Bytes))
  | append (row : List Bytes)
  | rowAlignment (numbers : List Int)
  | headerAlignment (numbers : List Int)

/-- The table after a change. -/
def edit (t : Table) : Edit → Table
  | .header cells => t.withHeader cells
  | .rows more => t.withRows more
  | .append row => t.append row
  | .rowAlignment numbers => t.withRowAlignment (numbers.map .ofNumber)
  | .headerAlignment numbers => t.withHeaderAlignment (numbers.map .ofNumber)

/-- The table that changes make, one after the other, of an empty one. -/
def built (edits : List Edit) : Table := edits.foldl edit {}

/-- A table of printable ASCII and complete escape sequences, however it was built and however many
columns other texts take: it has as many columns as its longest row or header, each as wide as its
widest cell. It is written line by line, one for each line of the plan. Without the sequences all
lines have the same length, the borders of a column stand at the same offset in each, and in every
column of a row stands the text of the cell, unaltered. -/
theorem render_aligned (columns : Bytes → Nat) (hcolumns : Text.Narrow columns) (edits : List Edit)
    (h : (built edits).Clear) :
    let t := built edits
    let ws := t.columnWidths columns
    Spans ((t.header :: t.rows).map (List.map fun cell ↦ (strip cell).length)) ws ∧
      ∃ texts : List Bytes, t.render columns = texts.flatMap (fun text ↦ text ++ [0x0A]) ∧
        (∀ text ∈ texts, 0x0A ∉ text) ∧
        List.Forall₂ (fun l text ↦ Draws ws l (strip text)) (t.plan columns) texts := by
  intro t ws
  refine ⟨h.spans hcolumns, (t.plan columns).map (Line.text columns ws), ?_, ?_, ?_⟩
  · rw [render, lines_eq, List.flatMap_map, List.flatMap_def]
  · intro text htext
    obtain ⟨l, hl, rfl⟩ := List.mem_map.mp htext
    obtain ⟨shown, hdisplays, hdraws⟩ := h.exists_displays hcolumns hl
    exact hdisplays.newline_notMem hdraws.newline_notMem
  · rw [List.forall₂_map_right_iff, List.forall₂_same]
    intro l hl
    obtain ⟨shown, hdisplays, hdraws⟩ := h.exists_displays hcolumns hl
    rw [hdisplays.strip_eq]
    exact hdraws

/-- A row before the header, an empty one, a red cell, and a number that stands for no alignment,
with columns as on the standard screen: they are five wide and one wide, and each of the six lines
displays 13 bytes. -/
theorem render_aligned_coloured :
    let red : Bytes := [0x1B, 0x5B, 0x33, 0x31, 0x6D]
    let plain : Bytes := [0x1B, 0x5B, 0x6D]
    let t := built [.append [], .rowAlignment [2, 7], .header ["op"],
      .rows [[red ++ "match" ++ plain, "1"]]]
    t.Clear ∧ t.columnWidths Text.columns = [5, 1] ∧
      ∃ texts : List Bytes, t.render = texts.flatMap (fun text ↦ text ++ [0x0A]) ∧
        texts.length = 6 ∧ ∀ text ∈ texts, 0x0A ∉ text ∧ (strip text).length = 13 := by
  intro red plain t
  have hred : Text.Style.Complete red :=
    @Text.Style.Complete.intro [0x33, 0x31] 0x6D (by decide +kernel) (by decide)
  have hplain : Text.Style.Complete plain :=
    @Text.Style.Complete.intro [] 0x6D (List.forall_mem_nil _) (by decide)
  have hmatch : Legible (red ++ "match" ++ plain) :=
    ⟨"match", (Displays.sequence hred (.self (by decide))).append
      (.sequence hplain .nil), by decide +kernel⟩
  have hclear : t.Clear := by
    have hcells : ∀ row ∈ ([["op"], [], [red ++ "match" ++ plain, "1"]] : List (List Bytes)),
        ∀ cell ∈ row, Legible cell := by
      simp only [List.forall_mem_cons, List.not_mem_nil, false_implies, implies_true, and_true,
        true_and]
      exact ⟨⟨"op", .self (by decide), by decide +kernel⟩, hmatch,
        ⟨"1", .self (by decide), by decide +kernel⟩⟩
    exact hcells
  have hwidths : t.columnWidths Text.columns = [5, 1] := by decide +kernel
  obtain ⟨-, texts, hrender, hnewline, hdraws⟩ :=
    render_aligned Text.columns Text.narrow_columns _ hclear
  have hcount : texts.length = 6 := by
    rw [← hdraws.length_eq, plan, hwidths]
    rfl
  refine ⟨hclear, hwidths, texts, hrender, hcount, fun text htext ↦ ⟨hnewline text htext, ?_⟩⟩
  obtain ⟨⟨i, hi⟩, rfl⟩ := List.mem_iff_get.mp htext
  rw [(hdraws.get (hdraws.length_eq ▸ hi) hi).length, hwidths]
  rfl

end Table

end GrammarCode
