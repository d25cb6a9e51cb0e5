import GrammarCode.Proofs.Listing
import GrammarCode.Proofs.TableLayout
import GrammarCode.Proofs.Truncation

/-!
# Colour and layout

Columns are measured on what is displayed and operands are cut before they are painted, so a
coloured table displays the table of the displayed cells: colour changes no width, no padding and no
cut, as long as the screen paints around a text. A listing has no ESC of its own, since patterns are
quoted.
-/

namespace GrammarCode

open Text.Style (Displays)

/-! ### Tables -/

namespace Table

variable {columns : Bytes → Nat}

theorem displays_rowLine {row plain : List Bytes} (h : List.Forall₂ Displays row plain)
    (a : List Alignment) (ws : List Nat) :
    Displays (rowLine columns row a ws) (rowLine columns plain a ws) :=
  .byte (by decide) ((displays_rowCells h a ws).append (.self (by decide)))

theorem displays_separator (ws : List Nat) : Displays (separator ws) (separator ws) := by
  apply Displays.self
  simp [separator, Bytes.fill]

/-- Two tables of the same shape, the cells of one displaying those of the other. -/
structure Displaying (t plain : Table) : Prop where
  header : List.Forall₂ Displays t.header plain.header
  rows : List.Forall₂ (List.Forall₂ Displays) t.rows plain.rows
  rowAlignment : t.rowAlignment = plain.rowAlignment
  headerAlignment : t.headerAlignment = plain.headerAlignment

namespace Displaying

variable {t plain : Table} (h : t.Displaying plain)

include h

theorem columnWidths_eq : t.columnWidths columns = plain.columnWidths columns := by
  have hrow {row row' : List Bytes} (hrow : List.Forall₂ Displays row row') :
      row.map (shownColumns columns) = row'.map (shownColumns columns) := by
    induction hrow with
    | nil => rfl
    | cons hhead _ ih =>
      rw [List.map_cons, List.map_cons, shownColumns_eq_of_displays hhead, ih]
  have hrows {rows rows' : List (List Bytes)}
      (hrows : List.Forall₂ (List.Forall₂ Displays) rows rows') :
      rows.map (List.map (shownColumns columns)) = rows'.map (List.map (shownColumns columns)) := by
    induction hrows with
    | nil => rfl
    | cons hhead _ ih => rw [List.map_cons, List.map_cons, hrow hhead, ih]
  have hfold (t : Table) : t.columnWidths columns =
      ((t.header :: t.rows).map (List.map (shownColumns columns))).foldl widest [] := by
    rw [columnWidths, List.foldl_map]
  rw [hfold, hfold, hrows (.cons h.header h.rows)]

/-- The lines of the one table display those of the other. -/
theorem lines : List.Forall₂ Displays (t.lines columns) (plain.lines columns) := by
  have hisEmpty {α β : Type} {R : α → β → Prop} {xs : List α} {ys : List β}
      (h : List.Forall₂ R xs ys) : xs.isEmpty = ys.isEmpty := by
    cases h <;> rfl
  have hseparator := displays_separator (plain.columnWidths columns)
  unfold Table.lines
  simp only [h.columnWidths_eq, h.headerAlignment, h.rowAlignment, hisEmpty h.header,
    hisEmpty h.rows]
  split
  · exact .nil
  · refine .cons hseparator (List.rel_append (List.rel_append ?_ ?_) ?_)
    · split
      · exact .nil
      · exact .cons (displays_rowLine h.header _ _) (.cons hseparator .nil)
    · rw [List.forall₂_map_left_iff, List.forall₂_map_right_iff]
      exact h.rows.imp fun _ _ hrow ↦ displays_rowLine hrow _ _
    · split
      · exact .nil
      · exact .cons hseparator .nil

/-- Without escape sequences the text of the one table is that of the other. -/
theorem strip_render : Text.Style.strip (t.render columns) = plain.render columns :=
  (Displays.flatten h.lines).strip_eq

end Displaying

/-- A text stands between spaces, at least one on each side. -/
def Spaced (text field : Bytes) : Prop :=
  ∃ before after, field = Bytes.fill 0x20 (before + 1) ++ text ++ Bytes.fill 0x20 (after + 1)

/-- A line shows texts, one after the other between borders. -/
def Shows (texts : List Bytes) (line : Bytes) : Prop :=
  ∃ fields, List.Forall₂ Spaced texts fields ∧ line = frame 0x7C fields ++ [0x0A]

theorem spaced_pad (cell : Bytes) (width : Nat) (a : Alignment) :
    Spaced cell (0x20 :: pad columns cell width a ++ [0x20]) := by
  have hspaced (before after : Nat) : Spaced cell
      (0x20 :: (Bytes.fill 0x20 before ++ cell ++ Bytes.fill 0x20 after) ++ [0x20]) := by
    refine ⟨before, after, ?_⟩
    rw [Bytes.fill, Bytes.fill, Bytes.fill, Bytes.fill, List.replicate_succ,
      List.replicate_succ' (n := after)]
    simp
  unfold pad
  cases a with
  | left => simpa [Bytes.fill] using hspaced 0 (width - shownColumns columns cell)
  | right => simpa [Bytes.fill] using hspaced (width - shownColumns columns cell) 0
  | centre => exact hspaced _ _

/-- The line of a row that has a cell in every column shows these cells. -/
theorem shows_rowLine {row : List Bytes} {ws : List Nat} (h : row.length = ws.length)
    (a : List Alignment) : Shows row (rowLine columns row a ws) := by
  refine ⟨Line.fields columns ws (.cells row a), ?_, ?_⟩
  · rw [List.forall₂_iff_get]
    refine ⟨by simpa [Line.fields] using h, fun i hi hi' ↦ ?_⟩
    have hcell : row.getD i [] = row[i] := by simp [List.getD_eq_getElem?_getD, hi]
    simp only [Line.fields, List.get_eq_getElem, List.getElem_mapIdx, hcell]
    exact spaced_pad row[i] _ _
  · rw [rowLine, ← text_cells]
    rfl

end Table

/-! ### Listings -/

/-- No text of a line has an ESC. -/
structure ListingLine.EscapeFree (l : ListingLine) : Prop where
  name : 0x1B ∉ l.name
  operands : ∀ o ∈ l.operands, 0x1B ∉ o
  annotation : 0x1B ∉ l.annotation

theorem Bytes.escape_notMem_decimal (n : Int) : 0x1B ∉ decimal n := by
  intro h
  exact absurd (mem_decimal_cases h) (by decide)

namespace Listing

variable {screen : Text.Screen}

/-- A cut text is a beginning of the text with dots, if it is cut at all. -/
theorem mem_truncate (hclusters : screen.Partitions) {s : Bytes} {width : Nat} {b : UInt8}
    (h : b ∈ truncate screen s width) : b ∈ s ∨ b = 0x2E := by
  unfold truncate at h
  split at h
  · exact .inl h
  · rcases List.mem_append.mp h with h | h
    · exact .inl ((flatten_isPrefix hclusters (fitting_isPrefix (width - 3) _)).subset h)
    · right
      rw [show Bytes.ofString "..." = [0x2E, 0x2E, 0x2E] by decide] at h
      simpa using h

theorem displays_operandsCell (hclusters : screen.Partitions) (hpaint : screen.PaintsAround)
    {l : ListingLine} (h : ∀ o ∈ l.operands, 0x1B ∉ o) :
    Displays (operandsCell screen true l) (operandsCell screen false l) := by
  refine Displays.join (by decide) ?_
  rw [List.forall₂_map_left_iff, List.forall₂_map_right_iff, List.forall₂_same]
  intro o ho
  apply hpaint.displays
  intro hescape
  rcases mem_truncate hclusters hescape with hescape | hdot
  · exact h o ho hescape
  · cases hdot

/-- The coloured cells of a line display its plain cells. -/
theorem displays_cells (hclusters : screen.Partitions) (hpaint : screen.PaintsAround)
    {l : ListingLine} (h : l.EscapeFree) :
    List.Forall₂ Displays (cells screen true l) (cells screen false l) := by
  refine .cons (.self (Bytes.escape_notMem_decimal l.offset))
    (.cons (hpaint.displays _ h.name)
      (.cons (displays_operandsCell hclusters hpaint h.operands) (.cons ?_ .nil)))
  split
  · exact .nil
  · exact hpaint.displays _ h.annotation

/-- The coloured table of a listing displays the plain one. -/
theorem displaying_table (hclusters : screen.Partitions) (hpaint : screen.PaintsAround)
    {ls : List ListingLine} (h : ∀ l ∈ ls, l.EscapeFree) :
    (table screen true ls).Displaying (table screen false ls) where
  header := List.forall₂_same.mpr fun cell hcell ↦ .self (by
    simp only [table, List.mem_cons, List.not_mem_nil, or_false] at hcell
    obtain rfl | rfl | rfl | rfl := hcell <;> decide)
  rows := by
    simp only [table]
    rw [List.forall₂_map_left_iff, List.forall₂_map_right_iff, List.forall₂_same]
    exact fun l hl ↦ displays_cells hclusters hpaint (h l hl)
  rowAlignment := rfl
  headerAlignment := rfl

/-- What is shown of a line: its offset, its name, its operands with commas between them, each cut
to forty columns, and its annotation. -/
def texts (screen : Text.Screen) (l : ListingLine) : List Bytes :=
  [Bytes.decimal l.offset, l.name, Bytes.join ", " (l.operands.map fun o ↦ truncate screen o 40),
   l.annotation]

theorem cells_plain (hpaint : screen.PaintsAround) (l : ListingLine) :
    cells screen false l = texts screen l := by
  have hannotation : (if l.annotation.isEmpty then [] else l.annotation) = l.annotation := by
    split
    · next h => exact (List.isEmpty_iff.mp h).symm
    · rfl
  simp only [cells, operandsCell, hpaint.plain, hannotation]
  rfl

/-- Every row of a listing's table has a cell in each of its four columns. -/
theorem length_columnWidths_table (colour : Bool) (ls : List ListingLine) :
    ((table screen colour ls).columnWidths screen.columns).length = 4 := by
  have hspans : Table.Spans _ ((table screen colour ls).columnWidths screen.columns) :=
    (table screen colour ls).spans_columnWidths
  obtain ⟨row, hrow, hlength⟩ := hspans.length_eq
  obtain ⟨cells, hcells, rfl⟩ := List.mem_map.mp hrow
  rw [← hlength, List.length_map]
  rcases List.mem_cons.mp hcells with rfl | hcells
  · rfl
  · obtain ⟨l, -, rfl⟩ := List.mem_map.mp hcells
    rfl

/-- A plain listing is a table: its header between borders, a row for each line with the texts of
the line, and a border below them. -/
theorem print_plain (hpaint : screen.PaintsAround) (ls : List ListingLine) :
    ∃ (border header : Bytes) (rows : List Bytes),
      print false ls screen =
        border ++ header ++ border ++ rows.flatten ++ (if ls = [] then [] else border) ∧
      (∃ ws : List Nat, ws.length = 4 ∧
        border = Table.frame 0x2B (ws.map fun w ↦ Bytes.fill 0x2D (w + 2)) ++ [0x0A]) ∧
      Table.Shows ["OFFSET", "OPCODE", "OPERANDS", "INFO"] header ∧
      List.Forall₂ (fun l row ↦ Table.Shows (texts screen l) row) ls rows := by
  have hlength : ((table screen false ls).columnWidths screen.columns).length = 4 :=
    length_columnWidths_table false ls
  let t := table screen false ls
  let ws := t.columnWidths screen.columns
  refine ⟨Table.separator ws, Table.rowLine screen.columns t.header t.headerAlignment ws,
    t.rows.map fun row ↦ Table.rowLine screen.columns row t.rowAlignment ws, ?_,
    ⟨ws, hlength, Table.separator_eq ws⟩, Table.shows_rowLine ?_ _, ?_⟩
  · have hws : (t.columnWidths screen.columns).isEmpty = false := by
      rw [List.isEmpty_eq_false_iff]
      exact List.ne_nil_of_length_eq_add_one hlength
    rw [print, Table.render]
    change (t.lines screen.columns).flatten = _
    unfold Table.lines
    simp only [hws]
    cases ls <;> simp [t, table, ws]
  · exact hlength.symm
  · rw [List.forall₂_map_right_iff, show t.rows = ls.map (cells screen false) from rfl,
      List.forall₂_map_right_iff, List.forall₂_same]
    intro l hl
    rw [← cells_plain hpaint]
    have hcells : (cells screen false l).length = ws.length := hlength.symm
    exact Table.shows_rowLine hcells _

end Listing

/-! ### Listings have no ESC -/

theorem Bytes.escape_notMem_hex (width n : Nat) : 0x1B ∉ hex width n := by
  have hdigit : ∀ d, d < 16 → hexDigit d ≠ 0x1B := by decide
  induction width generalizing n with
  | zero => exact List.not_mem_nil
  | succ w ih =>
    rw [hex, List.mem_append, not_or, List.mem_singleton]
    exact ⟨ih (n / 16), Ne.symm (hdigit _ (Nat.mod_lt n (by decide)))⟩

namespace Text

theorem Quoted.escape_notMem_item (g : Glyph) : 0x1B ∉ Quoted.item g := by
  have hnumbered (letter : UInt8) (hletter : letter ≠ 0x1B) (width code : Nat) :
      0x1B ∉ 0x5C :: letter :: Bytes.hex width code := by
    simp only [List.mem_cons, not_or]
    exact ⟨by decide, Ne.symm hletter, Bytes.escape_notMem_hex width code⟩
  cases g with
  | stray b => exact hnumbered 0x78 (by decide) 2 _
  | char c =>
    rw [item]
    cases hshort : shortEscape? c.toNat with
    | some letter =>
      have hletter : letter ≠ 0x1B := by
        unfold shortEscape? at hshort
        split at hshort <;> cases hshort <;> decide
      simpa using hletter.symm
    | none =>
      dsimp only
      split
      · next hprintable =>
        -- A byte of a character below 0x80 is its code, and ESC is no printable one.
        intro hescape
        rcases (Utf8.formed_encode c).mem_cases _ hescape with hcode | hhigh
        · have hc : c = Char.ofNat 0x1B := by rw [← Char.ofNat_toNat c, ← hcode]; rfl
          rw [hc] at hprintable
          exact absurd hprintable (by decide)
        · exact absurd hhigh (by decide)
      · unfold codeEscape
        split
        · exact hnumbered 0x78 (by decide) 2 _
        · split
          · exact hnumbered 0x75 (by decide) 4 _
          · exact hnumbered 0x55 (by decide) 8 _

/-- A quoted text has no ESC, whatever the text is. -/
theorem escape_notMem_quoted (b : Bytes) : 0x1B ∉ quoted b := by
  simp only [quoted, List.cons_append, List.mem_cons, List.mem_append, List.mem_flatMap,
    List.not_mem_nil, or_false, not_or, not_exists, not_and]
  exact ⟨by decide, fun g _ ↦ Quoted.escape_notMem_item g, by decide⟩

end Text

theorem Operation.escape_notMem_name (o : Operation) : 0x1B ∉ Bytes.ofString o.name := by
  cases o <;> decide

namespace Program

theorem escape_notMem_arrow (size : Nat) (target : Int) : 0x1B ∉ arrow size target := by
  simp only [arrow, Bytes.cat, List.mem_flatten, List.mem_cons, List.not_mem_nil, or_false,
    not_exists, not_and]
  rintro part (rfl | rfl | rfl)
  · decide
  · exact Bytes.escape_notMem_decimal target
  · split <;> decide

/-- The line of an instruction has no ESC. -/
theorem escapeFree_of_listingLine {p : Program} {offset : Nat} {i : Instruction}
    {line : ListingLine} (h : p.listingLine offset i = .ok line) : line.EscapeFree := by
  unfold listingLine at h
  split at h
  · cases h
  · cases h
    exact ⟨Operation.escape_notMem_name _, by simpa using Text.escape_notMem_quoted i.pattern,
      List.not_mem_nil⟩
  · cases h
    exact ⟨Operation.escape_notMem_name _, by simpa using Bytes.escape_notMem_decimal i.count,
      List.not_mem_nil⟩
  · split at h
    · cases h
    · next target _ =>
      cases h
      refine ⟨Operation.escape_notMem_name _, ?_, escape_notMem_arrow p.size target⟩
      have hreference : 0x1B ∉ Bytes.ofString "@" ++ Bytes.decimal i.target := by
        rw [List.mem_append, not_or]
        exact ⟨by decide, Bytes.escape_notMem_decimal i.target⟩
      simpa [Bytes.cat] using hreference

/-- No line of a listing has an ESC. -/
theorem escapeFree_of_listing {p : Program} {lines : List ListingLine}
    (h : p.listing = .ok lines) : ∀ l ∈ lines, l.EscapeFree := by
  intro l hl
  obtain ⟨hlength, hlines⟩ := lines_of_listing h
  obtain ⟨k, hk⟩ := List.getElem?_of_mem hl
  have hbound : k < p.size := hlength ▸ (List.getElem?_eq_some_iff.mp hk).1
  obtain ⟨line, hline, hi⟩ := hlines k _ (Array.getElem?_eq_getElem hbound)
  obtain rfl := Option.some.inj (hk.symm.trans hline)
  exact escapeFree_of_listingLine hi

end Program

/-- Colour does not change the layout, on every screen on which clusters make up a text and colours
are complete escape sequences around it: of lines without ESC, the listing in colour is, without its
escape sequences, the plain listing byte for byte, and that is a table with a row for each line,
which shows the texts of the line. The listing of a program has lines without ESC only. -/
theorem Listing.strip_print (screen : Text.Screen) (hclusters : screen.Partitions)
    (hpaint : screen.PaintsAround) :
    (∀ ls : List ListingLine, (∀ l ∈ ls, l.EscapeFree) →
      Text.Style.strip (print true ls screen) = print false ls screen) ∧
    (∀ ls : List ListingLine, ∃ (border header : Bytes) (rows : List Bytes),
      print false ls screen =
        border ++ header ++ border ++ rows.flatten ++ (if ls = [] then [] else border) ∧
      (∃ ws : List Nat, ws.length = 4 ∧
        border = Table.frame 0x2B (ws.map fun w ↦ Bytes.fill 0x2D (w + 2)) ++ [0x0A]) ∧
      Table.Shows ["OFFSET", "OPCODE", "OPERANDS", "INFO"] header ∧
      List.Forall₂ (fun l row ↦ Table.Shows (texts screen l) row) ls rows) ∧
    ∀ (p : Program) (ls : List ListingLine), p.listing = .ok ls → ∀ l ∈ ls, l.EscapeFree :=
  ⟨fun _ h ↦ (displaying_table hclusters hpaint h).strip_render, print_plain hpaint,
    fun _ _ h ↦ Program.escapeFree_of_listing h⟩

/-- On the standard screen: lines with no operand, with several and with one that is cut between
wide characters, and the listing of a program whose pattern is itself an escape sequence. -/
theorem Listing.strip_print_cut :
    let wide : Bytes := "\"日本語日本語日本語日本語日本語日本語日本語e\u0301\""
    let ls : List ListingLine :=
      [{ name := "NOTHING" },
       { name := "MATCH", opcode := 1, operands := [wide, "x"], annotation := "-> 7" }]
    let p : Program :=
      { id := []
        instructions := #[.matching [0x1B, 0x5B, 0x33, 0x31, 0x6D], .branching 0]
        addresses := #[2] }
    Text.Style.strip (print true ls) = print false ls ∧
    ∃ lines, p.listing = .ok lines ∧ Text.Style.strip (print true lines) = print false lines := by
  intro wide ls p
  obtain ⟨hstrip, -, hlisting⟩ := strip_print .standard Text.Screen.standard_partitions
    Text.Screen.standard_paintsAround
  refine ⟨hstrip ls ?_, _, rfl, hstrip _ (hlisting p _ rfl)⟩
  simp only [ls, List.forall_mem_cons]
  exact ⟨⟨by decide, by decide, by decide⟩, ⟨by decide, by decide +kernel, by decide⟩,
    List.forall_mem_nil _⟩

end GrammarCode
