import GrammarCode.Proofs.Decimal
import GrammarCode.Proofs.GaplessRun
import Mathlib.Algebra.Group.Int.Defs
import Mathlib.Data.List.Basic

/-!
# Shown positions

A file read to its end resolves every offset, behind its end as well, to the line and the column
that the offset has in the content. Offsets and columns are numbers of 64 bits with sign, and a
column is one more than a distance. So there is one offset whose column may not fit: the greatest,
if no line ended before it. Every other one is shown with a line and a column from one.
-/

namespace GrammarCode

/-- Without a line end before it, the line of an offset starts at zero. -/
theorem lineStart_eq_zero_iff (content : Bytes) (offset : Nat) :
    lineStart content offset = 0 ↔ 0x0A ∉ content.take offset := by
  induction offset with
  | zero => simp [lineStart]
  | succ n ih =>
    rw [lineStart, List.take_add_one, List.mem_append, not_or, ← ih]
    cases hb : content[n]? with
    | none => simp
    | some b => by_cases h : b = 0x0A <;> simp [h, eq_comm]

namespace Source

variable {σ : Type}

/-- A source that has read the content to its end resolves every offset. -/
theorem lineAndColumn_of_full {content : Bytes} {src : Source σ} (h : src.index.Full content)
    (hend : src.scanned = content.length) (offset : Nat) :
    src.lineAndColumn offset = ((lineCount content offset : Int) + 1,
      Integer.wrap64 ((offset : Int) - lineStart content offset + 1)) := by
  have hmark : src.contiguous = src.scanned := h.2
  by_cases ho : offset ≤ content.length
  · exact lineAndColumn_of_exact h.1 (by omega)
  · -- All line ends lie at or before the end of the content.
    have hends : src.lineEnds.toList = lineEndsOf 0 (content.take offset) := by
      have hall := h.lineEnds_eq
      rw [show src.index.scanned = content.length from hend, Int.toNat_natCast,
        List.take_length] at hall
      rw [List.take_of_length_le (by omega)]
      exact hall
    refine lineAndColumn_of_filter_eq h.1.increasing ?_
    rw [← hends, List.filter_eq_self]
    intro e he
    have hle : e ≤ src.scanned := h.1.le_scanned e he
    exact decide_eq_true (by omega)

end Source

/-! ### Offsets that are accepted -/

/-- A decimal text is read as a number of 64 bits or not at all. -/
theorem Integer.fits64_of_decimal {text : Bytes} {n : Int} (h : decimal text = .ok n) :
    Fits64 n := by
  unfold decimal at h
  dsimp only at h
  cases hnatural : naturalIn 10 (sign text).2 with
  | error e =>
    rw [hnatural] at h
    cases h
  | ok k =>
    rw [hnatural] at h
    change signed (sign text).1 k = .ok n at h
    unfold signed at h
    split at h
    · split at h
      · cases h
        exact ⟨by omega, by simp only [half64]; omega⟩
      · cases h
    · split at h
      · cases h
        exact ⟨by simp only [half64]; omega, by omega⟩
      · cases h

namespace Cli.Positions

open Source
open Settings (Layers)

/-- An accepted offset is not negative and has 64 bits. -/
theorem bounds_of_offset? {text : Bytes} {n : Int} (h : offset? text = some n) :
    0 ≤ n ∧ n < Integer.half64 := by
  unfold offset? at h
  split at h
  · next k hk =>
    split at h
    · next h0 =>
      cases h
      exact ⟨h0, (Integer.fits64_of_decimal hk).2⟩
    · cases h
  · cases h

/-- So are all of several. -/
theorem bounds_of_offsets {arguments : List Bytes} {ns : List Int}
    (h : offsets arguments = .ok ns) : ∀ n ∈ ns, 0 ≤ n ∧ n < Integer.half64 := by
  induction arguments generalizing ns with
  | nil =>
    cases h
    exact List.forall_mem_nil _
  | cons text rest ih =>
    rw [offsets] at h
    split at h
    · cases h
    · next n hn =>
      cases hrest : offsets rest with
      | error e =>
        rw [hrest] at h
        cases h
      | ok ns' =>
        rw [hrest] at h
        cases h
        exact List.forall_mem_cons.mpr ⟨bounds_of_offset? hn, ih hrest⟩

/-! ### Places that are shown -/

/-- The column of an offset is beyond 64 bits: the offset is the greatest, on the first line. -/
def Overflows (content : Bytes) (offset : Int) : Prop :=
  offset = 2 ^ 63 - 1 ∧ 0x0A ∉ content.take offset.toNat

instance (content : Bytes) (offset : Int) : Decidable (Overflows content offset) :=
  inferInstanceAs (Decidable (_ ∧ _))

/-- The place of an offset in a content, as it is shown: one more than the line ends before it, and
one more than its distance from the start of its line, or the least number of 64 bits in the place
of a column that is beyond them. -/
def shownPlace (filename content : Bytes) (offset : Int) : Location where
  filename
  line := lineCount content offset.toNat + 1
  column :=
    if Overflows content offset then -(2 ^ 63)
    else offset - lineStart content offset.toNat + 1

/-- The line that is printed for an offset. -/
def shownLine (filename content : Bytes) (offset : Int) : Bytes :=
  Bytes.cat [(shownPlace filename content offset).text,
    if (content.length : Int) < offset then " (past end of input)" else [], "\n"]

/-- A column is a number of 64 bits. -/
theorem wrap64_column (content : Bytes) {offset : Int} (h0 : 0 ≤ offset)
    (h : offset < Integer.half64) :
    Integer.wrap64 (offset - lineStart content offset.toNat + 1) =
      (shownPlace [] content offset).column := by
  have hstart := lineStart_le content offset.toNat
  have hzero := lineStart_eq_zero_iff content offset.toNat
  simp only [Integer.half64] at h
  unfold shownPlace
  dsimp only
  split
  · next hover =>
    obtain ⟨rfl, hnone⟩ := hover
    rw [hzero.mpr hnone]
    rfl
  · next hover =>
    have hfits : offset - lineStart content offset.toNat + 1 < 2 ^ 63 := by
      apply Int.lt_of_not_ge
      intro hbig
      exact hover ⟨by omega, hzero.mp (by omega)⟩
    exact wrap64_of_lt (by omega) (by simp only [Integer.half64]; omega)

/-- The line that a source prints which has read the content to its end. -/
theorem line_of_full {σ : Type} {src : Source σ} {content : Bytes} (hfull : src.index.Full content)
    (hend : src.scanned = content.length) (hposition : src.position = content.length) {n : Int}
    (h0 : 0 ≤ n) (h : n < Integer.half64) :
    line src n = shownLine src.filename content n := by
  have hplace : src.location n = shownPlace src.filename content n := by
    have hresolved := lineAndColumn_of_full hfull hend n.toNat
    rw [Int.toNat_of_nonneg h0, wrap64_column content h0 h] at hresolved
    unfold location
    rw [hresolved]
    rfl
  unfold line shownLine
  rw [hplace, hposition]

/-- What is printed for offsets in a file; reading the file never fails. -/
theorem ofContent_eq (filename content : Bytes) {chunk : Int} (hchunk : 0 < chunk) {ns : List Int}
    (hns : ∀ n ∈ ns, 0 ≤ n ∧ n < Integer.half64) :
    ∃ events, ofContent filename content chunk ns =
      { out := ns.flatMap (shownLine filename content), events } := by
  obtain ⟨herror, hfull, hend, hposition, hname⟩ := readAll_content filename content hchunk
  have hstart : start Memory.stream filename { content } =
      .ok ({ inner := { content }, filename }, []) := rfl
  unfold ofContent
  rw [hstart]
  dsimp only
  generalize readAll Memory.stream chunk (content.length + 1)
    { inner := { content }, filename } = r at *
  rw [herror]
  refine ⟨_, congrArg (fun out ↦ ({ out, events := _ } : Report)) (List.flatMap_congr ?_)⟩
  intro n hn
  obtain ⟨h0, h⟩ := hns n hn
  rw [line_of_full hfull hend hposition h0 h, hname]

variable {m : Type → Type} [Monad m] [LawfulMonad m]

/-- For a file that can be read, the command prints a line for each of the offsets, with the place
that the offset has in the content. Line and column of it are from one exactly if the column does
not overflow, that is unless the offset is the greatest number of 64 bits and on the first line. -/
theorem run_shows_from_one_iff (host : Host m) (settings : Layers) (path content : Bytes)
    (arguments : List Bytes) (ns : List Int) (hread : host.read path = pure (.ok content))
    (hchunk : 0 < settings.int "chunk") (hoffsets : offsets arguments = .ok ns) :
    (∃ events, run host settings path arguments =
        pure { out := ns.flatMap (shownLine path content), events }) ∧
      ∀ n ∈ ns, 1 ≤ (shownPlace path content n).line ∧
        (1 ≤ (shownPlace path content n).column ↔ ¬ Overflows content n) := by
  have hns := bounds_of_offsets hoffsets
  constructor
  · obtain ⟨events, hreport⟩ := ofContent_eq path content hchunk hns
    refine ⟨events, ?_⟩
    rw [run, hoffsets]
    dsimp only
    rw [if_neg (by omega), hread, pure_bind]
    exact congrArg pure hreport
  · intro n hn
    have hstart := lineStart_le content n.toNat
    have h0 := (hns n hn).1
    unfold shownPlace
    dsimp only
    refine ⟨by omega, ?_⟩
    split
    · next hover => simp [hover]
    · next hover =>
      simp only [hover, not_false_eq_true, iff_true]
      omega

/-- The offset before the greatest, at the end of one line, and the greatest on a second line: both
are shown with a line and a column from one. -/
theorem run_shows_from_one_second_line :
    let host : Host Id :=
      { read := fun _ ↦ .ok [0x61, 0x0A]
        kind := fun _ ↦ none
        entries := fun _ ↦ []
        environment := fun _ ↦ none
        input := .ok []
        freshId := ([] : Bytes)
        clock := ([] : Bytes)
        toolchain := []
        platform := [] }
    let settings : Layers := { given := [("chunk", .integer 1)] }
    let arguments : List Bytes := ["9223372036854775806", "+9223372036854775807"]
    let ns : List Int := [2 ^ 63 - 2, 2 ^ 63 - 1]
    offsets arguments = .ok ns ∧
      (∃ events, run host settings "f" arguments =
        { out := ns.flatMap (shownLine "f" [0x61, 0x0A]), events }) ∧
      ∀ n ∈ ns, 1 ≤ (shownPlace "f" [0x61, 0x0A] n).column := by
  intro host settings arguments ns
  have hoffsets : offsets arguments = .ok ns := by rfl
  obtain ⟨hrun, hplaces⟩ := run_shows_from_one_iff host settings "f" [0x61, 0x0A] arguments ns rfl
    (by decide) hoffsets
  refine ⟨hoffsets, hrun, fun n hn ↦ (hplaces n hn).2.mpr ?_⟩
  rintro ⟨rfl, hnone⟩
  exact hnone (by simp)

/-- The greatest offset that is accepted, in a file without a line end: its column is one more than
the numbers of 64 bits hold, and it is shown as the least of them. -/
theorem shown_column_wraps :
    let host : Host Id :=
      { read := fun _ ↦ .ok [0x61, 0x62]
        kind := fun _ ↦ none
        entries := fun _ ↦ []
        environment := fun _ ↦ none
        input := .ok []
        freshId := ([] : Bytes)
        clock := ([] : Bytes)
        toolchain := []
        platform := [] }
    let settings : Layers := { given := [("chunk", .integer 8)] }
    offset? "9223372036854775807" = some (2 ^ 63 - 1) ∧
      (run host settings "f" ["9223372036854775807"]).error = none ∧
      (run host settings "f" ["9223372036854775807"]).out =
        Bytes.ofString "f:1:-9223372036854775808 (past end of input)\n" := by
  intro host settings
  exact ⟨by decide +kernel, by decide +kernel, by decide +kernel⟩

end Cli.Positions

end GrammarCode
