import GrammarCode.Proofs.IndexOrder
import Mathlib

/-!
# Lines and columns

Whatever a stream delivers and whatever fails on the way, a source has line ends in increasing
order. That is all the search needs: every offset, behind a gap or behind the end as well, gets the
one line of the index that it stands on and its distance from the start of that line. So offsets
resolve in their own order, and no two of them to the same place.
-/

namespace GrammarCode

namespace Source

variable {σ : Type}

/-! ### Ordered indexes -/

/-- What every run keeps of an index, over any stream: the line ends increase, and they lie above
zero and not above the scanned mark. -/
structure Index.Ordered (ix : Index) : Prop where
  increasing : ix.lineEnds.toList.Pairwise (· < ·)
  bounds : ∀ e ∈ ix.lineEnds.toList, 0 < e ∧ e ≤ ix.scanned
  scanned_nonneg : 0 ≤ ix.scanned

/-- Scanning keeps an index ordered, wherever the bytes stand: what it adds lies behind the mark. -/
theorem Index.Ordered.scan {ix : Index} (h : ix.Ordered) (offset : Int) (bytes : Bytes) :
    (ix.scan offset bytes).Ordered := by
  have hmark := h.scanned_nonneg
  unfold Index.scan
  split
  · exact h
  · next hstop =>
    have hadded : ∀ e ∈ lineEndsOf (offset + (ix.scanned - offset).toNat)
        (bytes.drop (ix.scanned - offset).toNat), ix.scanned < e ∧ e ≤ offset + bytes.length := by
      intro e he
      have := lt_and_le_of_mem_lineEndsOf _ _ e he
      rw [List.length_drop] at this
      omega
    refine ⟨?_, ?_, by dsimp only; omega⟩
    · rw [Array.toList_append]
      refine List.pairwise_append.mpr ⟨h.increasing, pairwise_lineEndsOf _ _, fun x hx y hy ↦ ?_⟩
      have := (h.bounds x hx).2
      have := (hadded y hy).1
      omega
    · intro e he
      rw [Array.toList_append] at he
      dsimp only
      rcases List.mem_append.mp he with he | he
      · have := h.bounds e he
        omega
      · have := hadded e he
        omega

/-- A source that starts has an empty index. -/
theorem index_start {st : Stream σ} {filename : Bytes} {s : σ} {src : Source σ}
    {events : List Log.Event} (h : start st filename s = .ok (src, events)) :
    src.index = ⟨#[], 0, 0⟩ := by
  unfold start at h
  split at h
  · cases h
  · obtain ⟨rfl, -⟩ := Prod.mk.inj (Except.ok.inj h)
    rfl

theorem ordered_step (st : Stream σ) {src : Source σ} (h : src.index.Ordered) (c : Call) :
    (src.step st c).index.Ordered := by
  rw [index_step]
  cases src.reading? st c with
  | none => exact h
  | some r => exact h.scan r.offset r.bytes

/-- The index of a source is ordered after every run. -/
theorem ordered_run {st : Stream σ} {filename : Bytes} {s : σ} {src : Source σ}
    {events : List Log.Event} (hsrc : start st filename s = .ok (src, events))
    (calls : List Call) : (src.run st calls).index.Ordered := by
  have hrun (here : Source σ) (h : here.index.Ordered) : (here.run st calls).index.Ordered := by
    induction calls generalizing here with
    | nil => exact h
    | cons c rest ih => exact ih (here.step st c) (ordered_step st h c)
  apply hrun
  rw [index_start hsrc]
  exact ⟨List.Pairwise.nil, by simp, Int.le_refl 0⟩

/-! ### The line of an offset -/

theorem linesBefore_le (src : Source σ) (offset : Int) :
    src.linesBefore offset ≤ src.lineEnds.size :=
  bisect_le _ _ 0 src.lineEnds.size (Nat.zero_le _)

theorem Index.Ordered.lt_of_lt {ix : Index} (h : ix.Ordered) {i j : Nat} {e e' : Int} (hij : i < j)
    (he : ix.lineEnds[i]? = some e) (he' : ix.lineEnds[j]? = some e') : e < e' := by
  rw [← Array.getElem?_toList] at he he'
  obtain ⟨hi, rfl⟩ := List.getElem?_eq_some_iff.mp he
  obtain ⟨hj, rfl⟩ := List.getElem?_eq_some_iff.mp he'
  exact List.pairwise_iff_getElem.mp h.increasing i j hi hj hij

/-- In an ordered index, exactly the line ends that the search counts are at or before the
offset. -/
theorem lt_linesBefore_iff {src : Source σ} (h : src.index.Ordered) {i : Nat} {e : Int}
    (he : src.lineEnds[i]? = some e) (offset : Int) :
    i < src.linesBefore offset ↔ e ≤ offset := by
  have htake := take_linesBefore src h.increasing offset
  constructor
  · intro hi
    have hmem : e ∈ src.lineEnds.toList.take (src.linesBefore offset) := by
      rw [← Array.getElem?_toList] at he
      exact List.mem_of_getElem? ((List.getElem?_take_of_lt hi).trans he)
    rw [htake] at hmem
    simpa using (List.mem_filter.mp hmem).2
  · intro hle
    have hmem : e ∈ src.lineEnds.toList.take (src.linesBefore offset) := by
      rw [htake]
      exact List.mem_filter.mpr
        ⟨Array.mem_toList_iff.mpr (Array.mem_of_getElem? he), decide_eq_true hle⟩
    -- The entry stands among the first ones, and no entry stands in two places.
    obtain ⟨j, hj, hget⟩ := List.mem_take_iff_getElem.mp hmem
    have hsame : src.lineEnds[j]? = some e := by
      rw [← Array.getElem?_toList, List.getElem?_eq_getElem (by omega), hget]
    by_contra hi
    have := h.lt_of_lt (show j < i by omega) hsame he
    omega

/-- Where a line starts by the index: the first at zero, every other one at the line end before
it. -/
def lineBegin? (src : Source σ) (line : Int) : Option Int :=
  if line = 1 then some 0 else src.lineEnds[(line - 2).toNat]?

/-- A line and a column, both from one, are those of an offset: the line is one of the index, the
column leads from its start to the offset, and the line ends behind the offset if it ends at all. -/
structure Locates (src : Source σ) (line column offset : Int) : Prop where
  line_pos : 1 ≤ line
  line_le : line ≤ src.lineEnds.size + 1
  column_pos : 1 ≤ column
  offset_eq : ∃ s, src.lineBegin? line = some s ∧ offset = s + column - 1
  lt_lineEnd : ∀ e, src.lineEnds[(line - 1).toNat]? = some e → offset < e

/-- The line that the search gives starts between zero and the offset. -/
theorem lineBegin?_linesBefore {src : Source σ} (h : src.index.Ordered) {offset : Int}
    (h0 : 0 ≤ offset) :
    ∃ s, src.lineBegin? (src.linesBefore offset + 1) = some s ∧ 0 ≤ s ∧ s ≤ offset ∧
      src.lineAndColumn offset =
        ((src.linesBefore offset : Int) + 1, Integer.wrap64 (offset - s + 1)) := by
  have hle := src.linesBefore_le offset
  unfold lineBegin? lineAndColumn
  by_cases hzero : src.linesBefore offset = 0
  · exact ⟨0, by simp [hzero], Int.le_refl 0, h0, by simp [hzero]⟩
  · have hget : src.lineEnds[src.linesBefore offset - 1]? =
        some (src.lineEnds.getD (src.linesBefore offset - 1) 0) := by
      rw [Array.getElem?_eq_getElem (by omega), Array.getD_eq_getD_getElem?,
        Array.getElem?_eq_getElem (by omega), Option.getD_some]
    have hbefore := (lt_linesBefore_iff h hget offset).mp (by omega)
    have hpos := (h.bounds _ (Array.mem_toList_iff.mpr (Array.mem_of_getElem? hget))).1
    refine ⟨_, ?_, Int.le_of_lt hpos, hbefore, ?_⟩
    · rw [if_neg (by omega), show ((src.linesBefore offset : Int) + 1 - 2).toNat =
        src.linesBefore offset - 1 by omega]
      exact hget
    · dsimp only
      rw [if_neg hzero]

/-- With an ordered index, an offset that is not the greatest of all resolves to its line and
column. -/
theorem locates_lineAndColumn {src : Source σ} (h : src.index.Ordered) {offset : Int}
    (h0 : 0 ≤ offset) (hmax : offset + 1 < Integer.half64) :
    src.Locates (src.lineAndColumn offset).1 (src.lineAndColumn offset).2 offset := by
  obtain ⟨s, hbegin, hs0, hs, hresolved⟩ := lineBegin?_linesBefore h h0
  have hle := src.linesBefore_le offset
  rw [hresolved, wrap64_of_lt (by omega) (by omega)]
  refine ⟨by omega, by omega, by omega, ⟨s, hbegin, by omega⟩, fun e he ↦ ?_⟩
  rw [show ((src.linesBefore offset : Int) + 1 - 1).toNat = src.linesBefore offset by omega] at he
  have := mt (lt_linesBefore_iff h he offset).mpr (Nat.lt_irrefl _)
  omega

/-- In an ordered index, the places of two offsets are in the order of the offsets. -/
theorem Locates.lex_lt {src : Source σ} (h : src.index.Ordered) {line column offset : Int}
    {line' column' offset' : Int} (hp : src.Locates line column offset)
    (hq : src.Locates line' column' offset') (hlt : offset < offset') :
    toLex (line, column) < toLex (line', column') := by
  rw [Prod.Lex.toLex_lt_toLex]
  dsimp only
  obtain ⟨s, hs, hoffset⟩ := hp.offset_eq
  obtain ⟨s', hs', hoffset'⟩ := hq.offset_eq
  rcases Int.lt_trichotomy line line' with hline | rfl | hline
  · exact Or.inl hline
  · rw [hs] at hs'
    obtain rfl := Option.some.inj hs'
    exact Or.inr ⟨rfl, by omega⟩
  · -- The line of the greater offset would end at or before the start of the other line.
    exfalso
    have hone := hq.line_pos
    have hcolumn := hp.column_pos
    have hsize := hp.line_le
    rw [lineBegin?, if_neg (by omega)] at hs
    obtain ⟨e, he⟩ : ∃ e, src.lineEnds[(line' - 1).toNat]? = some e :=
      ⟨_, Array.getElem?_eq_getElem (by omega)⟩
    have hend := hq.lt_lineEnd e he
    rcases Nat.lt_or_eq_of_le (show (line' - 1).toNat ≤ (line - 2).toNat by omega) with hi | hi
    · have := h.lt_of_lt hi he hs
      omega
    · rw [← hi, he] at hs
      obtain rfl := Option.some.inj hs
      omega

/-- Over any stream and after every run, gaps and failures of any kind included, an offset below
the greatest resolves to the line of the index that it stands on and to its distance from the start
of that line. Offsets resolve in their own order, lines first, so no two have the same location. -/
theorem lineAndColumn_orders_offsets (st : Stream σ) (filename : Bytes) (s : σ) (src : Source σ)
    (events : List Log.Event) (hsrc : start st filename s = .ok (src, events))
    (calls : List Call) :
    let here := src.run st calls
    let offsets := Set.Ico (0 : Int) (2 ^ 63 - 1)
    (∀ offset ∈ offsets,
        here.Locates (here.lineAndColumn offset).1 (here.lineAndColumn offset).2 offset) ∧
      StrictMonoOn (fun offset ↦ toLex (here.lineAndColumn offset)) offsets ∧
      Set.InjOn here.location offsets := by
  intro here offsets
  have hordered : here.index.Ordered := ordered_run hsrc calls
  have hlocates (offset : Int) (ho : offset ∈ offsets) :
      here.Locates (here.lineAndColumn offset).1 (here.lineAndColumn offset).2 offset := by
    obtain ⟨h0, hmax⟩ := ho
    exact locates_lineAndColumn hordered h0 (by simp only [Integer.half64]; omega)
  have hmono : StrictMonoOn (fun offset ↦ toLex (here.lineAndColumn offset)) offsets :=
    fun p hp q hq hlt ↦ (hlocates p hp).lex_lt hordered (hlocates q hq) hlt
  refine ⟨hlocates, hmono, fun p hp q hq hsame ↦ hmono.injOn hp hq ?_⟩
  have hline := congrArg Location.line hsame
  have hcolumn := congrArg Location.column hsame
  exact congrArg toLex (Prod.ext hline hcolumn)

/-- A gap, and a look at the end that takes a line end and cannot put it back: what is read after
that is indexed one byte too early, and offsets still resolve in order. -/
theorem lineAndColumn_orders_offsets_stranded :
    let memory : Memory := { content := [0x61, 0x0A, 0x62, 0x0A, 0x0A, 0x63], seeks := some 2 }
    let src : Source Memory := { inner := { memory with seeks := some 1 } }
    let here := src.run Memory.stream [.read 2, .setPosition 3, .atEnd, .read 2]
    start Memory.stream [] memory = .ok (src, []) ∧ here.lineEnds = #[2, 4] ∧
      here.Locates 2 2 3 ∧ toLex (here.lineAndColumn 3) < toLex (here.lineAndColumn 4) ∧
      here.location 3 ≠ here.location 4 := by
  intro memory src here
  have hstart : start Memory.stream [] memory = .ok (src, []) := rfl
  obtain ⟨hlocates, hmono, hinj⟩ := lineAndColumn_orders_offsets Memory.stream [] memory src []
    hstart [.read 2, .setPosition 3, .atEnd, .read 2]
  have h3 : (3 : Int) ∈ Set.Ico (0 : Int) (2 ^ 63 - 1) := ⟨by decide, by decide⟩
  have h4 : (4 : Int) ∈ Set.Ico (0 : Int) (2 ^ 63 - 1) := ⟨by decide, by decide⟩
  have hplace : here.lineAndColumn 3 = (2, 2) := by decide
  refine ⟨hstart, by decide, ?_, hmono h3 h4 (by decide), fun hsame ↦ ?_⟩
  · have := hlocates 3 h3
    rwa [hplace] at this
  · exact absurd (hinj h3 h4 hsame) (by decide)

end Source

end GrammarCode
