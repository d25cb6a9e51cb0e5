import GrammarCode.Proofs.SourceRun

/-!
# The scanned mark

What a run does to the index of a source is told by its readings: where each read started and what
came. The scanned mark stands at the largest end of a reading, whether anything came or not. So it
is the largest end of what was delivered exactly as long as no read asks for bytes behind the mark
and gets none: such a read takes the mark with it, and what lies below is never examined after that.
-/

namespace GrammarCode

namespace Source

variable {σ : Type}

/-! ### Readings -/

/-- A read in a run: where it started, and the bytes that came. -/
structure Reading where
  offset : Int
  bytes : Bytes
  deriving DecidableEq, Repr

/-- The offset behind the bytes of a reading. -/
def Reading.stop (r : Reading) : Int := r.offset + r.bytes.length

/-- The reading of a call. A read that asks for no bytes is none. -/
def reading? (st : Stream σ) (src : Source σ) : Call → Option Reading
  | .read n => if 0 < n then some ⟨src.position, (src.read st n).value⟩ else none
  | .setPosition _ => none
  | .atEnd => none

/-- The readings of a run in order. -/
def readings (st : Stream σ) (src : Source σ) : List Call → List Reading
  | [] => []
  | c :: rest => (src.reading? st c).toList ++ readings st (src.step st c) rest

/-- The readings to which at least one byte came. -/
def delivered (rs : List Reading) : List Reading := rs.filter fun r ↦ !r.bytes.isEmpty

/-- The largest of a mark and the ends of readings. -/
def reach (mark : Int) (rs : List Reading) : Int := rs.foldl (fun m r ↦ max m r.stop) mark

theorem reach_append (mark : Int) (rs rs' : List Reading) :
    reach mark (rs ++ rs') = reach (reach mark rs) rs' :=
  List.foldl_append

theorem delivered_append (rs rs' : List Reading) :
    delivered (rs ++ rs') = delivered rs ++ delivered rs' :=
  List.filter_append ..

/-! ### What a run does to the index -/

/-- Takes a reading, if there is one, into an index. -/
def Index.take (ix : Index) : Option Reading → Index
  | none => ix
  | some r => ix.scan r.offset r.bytes

/-- A call takes its reading into the index and does nothing else to it, whatever the stream does
and whether the call fails or not. -/
theorem index_step (st : Stream σ) (src : Source σ) (c : Call) :
    (src.step st c).index = src.index.take (src.reading? st c) := by
  cases c with
  | read n =>
    by_cases hn : 0 < n
    · obtain ⟨hvalue, -, -, hindex⟩ := read_fields st src n hn
      rw [step, hindex, reading?, if_pos hn, Index.take, hvalue]
    · rw [step, reading?, if_neg hn, read, if_pos (by omega)]
      rfl
  | setPosition offset =>
    rw [step, setPosition]
    split <;> rfl
  | atEnd =>
    rw [step, atEnd]
    dsimp only
    split
    · split <;> rfl
    · split <;> rfl

/-- A call moves the mark to the end of its reading, if that is further. -/
theorem scanned_step (st : Stream σ) (src : Source σ) (c : Call) :
    (src.step st c).scanned = reach src.scanned (src.reading? st c).toList := by
  have hscanned := congrArg Index.scanned (index_step st src c)
  cases hr : src.reading? st c with
  | none =>
    rw [hr] at hscanned
    exact hscanned
  | some r =>
    rw [hr, Index.take, Index.scanned_scan] at hscanned
    exact hscanned

/-- The mark after a run is the largest end of its readings, if that is further. -/
theorem scanned_run (st : Stream σ) (src : Source σ) (calls : List Call) :
    (src.run st calls).scanned = reach src.scanned (readings st src calls) := by
  induction calls generalizing src with
  | nil => rfl
  | cons c rest ih =>
    calc ((src.step st c).run st rest).scanned
      _ = reach (src.step st c).scanned (readings st (src.step st c) rest) := ih _
      _ = reach src.scanned (readings st src (c :: rest)) := by
        rw [scanned_step, readings, reach_append]

/-- No bytes add no line end and leave the gap-free mark; only the scanned mark may move. -/
theorem Index.scan_nil (ix : Index) (offset : Int) :
    ix.scan offset [] = { ix with scanned := max ix.scanned offset } := by
  unfold Index.scan
  split
  · next h =>
    rw [List.length_nil, Int.natCast_zero, Int.add_zero] at h
    rw [Int.max_eq_left h]
  · next h =>
    rw [List.length_nil, Int.natCast_zero, Int.add_zero] at h ⊢
    -- Where the two marks are one, the offset lies behind the gap-free mark as well.
    have hgap :
        (decide (ix.contiguous = ix.scanned) && decide (offset ≤ ix.contiguous)) = false := by
      rw [Bool.and_eq_false_imp, decide_eq_true_eq]
      intro hjoin
      exact decide_eq_false (by omega)
    have hmax : max ix.scanned offset = offset := Int.max_eq_right (by omega)
    simp [hgap, hmax, lineEndsOf]

/-! ### Reads that overreach -/

/-- Whether a call asks for bytes behind the scanned mark and gets none. -/
def overreaches (st : Stream σ) (src : Source σ) (c : Call) : Bool :=
  match src.reading? st c with
  | some r => r.bytes.isEmpty && src.scanned < r.offset
  | none => false

/-- No call of a run asks for bytes behind the scanned mark and gets none. -/
def WithinReach (st : Stream σ) (src : Source σ) : List Call → Prop
  | [] => True
  | c :: rest => src.overreaches st c = false ∧ WithinReach st (src.step st c) rest

/-- A call moves the mark by what it delivers exactly if it does not overreach. -/
theorem scanned_step_eq_iff (st : Stream σ) (src : Source σ) (c : Call) :
    (src.step st c).scanned = reach src.scanned (delivered (src.reading? st c).toList) ↔
      src.overreaches st c = false := by
  rw [scanned_step, overreaches]
  cases src.reading? st c with
  | none => simp [delivered, reach]
  | some r =>
    cases hb : r.bytes with
    | nil =>
      have hnone : delivered (some r).toList = [] := by simp [delivered, hb]
      have hreach : reach src.scanned (some r).toList = max src.scanned r.offset := by
        simp [reach, Reading.stop, hb]
      dsimp only
      rw [hnone, hreach, reach, List.foldl_nil, hb, List.isEmpty_nil, Bool.true_and,
        decide_eq_false_iff_not]
      omega
    | cons b bytes => simp [delivered, hb]

/-- All along a run the mark is the largest end of what was delivered exactly if no call
overreaches. -/
theorem forall_scanned_eq_iff (st : Stream σ) (src : Source σ) (calls : List Call) :
    (∀ before after, calls = before ++ after →
        (src.run st before).scanned = reach src.scanned (delivered (readings st src before))) ↔
      WithinReach st src calls := by
  induction calls generalizing src with
  | nil =>
    refine ⟨fun _ ↦ trivial, fun _ before after h ↦ ?_⟩
    obtain ⟨rfl, -⟩ := List.append_eq_nil_iff.mp h.symm
    rfl
  | cons c rest ih =>
    rw [WithinReach, ← scanned_step_eq_iff, ← ih]
    constructor
    · intro h
      have hstep : (src.step st c).scanned =
          reach src.scanned (delivered (src.reading? st c).toList) := by
        have hone := h [c] rest rfl
        rw [readings, readings, List.append_nil] at hone
        exact hone
      refine ⟨hstep, ?_⟩
      rintro before after rfl
      have hall := h (c :: before) after rfl
      rw [readings, delivered_append, reach_append, ← hstep] at hall
      exact hall
    · rintro ⟨hstep, hrest⟩ before after h
      cases before with
      | nil => rfl
      | cons c' before =>
        obtain ⟨rfl, rfl⟩ := List.cons.inj h
        rw [readings, delivered_append, reach_append, ← hstep]
        exact hrest before after rfl

/-- Over any stream and through every run, the scanned mark is the largest end of a reading, and it
is the largest end of what was delivered, zero if that is nothing, exactly as long as no read asks
for bytes behind the mark and gets none. A read that gets nothing leaves the line ends and the
gap-free mark, and the scanned mark as well unless it started behind that. -/
theorem scanned_eq_delivered_iff (st : Stream σ) (filename : Bytes) (s : σ) (src : Source σ)
    (events : List Log.Event) (hsrc : start st filename s = .ok (src, events))
    (calls : List Call) :
    ((∀ before after, calls = before ++ after →
        (src.run st before).scanned = reach 0 (delivered (readings st src before))) ↔
      WithinReach st src calls) ∧
    (src.run st calls).scanned = reach 0 (readings st src calls) ∧
    ∀ before n after, calls = before ++ .read n :: after →
      ((src.run st before).read st n).value = [] →
        ((src.run st before).read st n).source.index =
          { (src.run st before).index with
            scanned := if 0 < n then max (src.run st before).scanned (src.run st before).position
              else (src.run st before).scanned } := by
  have hscanned : src.scanned = 0 := by
    unfold start at hsrc
    split at hsrc
    · cases hsrc
    · obtain ⟨rfl, -⟩ := Prod.mk.inj (Except.ok.inj hsrc)
      rfl
  refine ⟨?_, ?_, ?_⟩
  · rw [← hscanned]
    exact forall_scanned_eq_iff st src calls
  · rw [scanned_run, hscanned]
  · intro before n after _ hnone
    have hindex := index_step st (src.run st before) (.read n)
    rw [reading?, hnone] at hindex
    by_cases hn : 0 < n
    · rw [if_pos hn, Index.take, Index.scan_nil] at hindex
      rw [if_pos hn]
      exact hindex
    · rw [if_neg hn, Index.take] at hindex
      rw [if_neg hn]
      exact hindex

/-- Reads at the end and before it that get nothing, a gap, and a look at the end: the mark stays
with what was delivered. -/
theorem scanned_eq_delivered_fruitful :
    let src : Source Memory := { inner := { content := [0x61, 0x0A, 0x62, 0x0A, 0x63] } }
    let calls : List Call := [.read 1, .setPosition 3, .read 9, .read 4, .atEnd, .setPosition 7,
      .read 0, .setPosition 0, .read 2]
    WithinReach Memory.stream src calls ∧
      (src.run Memory.stream calls).scanned = 5 ∧
      reach 0 (delivered (readings Memory.stream src calls)) = 5 := by
  intro src calls
  have hwithin : WithinReach Memory.stream src calls :=
    ⟨by decide, rfl, by decide, by decide, rfl, rfl, rfl, rfl, by decide, trivial⟩
  have hscanned := (scanned_eq_delivered_iff Memory.stream [] src.inner src [] rfl calls).1.mpr
    hwithin calls [] (List.append_nil calls).symm
  have hreach : reach 0 (delivered (readings Memory.stream src calls)) = 5 := by decide
  exact ⟨hwithin, hscanned.trans hreach, hreach⟩

/-- A read behind the end of the content gets nothing and still moves the scanned mark there; the
content is read for the first time after that, and none of its line ends is found. -/
theorem scanned_ne_delivered_behind :
    let memory : Memory := { content := [0x61, 0x0A, 0x62, 0x0A] }
    let src : Source Memory := { inner := memory }
    let calls : List Call := [.setPosition 10, .read 1, .setPosition 0, .read 4]
    start Memory.stream [] memory = .ok (src, []) ∧
      readings Memory.stream src calls = [⟨10, []⟩, ⟨0, [0x61, 0x0A, 0x62, 0x0A]⟩] ∧
      (src.run Memory.stream (calls.take 1)).scanned = 0 ∧
      (src.run Memory.stream (calls.take 2)).scanned = 10 ∧
      (src.run Memory.stream calls).scanned = 10 ∧
      reach 0 (delivered (readings Memory.stream src calls)) = 4 ∧
      (src.run Memory.stream calls).lineEnds = #[] := by
  refine ⟨rfl, ?_, ?_, ?_, ?_, ?_, ?_⟩ <;> decide

end Source

end GrammarCode
