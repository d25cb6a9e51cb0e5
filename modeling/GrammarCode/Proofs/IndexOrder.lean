import GrammarCode.Proofs.LineIndex
import GrammarCode.Proofs.ScannedMark

/-!
# The order of the index

Whatever gaps a run leaves and whatever fails in it, the line ends stand in increasing order below
the scanned mark, each just behind a newline of the content. A call adds line ends behind those that
are there and moves the two marks forward only.
-/

namespace GrammarCode

namespace Source

variable {σ : Type}

/-! ### Growth -/

/-- What an index becomes by taking in more: its line ends continue and its marks do not fall. -/
structure Index.Extends (ix jx : Index) : Prop where
  lineEnds : ix.lineEnds.toList <+: jx.lineEnds.toList
  scanned : ix.scanned ≤ jx.scanned
  contiguous : ix.contiguous ≤ jx.contiguous

theorem Index.Extends.refl (ix : Index) : ix.Extends ix :=
  ⟨List.prefix_refl _, Int.le_refl _, Int.le_refl _⟩

theorem Index.Extends.trans {ix jx kx : Index} (h : ix.Extends jx) (h' : jx.Extends kx) :
    ix.Extends kx :=
  ⟨h.lineEnds.trans h'.lineEnds, Int.le_trans h.scanned h'.scanned,
    Int.le_trans h.contiguous h'.contiguous⟩

/-- Scanning extends an index, wherever the bytes stand. -/
theorem Index.extends_scan (ix : Index) (offset : Int) (bytes : Bytes) :
    ix.Extends (ix.scan offset bytes) := by
  unfold Index.scan
  split
  · exact Index.Extends.refl ix
  · next hstop =>
    refine ⟨?_, ?_, ?_⟩
    · rw [Array.toList_append]
      exact List.prefix_append _ _
    · dsimp only
      omega
    · dsimp only
      split
      · next hjoin =>
        -- The gap-free mark moves only from where the scanned mark is.
        have := of_decide_eq_true (Bool.and_eq_true_iff.mp hjoin).1
        omega
      · exact Int.le_refl _

/-- A call extends the index, over any stream and whether it fails or not. -/
theorem extends_step (st : Stream σ) (src : Source σ) (c : Call) :
    src.index.Extends (src.step st c).index := by
  rw [index_step]
  cases src.reading? st c with
  | none => exact Index.Extends.refl _
  | some r => exact Index.extends_scan _ _ _

/-- So does a run. -/
theorem extends_run (st : Stream σ) (src : Source σ) (calls : List Call) :
    src.index.Extends (src.run st calls).index := by
  induction calls generalizing src with
  | nil => exact Index.Extends.refl _
  | cons c rest ih => exact (extends_step st src c).trans (ih (src.step st c))

/-! ### Newlines -/

/-- A line end of bytes stands just behind a newline in them. -/
theorem exists_newline_of_mem_lineEndsOf (offset : Int) (bytes : Bytes) :
    ∀ e ∈ lineEndsOf offset bytes, ∃ k : Nat, bytes[k]? = some 0x0A ∧ e = offset + k + 1 := by
  induction bytes generalizing offset with
  | nil => simp [lineEndsOf]
  | cons b rest ih =>
    intro e he
    have hlater (he : e ∈ lineEndsOf (offset + 1) rest) :
        ∃ k : Nat, (b :: rest)[k]? = some 0x0A ∧ e = offset + k + 1 := by
      obtain ⟨k, hk, rfl⟩ := ih (offset + 1) e he
      exact ⟨k + 1, hk, by omega⟩
    rw [lineEndsOf] at he
    split at he
    · next hb =>
      rcases List.mem_cons.mp he with rfl | he
      · exact ⟨0, congrArg some hb, by omega⟩
      · exact hlater he
    · exact hlater he

/-- A line end after scanning was there before, or stands just behind a newline in the bytes. -/
theorem Index.mem_scan {ix : Index} {offset : Int} {bytes : Bytes} {e : Int}
    (h : e ∈ (ix.scan offset bytes).lineEnds.toList) :
    e ∈ ix.lineEnds.toList ∨ ∃ k : Nat, bytes[k]? = some 0x0A ∧ e = offset + k + 1 := by
  unfold Index.scan at h
  split at h
  · exact Or.inl h
  · rw [Array.toList_append] at h
    rcases List.mem_append.mp h with h | h
    · exact Or.inl h
    · obtain ⟨k, hk, rfl⟩ := exists_newline_of_mem_lineEndsOf _ _ e h
      rw [List.getElem?_drop] at hk
      exact Or.inr ⟨(ix.scanned - offset).toNat + k, hk, by omega⟩

/-- Every line end of an index stands just behind a newline of a content. -/
def Index.Faithful (content : Bytes) (ix : Index) : Prop :=
  ∀ e ∈ ix.lineEnds.toList, 0 < e ∧ content[(e - 1).toNat]? = some 0x0A

/-- Scanning bytes of the content keeps an index faithful. -/
theorem Index.Faithful.scan {content bytes : Bytes} {ix : Index} {p : Nat}
    (h : ix.Faithful content) (hb : bytes <+: content.drop p) :
    (ix.scan p bytes).Faithful content := by
  intro e he
  rcases Index.mem_scan he with he | ⟨k, hk, rfl⟩
  · exact h e he
  · have hcontent : content[p + k]? = some 0x0A := by
      obtain ⟨rest, hrest⟩ := hb
      rw [← List.getElem?_drop, ← hrest,
        List.getElem?_append_left (List.getElem?_eq_some_iff.mp hk).1]
      exact hk
    refine ⟨by omega, ?_⟩
    rwa [show ((p : Int) + k + 1 - 1).toNat = p + k by omega]

/-- Through every run that strands no byte, gaps and failures included, the line ends increase,
each lies above zero and not above the scanned mark and stands just behind a newline of the content,
and the gap-free mark lies between zero and the scanned mark. Every call of the run extends the
index, and the rest of the run goes on from there: line ends are added at the end only and neither
mark is lowered. -/
theorem index_run_ordered (st : Stream σ) (content : Bytes) (At : σ → Nat → Prop)
    (hst : st.Serves content At) (filename : Bytes) (s : σ) (p : Nat) (hs : At s p)
    (src : Source σ) (events : List Log.Event) (hsrc : start st filename s = .ok (src, events))
    (calls : List Call) (hcalls : Steady st src calls) :
    (src.run st calls).lineEnds.toList.Pairwise (· < ·) ∧
      (∀ e ∈ (src.run st calls).lineEnds.toList,
        0 < e ∧ e ≤ (src.run st calls).scanned ∧ content[(e - 1).toNat]? = some 0x0A) ∧
      0 ≤ (src.run st calls).contiguous ∧
      (src.run st calls).contiguous ≤ (src.run st calls).scanned ∧
      ∀ before c after, calls = before ++ c :: after →
        (src.run st before).index.Extends ((src.run st before).step st c).index ∧
          ((src.run st before).step st c).index.Extends (src.run st calls).index := by
  have hexact := run_exact hst hs hsrc calls hcalls
  have hfaithful : (src.run st calls).index.Faithful content :=
    index_run_induction hst hs hsrc (by simp [Index.Faithful])
      (fun _ _ _ h hb ↦ h.scan hb) calls hcalls
  refine ⟨hexact.increasing, ?_, hexact.contiguous_nonneg, hexact.contiguous_le_scanned, ?_⟩
  · intro e he
    obtain ⟨hpos, hnewline⟩ := hfaithful e he
    exact ⟨hpos, hexact.le_scanned e he, hnewline⟩
  · rintro before c after rfl
    refine ⟨extends_step st (src.run st before) c, ?_⟩
    have hrun : src.run st (before ++ c :: after) = ((src.run st before).step st c).run st after :=
      List.foldl_append
    rw [hrun]
    exact extends_run st ((src.run st before).step st c) after

/-- Two bytes at a time at most and a failure from offset seven on: a read from the middle, a gap, a
read back across the scanned mark, and one that the failure cuts short. -/
theorem index_run_ordered_gap :
    let memory : Memory :=
      { content := [0x61, 0x0A, 0x62, 0x0A, 0x0A, 0x63, 0x0A, 0x0A], most := some 2
        failing := some (7, .failure "broken") }
    let src : Source Memory := { inner := memory }
    let calls : List Call := [.read 1, .setPosition 3, .read 1, .setPosition 0, .atEnd, .read 5,
      .setPosition 2, .read 9]
    Steady Memory.stream src calls ∧
      (src.run Memory.stream calls).lineEnds = #[4, 5, 7] ∧
      (src.run Memory.stream calls).scanned = 7 ∧
      (src.run Memory.stream calls).contiguous = 1 ∧
      (src.run Memory.stream calls).lineEnds.toList.Pairwise (· < ·) ∧
      memory.content[6]? = some 0x0A := by
  intro memory src calls
  have hsteady : Steady Memory.stream src calls :=
    ⟨rfl, rfl, rfl, rfl, by decide, rfl, rfl, rfl, trivial⟩
  have hends : (src.run Memory.stream calls).lineEnds = #[4, 5, 7] := by decide
  obtain ⟨hincreasing, hmembers, -, -, -⟩ := index_run_ordered Memory.stream memory.content _
    (Memory.stream_serves _) [] memory 0 ⟨rfl, rfl⟩ src [] rfl calls hsteady
  exact ⟨hsteady, hends, by decide, by decide, hincreasing,
    (hmembers 7 (by rw [hends]; decide)).2.2⟩

end Source

end GrammarCode
