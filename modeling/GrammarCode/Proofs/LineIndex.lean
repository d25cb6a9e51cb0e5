import GrammarCode.Proofs.SourceRun

/-!
# The line index

Of a source that reads, seeks and asks for the end in any order, the line ends up to the gap-free
mark are exactly those of the content, whatever gaps were left or read across behind it. So every
offset up to that mark resolves to its true line and column.
-/

namespace GrammarCode

/-! ### Line ends of a content -/

/-- The offset just after the last line end below an offset; zero if there is none. -/
def lineStart (content : Bytes) : Nat → Nat
  | 0 => 0
  | n + 1 => if content[n]? = some 0x0A then n + 1 else lineStart content n

/-- A line starts at or before every offset on it. -/
theorem lineStart_le (content : Bytes) (offset : Nat) : lineStart content offset ≤ offset := by
  induction offset with
  | zero => exact Nat.le_refl 0
  | succ n ih =>
    rw [lineStart]
    split
    · exact Nat.le_refl _
    · omega

/-- The number of line ends below an offset. -/
def lineCount (content : Bytes) (offset : Nat) : Nat := (content.take offset).count 0x0A

namespace Source

variable {σ : Type}

theorem lineEndsOf_append (offset : Int) (xs ys : Bytes) :
    lineEndsOf offset (xs ++ ys) = lineEndsOf offset xs ++ lineEndsOf (offset + xs.length) ys := by
  induction xs generalizing offset with
  | nil => simp [lineEndsOf]
  | cons b rest ih =>
    have hcast : offset + ((b :: rest).length : Int) = offset + 1 + rest.length := by
      rw [List.length_cons]
      omega
    rw [List.cons_append, lineEndsOf, lineEndsOf, ih, hcast]
    split <;> rfl

/-- A line end lies behind the offset at which its byte can stand first, and not behind the
bytes. -/
theorem lt_and_le_of_mem_lineEndsOf (offset : Int) (bytes : Bytes) :
    ∀ e ∈ lineEndsOf offset bytes, offset < e ∧ e ≤ offset + bytes.length := by
  induction bytes generalizing offset with
  | nil => simp [lineEndsOf]
  | cons b rest ih =>
    intro e he
    rw [lineEndsOf] at he
    rw [List.length_cons]
    split at he
    · rcases List.mem_cons.mp he with rfl | he
      · omega
      · have := ih (offset + 1) e he
        omega
    · have := ih (offset + 1) e he
      omega

/-- Line ends come in increasing order. -/
theorem pairwise_lineEndsOf (offset : Int) (bytes : Bytes) :
    (lineEndsOf offset bytes).Pairwise (· < ·) := by
  induction bytes generalizing offset with
  | nil => exact List.Pairwise.nil
  | cons b rest ih =>
    rw [lineEndsOf]
    split
    · exact List.pairwise_cons.mpr
        ⟨fun e he ↦ (lt_and_le_of_mem_lineEndsOf (offset + 1) rest e he).1, ih (offset + 1)⟩
    · exact ih (offset + 1)

/-- There is one line end for each newline. -/
theorem length_lineEndsOf (offset : Int) (bytes : Bytes) :
    (lineEndsOf offset bytes).length = bytes.count 0x0A := by
  induction bytes generalizing offset with
  | nil => rfl
  | cons b rest ih =>
    rw [lineEndsOf, List.count_cons]
    split
    · next h => simp [h, ih]
    · next h => simp [h, ih]

/-- The last line end below an offset is where its line starts. -/
theorem getLast_lineEndsOf_take (content : Bytes) (n : Nat) :
    ((lineEndsOf 0 (content.take n)).getLast?).getD 0 = (lineStart content n : Int) := by
  induction n with
  | zero => rfl
  | succ n ih =>
    rw [List.take_add_one, lineEndsOf_append, lineStart]
    cases hb : content[n]? with
    | none => simpa [lineEndsOf] using ih
    | some b =>
      have hlen : (content.take n).length = n := by
        have := (List.getElem?_eq_some_iff.mp hb).1
        rw [List.length_take]
        omega
      by_cases h : b = 0x0A
      · simp [lineEndsOf, h, hlen]
      · simpa [lineEndsOf, h] using ih

/-! ### Search -/

/-- Bisection stays in its interval. -/
theorem bisect_le (test : Nat → Bool) (steps low high : Nat) (hle : low ≤ high) :
    bisect test steps low high ≤ high := by
  induction steps generalizing low high with
  | zero => exact hle
  | succ steps ih =>
    rw [bisect]
    split
    · dsimp only
      split
      · exact Nat.le_trans (ih low ((low + high) / 2) (by omega)) (by omega)
      · exact ih ((low + high) / 2 + 1) high (by omega)
    · exact hle

/-- Bisection finds where a monotone test starts to hold. -/
theorem bisect_spec (test : Nat → Bool) (steps low high : Nat) (hsteps : high - low ≤ steps)
    (hle : low ≤ high)
    (hmono : ∀ i j, i ≤ j → j < high → test i = true → test j = true) :
    (∀ i, low ≤ i → i < bisect test steps low high → test i = false) ∧
      ∀ i, bisect test steps low high ≤ i → i < high → test i = true := by
  induction steps generalizing low high with
  | zero =>
    rw [bisect]
    exact ⟨fun i h1 h2 ↦ by omega, fun i h1 h2 ↦ by omega⟩
  | succ steps ih =>
    rw [bisect]
    split
    · next hlt =>
      dsimp only
      split
      · next hm =>
        obtain ⟨hbelow, habove⟩ := ih low ((low + high) / 2) (by omega) (by omega)
          (fun i j hij hj ↦ hmono i j hij (by omega))
        refine ⟨hbelow, fun i hi hhigh ↦ ?_⟩
        by_cases himid : i < (low + high) / 2
        · exact habove i hi himid
        · exact hmono _ i (by omega) hhigh hm
      · next hm =>
        obtain ⟨hbelow, habove⟩ := ih ((low + high) / 2 + 1) high (by omega) (by omega) hmono
        refine ⟨fun i hi hlt' ↦ ?_, habove⟩
        by_cases himid : (low + high) / 2 < i
        · exact hbelow i (by omega) hlt'
        · -- A test that held before the middle would hold there too.
          rw [← Bool.not_eq_true]
          exact fun ht ↦ hm (hmono i _ (by omega) (by omega) ht)
    · exact ⟨fun i h1 h2 ↦ by omega, fun i h1 h2 ↦ by omega⟩

-- Of an increasing list, the items up to a bound come first.
private theorem filter_eq_take (xs : List Int) (bound : Int) (k : Nat)
    (hbelow : ∀ i e, i < k → xs[i]? = some e → e ≤ bound)
    (habove : ∀ i e, k ≤ i → xs[i]? = some e → bound < e) :
    xs.filter (fun e ↦ e ≤ bound) = xs.take k := by
  induction xs generalizing k with
  | nil => simp
  | cons x rest ih =>
    cases k with
    | zero =>
      rw [List.take_zero, List.filter_eq_nil_iff]
      intro e he
      obtain ⟨i, hi⟩ := List.getElem?_of_mem he
      have := habove i e (Nat.zero_le i) hi
      simpa using this
    | succ k =>
      have hx := hbelow 0 x (by omega) rfl
      rw [List.filter_cons_of_pos (by simpa using hx), List.take_succ_cons,
        ih k (fun i e hi he ↦ hbelow (i + 1) e (by omega) he)
          (fun i e hi he ↦ habove (i + 1) e (by omega) he)]

/-- In an increasing index, the line ends up to an offset are the first ones, as many as the search
says. -/
theorem take_linesBefore (src : Source σ) (h : src.lineEnds.toList.Pairwise (· < ·))
    (offset : Int) :
    src.lineEnds.toList.take (src.linesBefore offset) =
      src.lineEnds.toList.filter (fun e ↦ e ≤ offset) := by
  have hget (i : Nat) (e : Int) (he : src.lineEnds.toList[i]? = some e) :
      src.lineEnds.getD i 0 = e := by
    rw [Array.getElem?_toList] at he
    simp [Array.getD_eq_getD_getElem?, he]
  have hmono : ∀ i j, i ≤ j → j < src.lineEnds.size →
      decide (offset < src.lineEnds.getD i 0) = true →
        decide (offset < src.lineEnds.getD j 0) = true := by
    intro i j hij hj hi
    rcases Nat.lt_or_eq_of_le hij with hlt | rfl
    · have hlen : src.lineEnds.toList.length = src.lineEnds.size := Array.length_toList
      have hsorted := List.pairwise_iff_getElem.mp h i j (by omega) (by omega) hlt
      rw [hget i _ (List.getElem?_eq_getElem (by omega))] at hi
      rw [hget j _ (List.getElem?_eq_getElem (by omega))]
      have := of_decide_eq_true hi
      exact decide_eq_true (by omega)
    · exact hi
  obtain ⟨hbelow, habove⟩ := bisect_spec _ src.lineEnds.size 0 src.lineEnds.size (by omega)
    (by omega) hmono
  symm
  apply filter_eq_take
  · intro i e hi he
    have := of_decide_eq_false (hbelow i (Nat.zero_le i) hi)
    rw [hget i e he] at this
    omega
  · intro i e hi he
    have hsize : i < src.lineEnds.size := by
      have := (List.getElem?_eq_some_iff.mp he).1
      rwa [Array.length_toList] at this
    have := of_decide_eq_true (habove i hi hsize)
    rwa [hget i e he] at this

/-! ### The invariant -/

/-- What holds of the index of a source over a content: its line ends increase up to the scanned
mark, and those up to the gap-free mark are all that the content has there. -/
structure Index.Exact (content : Bytes) (ix : Index) : Prop where
  increasing : ix.lineEnds.toList.Pairwise (· < ·)
  le_scanned : ∀ e ∈ ix.lineEnds.toList, e ≤ ix.scanned
  contiguous_nonneg : 0 ≤ ix.contiguous
  contiguous_le_scanned : ix.contiguous ≤ ix.scanned
  contiguous_le_length : ix.contiguous ≤ content.length
  complete : ix.lineEnds.toList.filter (fun e ↦ e ≤ ix.contiguous) =
    lineEndsOf 0 (content.take ix.contiguous.toNat)

/-- An index that has seen nothing is exact. -/
theorem Index.exact_empty (content : Bytes) : Index.Exact content ⟨#[], 0, 0⟩ where
  increasing := List.Pairwise.nil
  le_scanned := by simp
  contiguous_nonneg := Int.le_refl 0
  contiguous_le_scanned := Int.le_refl 0
  contiguous_le_length := by simp
  complete := by simp [lineEndsOf]

/-- Without a gap an exact index holds the line ends of all that was examined. -/
theorem Index.Exact.lineEnds_eq {content : Bytes} {ix : Index} (h : ix.Exact content)
    (hjoin : ix.contiguous = ix.scanned) :
    ix.lineEnds.toList = lineEndsOf 0 (content.take ix.contiguous.toNat) := by
  rw [← h.complete, List.filter_eq_self.mpr]
  intro e he
  have := h.le_scanned e he
  exact decide_eq_true (by omega)

-- Bytes at an offset, less those below a mark that they reach, continue the content at the mark.
private theorem take_append_drop_known {content bytes : Bytes} {p mark : Nat}
    (hb : bytes <+: content.drop p) (hp : p ≤ mark) (hm : mark ≤ p + bytes.length) :
    content.take mark ++ bytes.drop (mark - p) = content.take (p + bytes.length) := by
  have hbytes := List.prefix_iff_eq_take.mp hb
  rw [show p + bytes.length = mark + (bytes.length - (mark - p)) by omega, List.take_add]
  congr 1
  rw [hbytes, List.drop_take, List.drop_drop, List.length_take, List.length_drop,
    show p + (mark - p) = mark by omega]
  congr 1
  have := congrArg List.length hbytes
  rw [List.length_take, List.length_drop] at this
  omega

-- The line ends that a scan adds.
private def added (ix : Index) (p : Nat) (bytes : Bytes) : List Int :=
  lineEndsOf ((p : Int) + (ix.scanned - p).toNat) (bytes.drop (ix.scanned - p).toNat)

private theorem added_bounds {ix : Index} {p : Nat} {bytes : Bytes}
    (hstop : ¬ (p : Int) + bytes.length ≤ ix.scanned) :
    ∀ e ∈ added ix p bytes, ix.scanned < e ∧ (p : Int) < e ∧ e ≤ p + bytes.length := by
  intro e he
  have := lt_and_le_of_mem_lineEndsOf _ _ e he
  rw [List.length_drop] at this
  omega

private theorem increasing_added {content bytes : Bytes} {ix : Index} {p : Nat}
    (h : ix.Exact content) (hstop : ¬ (p : Int) + bytes.length ≤ ix.scanned) :
    (ix.lineEnds.toList ++ added ix p bytes).Pairwise (· < ·) := by
  refine List.pairwise_append.mpr ⟨h.increasing, pairwise_lineEndsOf _ _, ?_⟩
  intro x hx y hy
  have := h.le_scanned x hx
  have := (added_bounds hstop y hy).1
  omega

private theorem le_stop {content bytes : Bytes} {ix : Index} {p : Nat} (h : ix.Exact content)
    (hstop : ¬ (p : Int) + bytes.length ≤ ix.scanned) :
    ∀ e ∈ ix.lineEnds.toList ++ added ix p bytes, e ≤ (p : Int) + bytes.length := by
  intro e he
  rcases List.mem_append.mp he with he | he
  · have := h.le_scanned e he
    omega
  · exact (added_bounds hstop e he).2.2

-- Without a gap the bytes continue what is known.
private theorem complete_joined {content bytes : Bytes} {ix : Index} {p : Nat}
    (h : ix.Exact content) (hb : bytes <+: content.drop p)
    (hstop : ¬ (p : Int) + bytes.length ≤ ix.scanned) (hjoin : ix.contiguous = ix.scanned)
    (hp : (p : Int) ≤ ix.contiguous) :
    ix.lineEnds.toList ++ added ix p bytes = lineEndsOf 0 (content.take (p + bytes.length)) := by
  obtain ⟨mark, hmark⟩ := Int.eq_ofNat_of_zero_le h.contiguous_nonneg
  have hold := h.lineEnds_eq hjoin
  rw [hmark, Int.toNat_natCast] at hold
  have hlength : (content.take mark).length = mark := by
    have := h.contiguous_le_length
    rw [List.length_take]
    omega
  have hknown : (ix.scanned - p).toNat = mark - p := by omega
  rw [← take_append_drop_known hb (by omega : p ≤ mark) (by omega), lineEndsOf_append, hlength,
    hold, added, hknown]
  congr 2
  omega

-- Behind a gap all that is new lies behind the gap-free mark.
private theorem complete_behind {content bytes : Bytes} {ix : Index} {p : Nat}
    (h : ix.Exact content) (hstop : ¬ (p : Int) + bytes.length ≤ ix.scanned)
    (hgap : ix.contiguous < ix.scanned ∨ ix.contiguous < (p : Int)) :
    (ix.lineEnds.toList ++ added ix p bytes).filter (fun e ↦ e ≤ ix.contiguous) =
      lineEndsOf 0 (content.take ix.contiguous.toNat) := by
  have hnone : (added ix p bytes).filter (fun e ↦ e ≤ ix.contiguous) = [] := by
    rw [List.filter_eq_nil_iff]
    intro e he
    have := added_bounds hstop e he
    simp only [decide_eq_true_eq]
    rcases hgap with hgap | hgap <;> omega
  rw [List.filter_append, hnone, List.append_nil, h.complete]

private theorem scan_of_not_le {ix : Index} {p : Nat} {bytes : Bytes}
    (hstop : ¬ (p : Int) + bytes.length ≤ ix.scanned) :
    ix.scan p bytes =
      { lineEnds := ix.lineEnds ++ (added ix p bytes).toArray
        scanned := p + bytes.length
        contiguous := if ix.contiguous = ix.scanned && (p : Int) ≤ ix.contiguous then
          p + bytes.length else ix.contiguous } :=
  if_neg hstop

/-- Scanning bytes of the content keeps an index exact. -/
theorem Index.Exact.scan {content bytes : Bytes} {ix : Index} {p : Nat} (h : ix.Exact content)
    (hb : bytes <+: content.drop p) : (ix.scan p bytes).Exact content := by
  have hnonneg := h.contiguous_nonneg
  have hscanned := h.contiguous_le_scanned
  by_cases hstop : (p : Int) + bytes.length ≤ ix.scanned
  · rw [Index.scan, if_pos hstop]
    exact h
  · have hends : (ix.lineEnds ++ (added ix p bytes).toArray).toList =
        ix.lineEnds.toList ++ added ix p bytes := by simp
    have hincreasing := increasing_added h hstop
    have hle := le_stop h hstop
    rw [← hends] at hincreasing hle
    rw [scan_of_not_le hstop]
    by_cases hgap : ix.contiguous = ix.scanned ∧ (p : Int) ≤ ix.contiguous
    · have hlength := hb.length_le
      rw [List.length_drop] at hlength
      rw [if_pos (by simpa using hgap)]
      refine ⟨hincreasing, hle, by dsimp only; omega, Int.le_refl _, by dsimp only; omega, ?_⟩
      rw [List.filter_eq_self.mpr fun e he ↦ decide_eq_true (hle e he),
        show ((p : Int) + bytes.length).toNat = p + bytes.length by omega]
      exact hends.trans (complete_joined h hb hstop hgap.1 hgap.2)
    · rw [if_neg (by simpa using hgap)]
      refine ⟨hincreasing, hle, hnonneg, by dsimp only; omega, h.contiguous_le_length, ?_⟩
      exact (congrArg (List.filter _) hends).trans (complete_behind h hstop (by omega))

/-- Up to the gap-free mark, an exact index has the line ends of the content below an offset. -/
theorem Index.Exact.filter_eq {content : Bytes} {ix : Index} (h : ix.Exact content) {offset : Nat}
    (ho : (offset : Int) ≤ ix.contiguous) :
    ix.lineEnds.toList.filter (fun e ↦ e ≤ (offset : Int)) =
      lineEndsOf 0 (content.take offset) := by
  have hlength := h.contiguous_le_length
  have hsplit : content.take ix.contiguous.toNat = content.take offset ++
      (content.drop offset).take (ix.contiguous.toNat - offset) := by
    rw [← List.take_add]
    congr 1
    omega
  have htake : (content.take offset).length = offset := by
    rw [List.length_take]
    omega
  have hcut : ix.lineEnds.toList.filter (fun e ↦ e ≤ (offset : Int)) =
      (ix.lineEnds.toList.filter (fun e ↦ e ≤ ix.contiguous)).filter
        (fun e ↦ e ≤ (offset : Int)) := by
    rw [List.filter_filter]
    apply List.filter_congr
    intro e _
    by_cases he : e ≤ (offset : Int)
    · simp [he, show e ≤ ix.contiguous by omega]
    · simp [he]
  rw [hcut, h.complete, hsplit, lineEndsOf_append, List.filter_append,
    List.filter_eq_self.mpr, List.filter_eq_nil_iff.mpr, List.append_nil]
  · intro e he
    have := (lt_and_le_of_mem_lineEndsOf _ _ e he).1
    simp only [decide_eq_true_eq]
    omega
  · intro e he
    have := (lt_and_le_of_mem_lineEndsOf _ _ e he).2
    simp only [decide_eq_true_eq]
    omega

/-- The index of a source stays exact through every run that strands no byte. -/
theorem run_exact {st : Stream σ} {content : Bytes} {At : σ → Nat → Prop}
    (hst : st.Serves content At) {filename : Bytes} {s : σ} {p : Nat} (hs : At s p)
    {src : Source σ} {events : List Log.Event} (hsrc : start st filename s = .ok (src, events))
    (calls : List Call) (hcalls : Steady st src calls) :
    (src.run st calls).index.Exact content :=
  index_run_induction hst hs hsrc (Index.exact_empty content) (fun _ _ _ h hb ↦ h.scan hb) calls
    hcalls

/-- An increasing index that has the line ends of the content up to an offset resolves the offset to
the line and the column that it has in the content. -/
theorem lineAndColumn_of_filter_eq {content : Bytes} {src : Source σ}
    (hincreasing : src.lineEnds.toList.Pairwise (· < ·)) {offset : Nat}
    (hfilter : src.lineEnds.toList.filter (fun e ↦ e ≤ (offset : Int)) =
      lineEndsOf 0 (content.take offset)) :
    src.lineAndColumn offset = ((lineCount content offset : Int) + 1,
      Integer.wrap64 ((offset : Int) - lineStart content offset + 1)) := by
  have htake : src.lineEnds.toList.take (src.linesBefore offset) =
      lineEndsOf 0 (content.take offset) :=
    (take_linesBefore src hincreasing offset).trans hfilter
  have hle : src.linesBefore offset ≤ src.lineEnds.toList.length :=
    bisect_le _ _ 0 src.lineEnds.size (Nat.zero_le _)
  have hcount : src.linesBefore offset = lineCount content offset := by
    have hlength := congrArg List.length htake
    rwa [List.length_take, Nat.min_eq_left hle, length_lineEndsOf] at hlength
  have hstart : (if src.linesBefore offset = 0 then (0 : Int)
      else src.lineEnds.getD (src.linesBefore offset - 1) 0) = lineStart content offset := by
    rw [← getLast_lineEndsOf_take, ← htake, List.getLast?_take]
    split
    · rfl
    · rw [List.getElem?_eq_getElem (by omega)]
      simp [Array.getD_eq_getD_getElem?, show src.linesBefore offset - 1 < src.lineEnds.size by
        rw [Array.length_toList] at hle; omega]
  unfold lineAndColumn
  dsimp only
  rw [hstart, hcount]

/-- With an exact index, an offset up to the gap-free mark resolves to the line and the column that
it has in the content. -/
theorem lineAndColumn_of_exact {content : Bytes} {src : Source σ} (h : src.index.Exact content)
    {offset : Nat} (ho : (offset : Int) ≤ src.contiguous) :
    src.lineAndColumn offset = ((lineCount content offset : Int) + 1,
      Integer.wrap64 ((offset : Int) - lineStart content offset + 1)) :=
  lineAndColumn_of_filter_eq h.increasing (h.filter_eq ho)

/-- Only columns that 64 bits cannot hold are changed. -/
theorem wrap64_of_lt {n : Int} (h0 : 0 ≤ n) (h : n < Integer.half64) :
    Integer.wrap64 n = n := by
  rw [Integer.wrap64]
  apply Int.bmod_eq_of_le
  · simp only [Integer.range64]
    omega
  · simp only [Integer.range64, Integer.half64] at h ⊢
    omega

/-- Through every run that strands no byte, an offset that a source calls reliable resolves to the
line and the column that it has in the content: one more than the line ends below it, and one more
than its distance from the start of its line. A column is a number of 64 bits with sign, so at the
greatest offset of all it is what these hold of it. -/
theorem lineAndColumn_of_reliable (st : Stream σ) (content : Bytes) (At : σ → Nat → Prop)
    (hst : st.Serves content At) (filename : Bytes) (s : σ) (p : Nat) (hs : At s p)
    (src : Source σ) (events : List Log.Event) (hsrc : start st filename s = .ok (src, events))
    (calls : List Call) (hcalls : Steady st src calls) (offset : Nat)
    (hreliable : (src.run st calls).reliable offset = true) :
    (src.run st calls).lineAndColumn offset =
        (1 + (lineCount content offset : Int),
          Integer.wrap64 ((offset : Int) - lineStart content offset + 1)) ∧
      (offset + 1 < Integer.half64 →
        (src.run st calls).lineAndColumn offset =
          (1 + (lineCount content offset : Int),
            (offset : Int) - lineStart content offset + 1)) := by
  have hexact := run_exact hst hs hsrc calls hcalls
  have hle : (offset : Int) ≤ (src.run st calls).contiguous := of_decide_eq_true hreliable
  have hstart := lineStart_le content offset
  rw [lineAndColumn_of_exact hexact hle, Int.add_comm (lineCount content offset : Int) 1]
  refine ⟨rfl, fun hfits ↦ ?_⟩
  rw [wrap64_of_lt (by omega) (by omega)]

/-- A source that starts in the middle, goes back to read two lines in short deliveries, leaves a
gap, meets the end, fails to seek before the start, and reads across the gap. -/
theorem lineAndColumn_of_reliable_gap :
    let memory : Memory :=
      { content := [0x61, 0x0A, 0x62, 0x63, 0x0A, 0x64], position := 4, most := some 2 }
    let src : Source Memory := { inner := memory, position := 4 }
    let calls : List Call := [.setPosition 0, .read 3, .setPosition 5, .read 1, .atEnd,
      .setPosition (-1), .setPosition 2, .read 9]
    (src.run Memory.stream calls).reliable 3 = true ∧
      (src.run Memory.stream calls).reliable 4 = false ∧
      (src.run Memory.stream calls).lineAndColumn 3 = (2, 2) := by
  intro memory src calls
  have hreliable : (src.run Memory.stream calls).reliable (3 : Nat) = true := by decide
  have hsteady : Steady Memory.stream src calls :=
    ⟨rfl, rfl, rfl, rfl, by decide, rfl, rfl, rfl, trivial⟩
  refine ⟨hreliable, by decide, ?_⟩
  exact (lineAndColumn_of_reliable Memory.stream memory.content _ (Memory.stream_serves _) []
    memory 4 ⟨rfl, rfl⟩ src [offStartEvent [] 4] rfl calls hsteady 3 hreliable).2 (by decide)

end Source

end GrammarCode
