import GrammarCode.Cli.Positions
import GrammarCode.Proofs.LineIndex

/-!
# Runs without a gap

Over a stream that neither fails nor stalls a read returns exactly what the content has, however the
stream cuts it up. If no read starts behind the scanned mark, then nothing is ever left out: the
index holds every line end of what was read, and it depends only on how far that reaches. So a
content read to its end shows the same locations whatever the size of the chunks.
-/

namespace GrammarCode

/-! ### Streams that deliver -/

/-- A stream over fixed content that neither fails nor stalls: a read gives something as long as
there is something, and no more than was asked for; the only error is the end of the content, with
or behind its last bytes; and a seek works unless it leads before the start. -/
structure Stream.Delivers {σ : Type} (st : Stream σ) (content : Bytes) (At : σ → Nat → Prop) :
    Prop extends st.Serves content At where
  read_length : ∀ s p n, At s p → (st.read s n).bytes.length ≤ n
  read_ne_nil : ∀ s p n, At s p → 0 < n → p < content.length → (st.read s n).bytes ≠ []
  read_error : ∀ s p n e, At s p → 0 < n → (st.read s n).error = some e →
    e = .endOfInput ∧ content.length ≤ p + (st.read s n).bytes.length
  read_end : ∀ s p n, At s p → 0 < n → content.length ≤ p →
    (st.read s n).error = some .endOfInput
  seek_isOk : ∀ s p w offset, At s p → 0 ≤ w.base p + offset →
    (st.seek s w offset).1.isOk = true

namespace Stream.Delivers

variable {σ : Type} {st : Stream σ} {content : Bytes} {At : σ → Nat → Prop}

/-- Gathering deliveries gives all that is wanted or all that is left; only the end stops it. -/
theorem gather_eq (h : st.Delivers content At) (calls wanted : Nat) (s : σ) (p : Nat)
    (hs : At s p) (hcalls : wanted ≤ calls) :
    (st.gather calls wanted s).bytes = (content.drop p).take wanted ∧
      ∀ e, (st.gather calls wanted s).error = some e → e = .endOfInput := by
  induction calls generalizing wanted s p with
  | zero =>
    obtain rfl : wanted = 0 := by omega
    unfold Stream.gather
    simp
  | succ k ih =>
    unfold Stream.gather
    split
    · next hzero => simp [hzero]
    · next hzero =>
      have hpos : 0 < wanted := by omega
      have hbytes := h.read_bytes s p wanted hs
      have hlength := h.read_length s p wanted hs
      dsimp only
      split
      · next e he =>
        -- The whole rest of the content came, and it is not longer than what was wanted.
        obtain ⟨rfl, hend⟩ := h.read_error s p wanted e hs hpos he
        refine ⟨?_, fun e he ↦ (Option.some.inj he).symm⟩
        have hall := hbytes.eq_of_length_le (by rw [List.length_drop]; omega)
        rw [List.take_of_length_le (by rw [← hall]; exact hlength)]
        exact hall
      · next he =>
        have hp : p < content.length := by
          apply Nat.lt_of_not_le
          intro hle
          rw [h.read_end s p wanted hs hpos hle] at he
          cases he
        have hsome := List.length_pos_iff.mpr (h.read_ne_nil s p wanted hs hpos hp)
        obtain ⟨hrest, herror⟩ := ih (wanted - (st.read s wanted).bytes.length) _ _
          (h.read_next s p wanted hs) (by omega)
        refine ⟨?_, herror⟩
        obtain ⟨rest, hsplit⟩ := hbytes
        rw [hrest, ← List.drop_drop, ← hsplit, List.drop_left, List.take_append,
          List.take_of_length_le hlength]

/-- A read of an exact number of bytes gives them or all that are left; the end is its only
error. -/
theorem readFull_eq (h : st.Delivers content At) (wanted : Nat) (s : σ) (p : Nat) (hs : At s p) :
    (st.readFull wanted s).bytes = (content.drop p).take wanted ∧
      ∀ e, (st.readFull wanted s).error = some e → e = .endOfInput ∨ e = .unexpectedEnd := by
  obtain ⟨hbytes, herror⟩ := h.gather_eq (wanted + st.patience) wanted s p hs (by omega)
  unfold Stream.readFull
  dsimp only
  split
  · exact ⟨hbytes, by simp⟩
  · split
    · exact ⟨hbytes, fun e he ↦ Or.inr (Option.some.inj he).symm⟩
    · exact ⟨hbytes, fun e he ↦ Or.inl (herror e he)⟩

end Stream.Delivers

/-- A stream serves its content from the states that have a property which its operations keep. -/
theorem Stream.Serves.and {σ : Type} {st : Stream σ} {content : Bytes} {At : σ → Nat → Prop}
    (h : st.Serves content At) (keeps : σ → Prop)
    (hread : ∀ s n, keeps s → keeps (st.read s n).next)
    (hseek : ∀ s w offset, keeps s → keeps (st.seek s w offset).2) :
    st.Serves content fun s p ↦ At s p ∧ keeps s where
  read_bytes s p n hs := h.read_bytes s p n hs.1
  read_next s p n hs := ⟨h.read_next s p n hs.1, hread s n hs.2⟩
  seek_ok s p w offset q s' hs heq := by
    obtain ⟨hq, h0, hat⟩ := h.seek_ok s p w offset q s' hs.1 heq
    have := hseek s w offset hs.2
    rw [heq] at this
    exact ⟨hq, h0, hat, this⟩
  seek_error s p w offset e s' hs heq := by
    have := hseek s w offset hs.2
    rw [heq] at this
    exact ⟨h.seek_error s p w offset e s' hs.1 heq, this⟩

namespace Memory

/-- A byte string that shows no faults, apart from delivering little at a time. -/
structure Calm (m : Memory) : Prop where
  failing : m.failing = none
  stalling : m.stalling = none
  most : m.most ≠ some 0
  seeks : m.seeks = none

theorem Calm.read_eq {m : Memory} (h : m.Calm) (n : Nat) :
    m.read n =
      if (m.content.length : Int) ≤ m.position then
        { bytes := [], error := some .endOfInput, next := m }
      else
        let bytes := m.ahead (m.allowance n)
        { bytes
          error :=
            if m.eager && m.position + bytes.length = m.content.length then some .endOfInput
            else none
          next := { m with position := m.position + bytes.length } } := by
  simp [read, reached, h.failing, h.stalling]

theorem Calm.read {m : Memory} (h : m.Calm) (n : Nat) : (m.read n).next.Calm := by
  rw [h.read_eq]
  split
  · exact h
  · exact ⟨h.failing, h.stalling, h.most, h.seeks⟩

theorem Calm.seek {m : Memory} (h : m.Calm) (w : Whence) (offset : Int) :
    (m.seek w offset).2.Calm := by
  have hseeks : m.seeks.map (· - 1) = none := by rw [h.seeks, Option.map_none]
  have hmoved (position : Int) : Calm { m with seeks := m.seeks.map (· - 1), position } :=
    ⟨h.failing, h.stalling, h.most, hseeks⟩
  unfold Memory.seek
  split
  · exact h
  · cases w with
    | start =>
      dsimp only
      split <;> exact hmoved _
    | current =>
      dsimp only
      split <;> exact hmoved _

/-- One byte at least is allowed if one is asked for, and no more than are asked for. -/
theorem Calm.allowance_bounds {m : Memory} (h : m.Calm) (n : Nat) :
    m.allowance n ≤ n ∧ (0 < n → 0 < m.allowance n) := by
  unfold allowance
  rw [h.failing]
  dsimp only
  split
  · next k hk =>
    have hne := h.most
    rw [hk, ne_eq, Option.some.injEq] at hne
    omega
  · omega

/-- A calm byte string delivers its content. -/
theorem stream_delivers (content : Bytes) :
    stream.Delivers content fun m p ↦ (m.content = content ∧ m.position = (p : Int)) ∧ m.Calm where
  toServes := (stream_serves content).and Calm (fun _ n h ↦ h.read n) fun _ w offset h ↦
    h.seek w offset
  read_length := by
    rintro m p n ⟨⟨rfl, hp⟩, h⟩
    change (m.read n).bytes.length ≤ n
    rw [h.read_eq]
    split
    · exact Nat.zero_le n
    · exact Nat.le_trans (List.length_take_le _ _) (h.allowance_bounds n).1
  read_ne_nil := by
    rintro m p n ⟨⟨rfl, hp⟩, h⟩ hn hlt
    change (m.read n).bytes ≠ []
    have hpos := (h.allowance_bounds n).2 hn
    rw [h.read_eq, if_neg (by omega)]
    dsimp only
    rw [ahead, ne_eq, List.take_eq_nil_iff, List.drop_eq_nil_iff, hp, Int.toNat_natCast]
    omega
  read_error := by
    rintro m p n e ⟨⟨rfl, hp⟩, h⟩ hn
    change (m.read n).error = some e → _ ∧ m.content.length ≤ p + (m.read n).bytes.length
    rw [h.read_eq]
    split
    · intro he
      exact ⟨(Option.some.inj he).symm, by omega⟩
    · dsimp only
      split
      · next heager =>
        rw [Bool.and_eq_true, decide_eq_true_eq] at heager
        intro he
        exact ⟨(Option.some.inj he).symm, by omega⟩
      · exact fun he ↦ absurd he (by simp)
  read_end := by
    rintro m p n ⟨⟨rfl, hp⟩, h⟩ hn hle
    change (m.read n).error = _
    rw [h.read_eq, if_pos (by omega)]
  seek_isOk := by
    rintro m p w offset ⟨⟨rfl, hp⟩, h⟩ h0
    change (m.seek w offset).1.isOk = true
    unfold Memory.seek
    rw [h.seeks, if_neg (by simp)]
    cases w with
    | start =>
      rw [Whence.base] at h0
      dsimp only
      rw [if_neg (by omega)]
      rfl
    | current =>
      rw [Whence.base] at h0
      dsimp only
      rw [if_neg (by omega)]
      rfl

end Memory

namespace Source

variable {σ : Type} {st : Stream σ} {content : Bytes} {At : σ → Nat → Prop}

-- The end of the stream is no error of a read.
private theorem error_read_eq_none {src : Source σ} {n : Int}
    (h : ∀ e, (st.readFull n.toNat src.inner).error = some e →
      e = .endOfInput ∨ e = .unexpectedEnd) : (src.read st n).error = none := by
  unfold read
  split
  · rfl
  · dsimp only
    split
    · rfl
    · rfl
    · rfl
    · next e hend hunexpected he =>
      rcases h e he with rfl | rfl
      · exact absurd rfl hend
      · exact absurd rfl hunexpected

/-- A read returns what the content has at the position, as much as was asked for or is left, and
moves by it, without an error. -/
theorem read_of_delivers (hst : st.Delivers content At) {src : Source σ} {p : Nat}
    (hp : src.Tracks At p) {n : Int} (hn : 0 < n) :
    (src.read st n).value = (content.drop p).take n.toNat ∧ (src.read st n).error = none ∧
      (src.read st n).source.Tracks At (p + (src.read st n).value.length) ∧
      (src.read st n).source.index = src.index.scan p (src.read st n).value := by
  obtain ⟨-, htracks, hindex⟩ := read_eq hst.toServes hp n
  obtain ⟨hbytes, herror⟩ := hst.readFull_eq n.toNat src.inner p hp.1
  rw [if_pos hn] at hindex
  exact ⟨(read_fields st src n hn).1.trans hbytes, error_read_eq_none herror, htracks, hindex⟩

/-- A move goes to the offset asked for; one before the start is refused and goes nowhere. -/
theorem setPosition_of_delivers (hst : st.Delivers content At) {src : Source σ} {p : Nat}
    (hp : src.Tracks At p) (offset : Int) :
    ((src.setPosition st offset).error = none ↔ 0 ≤ offset) ∧
      (src.setPosition st offset).source.position =
        if 0 ≤ offset then offset else src.position := by
  have hbase : Whence.start.base p + offset = offset := by rw [Whence.base, Int.zero_add]
  unfold setPosition
  split
  · next position s' hseek =>
    obtain ⟨hposition, hnonneg, -⟩ := hst.seek_ok src.inner p .start offset position s' hp.1 hseek
    rw [hbase] at hposition
    subst hposition
    exact ⟨iff_of_true rfl hnonneg, (if_pos hnonneg).symm⟩
  · next e s' hseek =>
    have hnegative : ¬0 ≤ offset := by
      intro hnonneg
      have hok := hst.seek_isOk src.inner p .start offset hp.1 (hbase.symm ▸ hnonneg)
      rw [hseek] at hok
      cases hok
    exact ⟨iff_of_false (Option.some_ne_none e) hnegative, (if_neg hnegative).symm⟩

/-- Asking for the end of a stream that delivers always puts back what it takes. -/
theorem strands_eq_false (hst : st.Delivers content At) {src : Source σ} {p : Nat}
    (hp : src.Tracks At p) (c : Call) : src.strands st c = false := by
  cases c with
  | read n => rfl
  | setPosition offset => rfl
  | atEnd =>
    rw [strands, Bool.and_eq_false_imp]
    intro hsome
    have hempty : (st.read src.inner 1).bytes.isEmpty = false := by simpa using hsome
    have hnext := hst.read_next src.inner p 1 hp.1
    have hback := hst.seek_isOk _ _ .current (-((st.read src.inner 1).bytes.length : Int)) hnext
      (by rw [Whence.base]; omega)
    unfold atEnd
    dsimp only
    rw [hempty, if_neg Bool.false_ne_true]
    split
    · rfl
    · next e s hseek =>
      rw [hseek] at hback
      cases hback

/-! ### Gapless runs -/

/-- An index with no gap in what was examined. -/
def Index.Full (content : Bytes) (ix : Index) : Prop :=
  ix.Exact content ∧ ix.contiguous = ix.scanned

namespace Index.Full

variable {ix : Index}

theorem scanned_nonneg (h : ix.Full content) : 0 ≤ ix.scanned := by
  rw [← h.2]
  exact h.1.contiguous_nonneg

theorem scanned_le (h : ix.Full content) : ix.scanned ≤ content.length := by
  rw [← h.2]
  exact h.1.contiguous_le_length

theorem lineEnds_eq (h : ix.Full content) :
    ix.lineEnds.toList = lineEndsOf 0 (content.take ix.scanned.toNat) := by
  rw [h.1.lineEnds_eq h.2, h.2]

/-- How far it reaches tells a whole index. -/
theorem ext {jx : Index} (hi : ix.Full content) (hj : jx.Full content)
    (h : ix.scanned = jx.scanned) : ix = jx := by
  have hends : ix.lineEnds = jx.lineEnds := by
    apply Array.toList_inj.mp
    rw [hi.lineEnds_eq, hj.lineEnds_eq, h]
  obtain ⟨ends, scanned, contiguous⟩ := ix
  obtain ⟨ends', scanned', contiguous'⟩ := jx
  have hcontiguous : contiguous = contiguous' := hi.2.trans (h.trans hj.2.symm)
  cases hends
  cases h
  cases hcontiguous
  rfl

/-- Bytes that start at or before the mark leave no gap. -/
theorem scan {bytes : Bytes} {p : Nat} (h : ix.Full content) (hb : bytes <+: content.drop p)
    (hp : (p : Int) ≤ ix.scanned) : (ix.scan p bytes).Full content := by
  refine ⟨h.1.scan hb, ?_⟩
  unfold Index.scan
  split
  · exact h.2
  · dsimp only
    rw [if_pos]
    simp only [h.2, decide_true, Bool.true_and]
    exact decide_eq_true hp

end Index.Full

/-- A call does not read behind the scanned mark. -/
def StartsKnown (src : Source σ) : Call → Prop
  | .read n => 0 < n → src.position ≤ src.scanned
  | .setPosition _ => True
  | .atEnd => True

/-- No call of a run reads behind the scanned mark. -/
def Gapless (st : Stream σ) (src : Source σ) : List Call → Prop
  | [] => True
  | c :: rest => src.StartsKnown c ∧ Gapless st (src.step st c) rest

instance (src : Source σ) (c : Call) : Decidable (src.StartsKnown c) :=
  match c with
  | .read n => inferInstanceAs (Decidable (0 < n → src.position ≤ src.scanned))
  | .setPosition _ => .isTrue trivial
  | .atEnd => .isTrue trivial

/-- Whether a run has no gap can be found out by running it. -/
instance decidableGapless (st : Stream σ) (src : Source σ) (calls : List Call) :
    Decidable (Gapless st src calls) :=
  match calls with
  | [] => .isTrue trivial
  | c :: rest =>
    have := decidableGapless st (src.step st c) rest
    inferInstanceAs (Decidable (src.StartsKnown c ∧ Gapless st (src.step st c) rest))

theorem Gapless.of_append {src : Source σ} {before after : List Call}
    (h : Gapless st src (before ++ after)) : Gapless st src before := by
  induction before generalizing src with
  | nil => trivial
  | cons c rest ih => exact ⟨h.1, ih h.2⟩

/-- What a gapless run keeps: the source knows the position of its stream, and its index is full. -/
structure Complete (content : Bytes) (At : σ → Nat → Prop) (src : Source σ) : Prop where
  tracks : ∃ p, src.Tracks At p
  full : src.index.Full content

/-- A source that starts is complete. -/
theorem Complete.start (hst : st.Delivers content At) {filename : Bytes} {s : σ} {p : Nat}
    (hs : At s p) {src : Source σ} {events : List Log.Event}
    (h : start st filename s = .ok (src, events)) : src.Complete content At := by
  obtain ⟨htracks, hindex⟩ := start_eq hst.toServes hs h
  refine ⟨⟨p, htracks⟩, ?_⟩
  rw [hindex]
  exact ⟨Index.exact_empty content, rfl⟩

/-- A call that does not read behind the mark keeps a source complete. -/
theorem Complete.step (hst : st.Delivers content At) {src : Source σ} (h : src.Complete content At)
    (c : Call) (hc : src.StartsKnown c) : (src.step st c).Complete content At := by
  obtain ⟨p, hp⟩ := h.tracks
  cases c with
  | read n =>
    obtain ⟨hb, htracks, hindex⟩ := read_eq hst.toServes hp n
    refine ⟨⟨_, htracks⟩, ?_⟩
    rw [Source.step, hindex]
    split
    · next hn =>
      have hle := hc hn
      rw [hp.2] at hle
      exact h.full.scan hb hle
    · exact h.full
  | setPosition offset =>
    obtain ⟨hindex, htracks⟩ := setPosition_eq hst.toServes hp offset
    exact ⟨htracks, by rw [Source.step, hindex]; exact h.full⟩
  | atEnd =>
    obtain ⟨hindex, htracks⟩ := atEnd_eq hst.toServes hp (strands_eq_false hst hp .atEnd)
    exact ⟨⟨p, htracks⟩, by rw [Source.step, hindex]; exact h.full⟩

/-- A gapless run keeps a source complete. -/
theorem Complete.run (hst : st.Delivers content At) {src : Source σ} (h : src.Complete content At)
    (calls : List Call) (hcalls : Gapless st src calls) :
    (src.run st calls).Complete content At := by
  induction calls generalizing src with
  | nil => exact h
  | cons c rest ih => exact ih (h.step hst c hcalls.1) hcalls.2

/-! ### Reading everything -/

private theorem filename_read (st : Stream σ) (src : Source σ) (n : Int) :
    (src.read st n).source.filename = src.filename := by
  have hscan (here : Source σ) (offset : Int) (bytes : Bytes) :
      (here.scan offset bytes).1.filename = here.filename := by
    unfold Source.scan
    dsimp only
    split <;> rfl
  unfold read
  split
  · rfl
  · dsimp only
    split <;> exact hscan _ _ _

/-- Reading in chunks of any size from a position with nothing unknown before it ends at the end of
the content, with nothing left out. -/
theorem readAll_of_delivers (hst : st.Delivers content At) {chunk : Int} (hchunk : 0 < chunk)
    (times : Nat) {src : Source σ} {p : Nat} (hp : src.Tracks At p)
    (hfull : src.index.Full content) (hle : (p : Int) ≤ src.scanned)
    (htimes : content.length < p + times) :
    let r := src.readAll st chunk times
    r.error = none ∧ r.source.index.Full content ∧ r.source.scanned = content.length ∧
      r.source.position = content.length ∧ r.source.filename = src.filename := by
  have hscanned : src.scanned ≤ content.length := hfull.scanned_le
  induction times generalizing src p with
  | zero => exact absurd htimes (by omega)
  | succ k ih =>
    obtain ⟨hvalue, herror, htracks, hindex⟩ := read_of_delivers hst hp hchunk
    have hfull' : (src.read st chunk).source.index.Full content := by
      rw [hindex]
      exact hfull.scan (hvalue ▸ List.take_prefix _ _) hle
    have hmark : (src.read st chunk).source.scanned =
        max src.scanned (p + (src.read st chunk).value.length) :=
      (congrArg Index.scanned hindex).trans (Index.scanned_scan ..)
    rw [readAll, herror, Option.isSome_none, Bool.false_or]
    by_cases hempty : (src.read st chunk).value.isEmpty = true
    · -- Nothing came, so the content ends here, and the mark is at its end.
      rw [if_pos hempty]
      rw [List.isEmpty_iff] at hempty
      have hend : content.length ≤ p := by
        rw [hempty, eq_comm, List.take_eq_nil_iff, List.drop_eq_nil_iff] at hvalue
        rcases hvalue with hzero | hend
        · omega
        · exact hend
      rw [hempty, List.length_nil] at hmark htracks
      have hposition := htracks.2
      exact ⟨rfl, hfull', by dsimp only; omega, by dsimp only; omega, filename_read st src chunk⟩
    · rw [if_neg hempty]
      have hsome : 0 < (src.read st chunk).value.length := by
        rw [List.isEmpty_iff, ← ne_eq, ← List.length_pos_iff] at hempty
        exact hempty
      obtain ⟨herror', hix, hend, hposition, hname⟩ := ih htracks hfull' (by omega) (by omega)
        hfull'.scanned_le
      exact ⟨herror', hix, hend, hposition, hname.trans (filename_read st src chunk)⟩

/-- The line ends of what was read are the offsets just after its newlines. -/
theorem lineEndsOf_take_eq (content : Bytes) (n : Nat) :
    lineEndsOf 0 (content.take n) =
      ((List.range n).filter fun i ↦ content[i]? = some 0x0A).map fun i : Nat ↦ (i : Int) + 1 := by
  induction n with
  | zero => rfl
  | succ n ih =>
    rw [List.take_add_one, lineEndsOf_append, ih, List.range_succ, List.filter_append,
      List.map_append]
    congr 1
    cases hb : content[n]? with
    | none => simp [hb, lineEndsOf]
    | some b =>
      have hlength : (content.take n).length = n := by
        have := (List.getElem?_eq_some_iff.mp hb).1
        rw [List.length_take]
        omega
      by_cases h : b = 0x0A
      · simp [lineEndsOf, hb, h, hlength]
      · simp [lineEndsOf, hb, h]

/-- Sources with the same name and the same line ends show the same locations. -/
theorem location_congr {τ : Type} {src : Source σ} {other : Source τ}
    (hname : src.filename = other.filename) (hends : src.lineEnds = other.lineEnds)
    (offset : Int) : src.location offset = other.location offset := by
  unfold location lineAndColumn linesBefore
  rw [hname, hends]

/-- Over a stream that neither fails nor stalls, and in a run from offset zero in which no read
starts behind the scanned mark, every read returns exactly what the content has at its position and
advances by its length, and every move goes to the offset asked for, unless that lies before the
start; the line ends are exactly those of what was examined, in order, and all of it is reliable. So
the index depends only on how far the reads reached, and a content read to its end in chunks of any
size shows the same locations. -/
theorem run_of_gapless (st : Stream σ) (content : Bytes) (At : σ → Nat → Prop)
    (hst : st.Delivers content At) (filename : Bytes) (s : σ) (hs : At s 0) (src : Source σ)
    (events : List Log.Event) (hsrc : start st filename s = .ok (src, events))
    (calls : List Call) (hcalls : Gapless st src calls) :
    (∀ before n after, calls = before ++ .read n :: after → 0 < n →
        ∃ p : Nat, (src.run st before).position = p ∧
          ((src.run st before).read st n).value = (content.drop p).take n.toNat ∧
          ((src.run st before).read st n).error = none ∧
          ((src.run st before).read st n).source.position =
            p + ((src.run st before).read st n).value.length) ∧
      (∀ before offset after, calls = before ++ .setPosition offset :: after →
        (((src.run st before).setPosition st offset).error = none ↔ 0 ≤ offset) ∧
          ((src.run st before).setPosition st offset).source.position =
            if 0 ≤ offset then offset else (src.run st before).position) ∧
      (src.run st calls).lineEnds.toList =
        ((List.range (src.run st calls).scanned.toNat).filter fun i ↦ content[i]? = some 0x0A).map
          (fun i : Nat ↦ (i : Int) + 1) ∧
      (∀ offset ≤ (src.run st calls).scanned, (src.run st calls).reliable offset = true) ∧
      (∀ others, Gapless st src others →
        (src.run st others).scanned = (src.run st calls).scanned →
        (src.run st others).index = (src.run st calls).index) ∧
      ∀ chunk times chunk' times', 0 < chunk → content.length < times → 0 < chunk' →
        content.length < times' →
          (src.readAll st chunk times).error = none ∧
          (src.readAll st chunk times).source.scanned = content.length ∧
          ∀ offset, (src.readAll st chunk times).source.location offset =
            (src.readAll st chunk' times').source.location offset := by
  have hstart := Complete.start hst hs hsrc
  have hrun := hstart.run hst calls hcalls
  refine ⟨?_, ?_, ?_, ?_, ?_, ?_⟩
  · rintro before n after rfl hn
    obtain ⟨p, hp⟩ := (hstart.run hst before hcalls.of_append).tracks
    obtain ⟨hvalue, herror, htracks, -⟩ := read_of_delivers hst hp hn
    refine ⟨p, hp.2, hvalue, herror, ?_⟩
    rw [htracks.2, Int.natCast_add]
  · rintro before offset after rfl
    obtain ⟨p, hp⟩ := (hstart.run hst before hcalls.of_append).tracks
    exact setPosition_of_delivers hst hp offset
  · exact hrun.full.lineEnds_eq.trans (lineEndsOf_take_eq content _)
  · intro offset ho
    have hjoin : (src.run st calls).contiguous = (src.run st calls).scanned := hrun.full.2
    exact decide_eq_true (by omega)
  · intro others hothers hscanned
    exact (hstart.run hst others hothers).full.ext hrun.full hscanned
  · intro chunk times chunk' times' hchunk htimes hchunk' htimes'
    obtain ⟨htracks, hindex⟩ := start_eq hst.toServes hs hsrc
    have hmark : ((0 : Nat) : Int) ≤ src.scanned := hstart.full.scanned_nonneg
    obtain ⟨herror, hfull, hend, -, hname⟩ := readAll_of_delivers hst hchunk times htracks
      hstart.full hmark (by omega)
    obtain ⟨-, hfull', hend', -, hname'⟩ := readAll_of_delivers hst hchunk' times' htracks
      hstart.full hmark (by omega)
    refine ⟨herror, hend, fun offset ↦ location_congr (hname.trans hname'.symm) ?_ offset⟩
    exact congrArg Index.lineEnds (hfull.ext hfull' (hend.trans hend'.symm))

/-- Two bytes at a time at most, the end told with the last ones: reads that cut a line, go back
across the mark, ask for the end and for more than there is. -/
theorem run_of_gapless_back :
    let memory : Memory :=
      { content := [0x61, 0x0A, 0x0A, 0x62, 0x0A], most := some 2, eager := true }
    let src : Source Memory := { inner := memory }
    let calls : List Call := [.read 2, .atEnd, .setPosition 1, .read 3, .setPosition (-1),
      .setPosition 0, .read 9]
    Gapless Memory.stream src calls ∧
      (src.run Memory.stream calls).lineEnds.toList = [2, 3, 5] ∧
      (src.run Memory.stream calls).reliable 5 = true ∧
      ∀ offset, (src.readAll Memory.stream 1 6).source.location offset =
        (src.readAll Memory.stream 4 9).source.location offset := by
  intro memory src calls
  have hcalls : Gapless Memory.stream src calls := by decide
  obtain ⟨-, -, hends, hreliable, -, hchunks⟩ := run_of_gapless Memory.stream memory.content _
    (Memory.stream_delivers _) [] memory ⟨⟨rfl, rfl⟩, ⟨rfl, rfl, by decide, rfl⟩⟩ src [] rfl calls
    hcalls
  refine ⟨hcalls, hends.trans (by decide), hreliable 5 (by decide), ?_⟩
  exact (hchunks 1 6 4 9 (by decide) (by decide) (by decide) (by decide)).2.2

end Source

namespace Cli.Positions

open Source

/-- What is known of a source that has read a content to its end. -/
theorem readAll_content (filename content : Bytes) {chunk : Int} (hchunk : 0 < chunk) :
    let src : Source Memory := { inner := { content }, filename }
    let r := src.readAll Memory.stream chunk (content.length + 1)
    r.error = none ∧ r.source.index.Full content ∧ r.source.scanned = content.length ∧
      r.source.position = content.length ∧ r.source.filename = filename := by
  have hcalm : Memory.Calm { content } := ⟨rfl, rfl, by simp, rfl⟩
  have hfull : Index.Full content ⟨#[], 0, 0⟩ := ⟨Index.exact_empty content, rfl⟩
  exact readAll_of_delivers (Memory.stream_delivers content) hchunk (content.length + 1)
    (p := 0) ⟨⟨⟨rfl, rfl⟩, hcalm⟩, rfl⟩ hfull (Int.le_refl 0) (by omega)

/-- What is shown of a content does not depend on the size of the chunks in which it is read, and
reading it never fails. -/
theorem ofContent_chunk (filename content : Bytes) {chunk chunk' : Int} (hchunk : 0 < chunk)
    (hchunk' : 0 < chunk') (offsets : List Int) :
    (ofContent filename content chunk offsets).error = none ∧
      (ofContent filename content chunk offsets).out =
        (ofContent filename content chunk' offsets).out := by
  have hstart : start Memory.stream filename { content } =
      .ok ({ inner := { content }, filename }, []) := rfl
  obtain ⟨herror, hfull, hend, hat, hname⟩ := readAll_content filename content hchunk
  obtain ⟨herror', hfull', hend', hat', hname'⟩ := readAll_content filename content hchunk'
  have hends := congrArg Index.lineEnds (hfull.ext hfull' (hend.trans hend'.symm))
  have hline (offset : Int) := location_congr (hname.trans hname'.symm) hends offset
  unfold ofContent
  rw [hstart]
  dsimp only
  rw [herror, herror']
  refine ⟨rfl, congrArg (List.flatMap · offsets) (funext fun offset ↦ ?_)⟩
  unfold line
  rw [hline, hat, hat']

end Cli.Positions

end GrammarCode
