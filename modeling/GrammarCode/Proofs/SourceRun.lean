import GrammarCode.Source.Basic
import GrammarCode.Source.Memory

/-!
# Runs of a source

A source is used by reading, repositioning and asking for the end, in any order. What it relies on
is a stream over fixed content: deliveries come from the content at the position of the stream, and
a seek moves there or fails without moving. Then the source always knows the position of its
stream, unless asking for the end took a byte that could not be put back.
-/

namespace GrammarCode

/-- The offset from which a seek counts, for a stream at position `p`. -/
def Whence.base (p : Nat) : Whence → Int
  | .start => 0
  | .current => p

/-- A stream over fixed content; `At s p` says that state `s` stands at position `p` of it. A read
may deliver as little as it likes and fail at any time, a seek may fail and then does not move. -/
structure Stream.Serves {σ : Type} (st : Stream σ) (content : Bytes) (At : σ → Nat → Prop) :
    Prop where
  read_bytes : ∀ s p n, At s p → (st.read s n).bytes <+: content.drop p
  read_next : ∀ s p n, At s p → At (st.read s n).next (p + (st.read s n).bytes.length)
  seek_ok : ∀ s p w offset q s', At s p → st.seek s w offset = (.ok q, s') →
    q = w.base p + offset ∧ 0 ≤ q ∧ At s' q.toNat
  seek_error : ∀ s p w offset e s', At s p → st.seek s w offset = (.error e, s') → At s' p

namespace Stream.Serves

variable {σ : Type} {st : Stream σ} {content : Bytes} {At : σ → Nat → Prop}

/-- Bytes that stand at a position, followed by those that stand behind them. -/
theorem prefix_append {xs ys : Bytes} {p : Nat} (hx : xs <+: content.drop p)
    (hy : ys <+: content.drop (p + xs.length)) : xs ++ ys <+: content.drop p := by
  obtain ⟨rest, hrest⟩ := hx
  rw [← List.drop_drop, ← hrest, List.drop_left] at hy
  rw [← hrest]
  exact (List.prefix_append_right_inj xs).mpr hy

/-- Gathering deliveries delivers from the content as well, and moves by what it delivers. -/
theorem gather (h : st.Serves content At) (calls wanted : Nat) (s : σ) (p : Nat) (hs : At s p) :
    (st.gather calls wanted s).bytes <+: content.drop p ∧
      At (st.gather calls wanted s).next (p + (st.gather calls wanted s).bytes.length) := by
  induction calls generalizing wanted s p with
  | zero =>
    unfold Stream.gather
    split <;> exact ⟨List.nil_prefix, hs⟩
  | succ k ih =>
    unfold Stream.gather
    split
    · exact ⟨List.nil_prefix, hs⟩
    · have hb := h.read_bytes s p wanted hs
      have hn := h.read_next s p wanted hs
      dsimp only
      split
      · exact ⟨hb, hn⟩
      · obtain ⟨hrb, hrn⟩ := ih (wanted - (st.read s wanted).bytes.length) _ _ hn
        refine ⟨prefix_append hb hrb, ?_⟩
        dsimp only
        rw [List.length_append, ← Nat.add_assoc]
        exact hrn

/-- So does reading an exact number of bytes. -/
theorem readFull (h : st.Serves content At) (wanted : Nat) (s : σ) (p : Nat) (hs : At s p) :
    (st.readFull wanted s).bytes <+: content.drop p ∧
      At (st.readFull wanted s).next (p + (st.readFull wanted s).bytes.length) := by
  have hg := h.gather (wanted + st.patience) wanted s p hs
  unfold Stream.readFull
  dsimp only
  split
  · exact hg
  · split <;> exact hg

end Stream.Serves

namespace Memory

/-- A read stays where it is with nothing, or moves by the bytes that it takes from there. -/
theorem read_cases (m : Memory) (n : Nat) :
    ((m.read n).bytes = [] ∧ (m.read n).next = m) ∨
      ∃ k, (m.read n).bytes = m.ahead k ∧
        (m.read n).next = { m with position := m.position + (m.ahead k).length } := by
  unfold read
  split
  · exact Or.inl ⟨rfl, rfl⟩
  · split
    · exact Or.inl ⟨rfl, rfl⟩
    · split
      · exact Or.inl ⟨rfl, rfl⟩
      · exact Or.inr ⟨m.allowance n, rfl, rfl⟩

/-- A seek goes to an offset that is not before the start, or fails without moving. -/
theorem seek_cases (m : Memory) (w : Whence) (offset : Int) (p : Nat) (hp : m.position = p) :
    (0 ≤ w.base p + offset ∧ ∃ seeks, m.seek w offset =
        (.ok (w.base p + offset), { m with seeks, position := w.base p + offset })) ∨
      ∃ e seeks, m.seek w offset = (.error e, { m with seeks }) := by
  unfold seek
  split
  · exact Or.inr ⟨_, m.seeks, rfl⟩
  · cases w with
    | start =>
      simp only [Whence.base, Int.zero_add]
      split
      · exact Or.inr ⟨_, _, rfl⟩
      · exact Or.inl ⟨by omega, _, rfl⟩
    | current =>
      simp only [Whence.base, hp]
      split
      · exact Or.inr ⟨_, _, rfl⟩
      · exact Or.inl ⟨by omega, _, rfl⟩

/-- A byte string with a position that is not before its start serves its content. -/
theorem stream_serves (content : Bytes) :
    stream.Serves content fun m p ↦ m.content = content ∧ m.position = (p : Int) := by
  constructor
  · rintro m p n ⟨rfl, hp⟩
    change (m.read n).bytes <+: _
    rcases m.read_cases n with ⟨hb, -⟩ | ⟨k, hb, -⟩
    · rw [hb]
      exact List.nil_prefix
    · rw [hb, ahead, hp, Int.toNat_natCast]
      exact List.take_prefix _ _
  · rintro m p n ⟨rfl, hp⟩
    change (m.read n).next.content = _ ∧
      (m.read n).next.position = ((p + (m.read n).bytes.length : Nat) : Int)
    rcases m.read_cases n with ⟨hb, hn⟩ | ⟨k, hb, hn⟩
    · rw [hb, hn]
      exact ⟨rfl, hp⟩
    · rw [hb, hn]
      exact ⟨rfl, by simp [hp]⟩
  · rintro m p w offset q m' ⟨rfl, hp⟩ h
    change m.seek w offset = _ at h
    rcases m.seek_cases w offset p hp with ⟨h0, seeks, hs⟩ | ⟨e, seeks, hs⟩
    · rw [hs] at h
      obtain ⟨hq, rfl⟩ := Prod.mk.inj h
      obtain rfl := Except.ok.inj hq
      exact ⟨rfl, h0, rfl, (Int.toNat_of_nonneg h0).symm⟩
    · rw [hs] at h
      cases h
  · rintro m p w offset e m' ⟨rfl, hp⟩ h
    change m.seek w offset = _ at h
    rcases m.seek_cases w offset p hp with ⟨h0, seeks, hs⟩ | ⟨e, seeks, hs⟩
    · rw [hs] at h
      cases h
    · rw [hs] at h
      obtain ⟨-, rfl⟩ := Prod.mk.inj h
      exact ⟨rfl, hp⟩

end Memory

namespace Source

variable {σ : Type}

/-! ### The index of a source -/

/-- What a source knows about line ends: their offsets, the offset up to which bytes were examined,
and the end of the part that was read without a gap. -/
structure Index where
  lineEnds : Array Int
  scanned : Int
  contiguous : Int

/-- The index of a source. -/
def index (src : Source σ) : Index := ⟨src.lineEnds, src.scanned, src.contiguous⟩

/-- Takes bytes at an offset into an index. -/
def Index.scan (ix : Index) (offset : Int) (bytes : Bytes) : Index :=
  if offset + bytes.length ≤ ix.scanned then ix
  else
    let known := (ix.scanned - offset).toNat
    { lineEnds := ix.lineEnds ++ (lineEndsOf (offset + known) (bytes.drop known)).toArray
      contiguous :=
        if ix.contiguous = ix.scanned && offset ≤ ix.contiguous then offset + bytes.length
        else ix.contiguous
      scanned := offset + bytes.length }

/-- Scanning moves the mark to the end of the bytes, unless it is there already. -/
theorem Index.scanned_scan (ix : Index) (offset : Int) (bytes : Bytes) :
    (ix.scan offset bytes).scanned = max ix.scanned (offset + bytes.length) := by
  unfold Index.scan
  split
  · next h => rw [Int.max_eq_left h]
  · next h => rw [Int.max_eq_right (by omega)]

/-- Scanning changes the index and nothing else of a source. -/
theorem scan_eq (src : Source σ) (offset : Int) (bytes : Bytes) :
    (src.scan offset bytes).1.index = src.index.scan offset bytes ∧
      (src.scan offset bytes).1.inner = src.inner ∧
      (src.scan offset bytes).1.position = src.position := by
  unfold scan Index.scan
  by_cases h : offset + bytes.length ≤ src.scanned
  · rw [if_pos h, if_pos (show _ ≤ src.index.scanned from h)]
    exact ⟨rfl, rfl, rfl⟩
  · rw [if_neg h, if_neg (show ¬ _ ≤ src.index.scanned from h)]
    exact ⟨rfl, rfl, rfl⟩

/-! ### What the calls do -/

/-- A source knows that its stream stands at position `p`. -/
def Tracks (At : σ → Nat → Prop) (src : Source σ) (p : Nat) : Prop :=
  At src.inner p ∧ src.position = (p : Int)

variable {st : Stream σ} {content : Bytes} {At : σ → Nat → Prop}

/-- A source starts where its stream stands, with nothing examined. -/
theorem start_eq (hst : st.Serves content At) {filename : Bytes} {s : σ} {p : Nat} (hs : At s p)
    {src : Source σ} {events : List Log.Event} (h : start st filename s = .ok (src, events)) :
    src.Tracks At p ∧ src.index = ⟨#[], 0, 0⟩ := by
  unfold start at h
  split at h
  · cases h
  · next position s' hseek =>
    obtain ⟨hq, -, hat⟩ := hst.seek_ok s p .current 0 position s' hs hseek
    obtain ⟨rfl, -⟩ := Prod.mk.inj (Except.ok.inj h)
    rw [Whence.base, Int.add_zero] at hq
    subst hq
    rw [Int.toNat_natCast] at hat
    exact ⟨⟨hat, rfl⟩, rfl⟩

/-- Whatever error comes with the bytes, the source after a read is the one that scanned them. -/
theorem read_fields (st : Stream σ) (src : Source σ) (n : Int) (hn : 0 < n) :
    (src.read st n).value = (st.readFull n.toNat src.inner).bytes ∧
      (src.read st n).source.inner = (st.readFull n.toNat src.inner).next ∧
      (src.read st n).source.position =
        src.position + (st.readFull n.toNat src.inner).bytes.length ∧
      (src.read st n).source.index =
        src.index.scan src.position (st.readFull n.toNat src.inner).bytes := by
  obtain ⟨hix, hin, hpos⟩ := scan_eq
    { src with
      inner := (st.readFull n.toNat src.inner).next
      position := src.position + (st.readFull n.toNat src.inner).bytes.length }
    src.position (st.readFull n.toNat src.inner).bytes
  unfold read
  rw [if_neg (by omega)]
  dsimp only
  split <;> exact ⟨rfl, hin, hpos, hix⟩

/-- A read takes what it returns from the content at its position into the index, and moves by it;
a failure changes nothing about that. -/
theorem read_eq (hst : st.Serves content At) {src : Source σ} {p : Nat} (hp : src.Tracks At p)
    (n : Int) :
    (src.read st n).value <+: content.drop p ∧
      (src.read st n).source.Tracks At (p + (src.read st n).value.length) ∧
      (src.read st n).source.index =
        if 0 < n then src.index.scan p (src.read st n).value else src.index := by
  by_cases hn : 0 < n
  · obtain ⟨hb, hat⟩ := hst.readFull n.toNat src.inner p hp.1
    obtain ⟨hvalue, hinner, hposition, hindex⟩ := read_fields st src n hn
    rw [if_pos hn, hvalue]
    refine ⟨hb, ⟨?_, ?_⟩, ?_⟩
    · rw [hinner]
      exact hat
    · rw [hposition, hp.2, Int.natCast_add]
    · rw [hindex, hp.2]
  · rw [if_neg hn, read, if_pos (by omega)]
    exact ⟨List.nil_prefix, hp, rfl⟩

/-- Repositioning leaves the index alone. -/
theorem setPosition_eq (hst : st.Serves content At) {src : Source σ} {p : Nat}
    (hp : src.Tracks At p) (offset : Int) :
    (src.setPosition st offset).source.index = src.index ∧
      ∃ q, (src.setPosition st offset).source.Tracks At q := by
  unfold setPosition
  split
  · next position s' hseek =>
    obtain ⟨-, h0, hat⟩ := hst.seek_ok src.inner p .start offset position s' hp.1 hseek
    exact ⟨rfl, position.toNat, hat, (Int.toNat_of_nonneg h0).symm⟩
  · next e s' hseek =>
    exact ⟨rfl, p, hst.seek_error src.inner p .start offset e s' hp.1 hseek, hp.2⟩

/-- Asking for the end leaves the index alone, and the position as well unless it strands a byte. -/
theorem atEnd_eq (hst : st.Serves content At) {src : Source σ} {p : Nat} (hp : src.Tracks At p)
    (h : (!(st.read src.inner 1).bytes.isEmpty && (src.atEnd st).error.isSome) = false) :
    (src.atEnd st).source.index = src.index ∧ (src.atEnd st).source.Tracks At p := by
  have hn := hst.read_next src.inner p 1 hp.1
  unfold atEnd at h ⊢
  dsimp only at h ⊢
  split
  · next hempty =>
    rw [List.isEmpty_iff] at hempty
    rw [hempty, List.length_nil, Nat.add_zero] at hn
    split <;> exact ⟨rfl, hn, hp.2⟩
  · next hempty =>
    rw [if_neg hempty] at h
    split
    · next position s' hseek =>
      obtain ⟨hq, -, hat⟩ := hst.seek_ok _ _ .current _ position s' hn hseek
      have hback : position.toNat = p := by
        rw [hq, Whence.base]
        omega
      rw [hback] at hat
      exact ⟨rfl, hat, hp.2⟩
    · next e s' hseek =>
      rw [hseek] at h
      simp [hempty] at h

/-- The calls that use a source. -/
inductive Call where
  | read (n : Int)
  | setPosition (offset : Int)
  | atEnd
  deriving DecidableEq, Repr

/-- The source after a call, whether the call fails or not. -/
def step (st : Stream σ) (src : Source σ) : Call → Source σ
  | .read n => (src.read st n).source
  | .setPosition offset => (src.setPosition st offset).source
  | .atEnd => (src.atEnd st).source

/-- The source after calls in order. -/
def run (st : Stream σ) (src : Source σ) (calls : List Call) : Source σ :=
  calls.foldl (step st) src

/-- Whether a call is one for the end that takes a byte and fails to put it back. -/
def strands (st : Stream σ) (src : Source σ) : Call → Bool
  | .atEnd => !(st.read src.inner 1).bytes.isEmpty && (src.atEnd st).error.isSome
  | _ => false

/-- No call of a run takes a byte and fails to put it back. -/
def Steady (st : Stream σ) (src : Source σ) : List Call → Prop
  | [] => True
  | c :: rest => src.strands st c = false ∧ Steady st (src.step st c) rest

/-- What a call does to the index: nothing, or it scans bytes of the content at the position of the
stream. The source goes on tracking its stream. -/
theorem step_cases (hst : st.Serves content At) {src : Source σ} {p : Nat} (hp : src.Tracks At p)
    (c : Call) (hc : src.strands st c = false) :
    (∃ q, (src.step st c).Tracks At q) ∧
      ((src.step st c).index = src.index ∨ ∃ bytes, bytes <+: content.drop p ∧
        (src.step st c).index = src.index.scan p bytes) := by
  cases c with
  | read n =>
    obtain ⟨hb, ht, hix⟩ := read_eq hst hp n
    refine ⟨⟨_, ht⟩, ?_⟩
    by_cases hn : 0 < n
    · rw [if_pos hn] at hix
      exact Or.inr ⟨_, hb, hix⟩
    · rw [if_neg hn] at hix
      exact Or.inl hix
  | setPosition offset =>
    obtain ⟨hix, ht⟩ := setPosition_eq hst hp offset
    exact ⟨ht, Or.inl hix⟩
  | atEnd =>
    obtain ⟨hix, ht⟩ := atEnd_eq hst hp hc
    exact ⟨⟨p, ht⟩, Or.inl hix⟩

/-- What a run keeps if every call that strands no byte keeps it. -/
theorem run_induction {st : Stream σ} {motive : Source σ → Prop}
    (hstep : ∀ src c, motive src → src.strands st c = false → motive (src.step st c))
    (src : Source σ) (calls : List Call) (h : motive src) (hc : Steady st src calls) :
    motive (src.run st calls) := by
  induction calls generalizing src with
  | nil => exact h
  | cons c rest ih => exact ih (src.step st c) (hstep src c h hc.1) hc.2

/-- What the empty index has and scanning keeps, the index has after every run that strands no
byte. -/
theorem index_run_induction {motive : Index → Prop} (hst : st.Serves content At)
    {filename : Bytes} {s : σ} {p : Nat} (hs : At s p) {src : Source σ} {events : List Log.Event}
    (hsrc : start st filename s = .ok (src, events)) (hempty : motive ⟨#[], 0, 0⟩)
    (hscan : ∀ (ix : Index) (p : Nat) (bytes : Bytes), motive ix → bytes <+: content.drop p →
      motive (ix.scan p bytes))
    (calls : List Call) (hcalls : Steady st src calls) : motive (src.run st calls).index := by
  have hrun : (∃ q, (src.run st calls).Tracks At q) ∧ motive (src.run st calls).index := by
    apply run_induction (motive := fun src ↦ (∃ q, src.Tracks At q) ∧ motive src.index)
      _ src calls _ hcalls
    · rintro src c ⟨⟨q, hq⟩, hindex⟩ hc
      obtain ⟨htracks, hstep⟩ := step_cases hst hq c hc
      refine ⟨htracks, ?_⟩
      rcases hstep with hstep | ⟨bytes, hb, hstep⟩
      · rw [hstep]
        exact hindex
      · rw [hstep]
        exact hscan _ q bytes hindex hb
    · obtain ⟨htracks, hindex⟩ := start_eq hst hs hsrc
      rw [hindex]
      exact ⟨⟨p, htracks⟩, hempty⟩
  exact hrun.2

end Source

end GrammarCode
