import GrammarCode.Proofs.SourceRun

/-!
# The position of the stream

A source and its stream each have a position. A read moves both by what comes, whether it fails or
not, and repositioning moves both or neither. Asking for the end takes a byte and puts it back;
where that fails, the stream stays ahead by what it took, until a repositioning works again. So the
two positions agree all along a run exactly if no call for the end fails to put back what it took.
-/

namespace GrammarCode

/-- A stream with a position of its own, whatever it delivers: a read moves it by the bytes that
come, with or without an error, a seek that succeeds tells where it went, and one that fails does
not move it. -/
structure Stream.Positioned {σ : Type} (st : Stream σ) (own : σ → Int) : Prop where
  read_next : ∀ s n, own (st.read s n).next = own s + (st.read s n).bytes.length
  seek_start : ∀ s offset q s', st.seek s .start offset = (.ok q, s') → own s' = q
  seek_current : ∀ s offset q s', st.seek s .current offset = (.ok q, s') →
    q = own s + offset ∧ own s' = q
  seek_error : ∀ s w offset e s', st.seek s w offset = (.error e, s') → own s' = own s

namespace Stream.Positioned

variable {σ : Type} {st : Stream σ} {own : σ → Int}

/-- Gathering deliveries moves by what they bring. -/
theorem gather_next (h : st.Positioned own) (calls wanted : Nat) (s : σ) :
    own (st.gather calls wanted s).next = own s + (st.gather calls wanted s).bytes.length := by
  induction calls generalizing wanted s with
  | zero =>
    unfold Stream.gather
    split <;> simp
  | succ k ih =>
    unfold Stream.gather
    split
    · simp
    · dsimp only
      split
      · exact h.read_next s wanted
      · have hrest := ih (wanted - (st.read s wanted).bytes.length) (st.read s wanted).next
        rw [h.read_next s wanted] at hrest
        dsimp only
        rw [List.length_append, Int.natCast_add]
        omega

/-- So does reading an exact number of bytes. -/
theorem readFull_next (h : st.Positioned own) (wanted : Nat) (s : σ) :
    own (st.readFull wanted s).next = own s + (st.readFull wanted s).bytes.length := by
  have hgather := h.gather_next (wanted + st.patience) wanted s
  unfold Stream.readFull
  dsimp only
  split
  · exact hgather
  · split <;> exact hgather

end Stream.Positioned

namespace Memory

-- A seek moves to the offset that it gives, or fails where it is.
private theorem seek_moves (m : Memory) (w : Whence) (offset : Int) :
    (∃ e m', m.seek w offset = (.error e, m') ∧ m'.position = m.position) ∨
      ∃ m', m.seek w offset = (.ok m'.position, m') ∧
        m'.position = match w with | .start => offset | .current => m.position + offset := by
  unfold seek
  split
  · exact Or.inl ⟨_, m, rfl, rfl⟩
  · cases w with
    | start =>
      dsimp only
      split
      · exact Or.inl ⟨_, _, rfl, rfl⟩
      · exact Or.inr ⟨{ m with seeks := m.seeks.map (· - 1), position := offset }, rfl, rfl⟩
    | current =>
      dsimp only
      split
      · exact Or.inl ⟨_, _, rfl, rfl⟩
      · exact Or.inr
          ⟨{ m with seeks := m.seeks.map (· - 1), position := m.position + offset }, rfl, rfl⟩

/-- A byte string has a position of its own, also with all the faults that it can show. -/
theorem stream_positioned : stream.Positioned Memory.position where
  read_next m n := by
    change (m.read n).next.position = m.position + (m.read n).bytes.length
    rcases m.read_cases n with ⟨hbytes, hnext⟩ | ⟨k, hbytes, hnext⟩
    · rw [hbytes, hnext]
      simp
    · rw [hbytes, hnext]
  seek_start m offset q m' h := by
    change m.seek .start offset = _ at h
    rcases m.seek_moves .start offset with ⟨e, m'', hseek, -⟩ | ⟨m'', hseek, -⟩
    · simp [hseek] at h
    · obtain ⟨hq, rfl⟩ := Prod.mk.inj (hseek.symm.trans h)
      exact Except.ok.inj hq
  seek_current m offset q m' h := by
    change m.seek .current offset = _ at h
    rcases m.seek_moves .current offset with ⟨e, m'', hseek, -⟩ | ⟨m'', hseek, hmoved⟩
    · simp [hseek] at h
    · obtain ⟨hq, rfl⟩ := Prod.mk.inj (hseek.symm.trans h)
      obtain rfl := Except.ok.inj hq
      exact ⟨hmoved, rfl⟩
  seek_error m w offset e m' h := by
    change m.seek w offset = _ at h
    rcases m.seek_moves w offset with ⟨e', m'', hseek, hstays⟩ | ⟨m'', hseek, -⟩
    · obtain ⟨-, rfl⟩ := Prod.mk.inj (hseek.symm.trans h)
      exact hstays
    · simp [hseek] at h

end Memory

namespace Source

variable {σ : Type} {st : Stream σ} {own : σ → Int}

/-! ### How far the stream is ahead -/

/-- How many bytes a call for the end takes without putting them back. -/
def stranded (st : Stream σ) (src : Source σ) : Nat :=
  if src.strands st .atEnd then (st.read src.inner 1).bytes.length else 0

/-- How far the stream is ahead of its source after a call, if it was ahead before. -/
def leadStep (st : Stream σ) (src : Source σ) (ahead : Nat) : Call → Nat
  | .read _ => ahead
  | .setPosition offset => if (src.setPosition st offset).error.isSome then ahead else 0
  | .atEnd => ahead + src.stranded st

/-- How far the stream is ahead of its source after calls in order. -/
def lead (st : Stream σ) (src : Source σ) (ahead : Nat) : List Call → Nat
  | [] => ahead
  | c :: rest => lead st (src.step st c) (src.leadStep st ahead c) rest

/-- Bytes are stranded exactly if the call strands: it takes one at least. -/
theorem stranded_eq_zero_iff (st : Stream σ) (src : Source σ) :
    src.stranded st = 0 ↔ src.strands st .atEnd = false := by
  unfold stranded
  cases h : src.strands st .atEnd with
  | false => simp
  | true =>
    rw [strands, Bool.and_eq_true, Bool.not_eq_true', List.isEmpty_eq_false_iff] at h
    simp [h.1]

-- What a call for the end can do: nothing comes, or what comes is put back, or it is not.
private theorem atEnd_cases (st : Stream σ) (src : Source σ) :
    let d := st.read src.inner 1
    (d.bytes = [] ∧ src.stranded st = 0 ∧
      (src.atEnd st).source = { src with inner := d.next }) ∨
    (∃ q s', st.seek d.next .current (-(d.bytes.length : Int)) = (.ok q, s') ∧
      src.stranded st = 0 ∧ (src.atEnd st).source = { src with inner := s' }) ∨
    ∃ e s', st.seek d.next .current (-(d.bytes.length : Int)) = (.error e, s') ∧
      src.stranded st = d.bytes.length ∧ (src.atEnd st).source = { src with inner := s' } := by
  intro d
  by_cases hempty : d.bytes.isEmpty = true
  · refine Or.inl ⟨List.isEmpty_iff.mp hempty, ?_, ?_⟩
    · rw [stranded_eq_zero_iff, strands, hempty]
      rfl
    · unfold atEnd
      dsimp only
      rw [if_pos hempty]
      split <;> rfl
  · have hstrands : src.strands st .atEnd = (src.atEnd st).error.isSome := by
      rw [strands, (Bool.not_eq_true _).mp hempty]
      rfl
    rcases hseek : st.seek d.next .current (-(d.bytes.length : Int)) with ⟨e | q, s'⟩
    · have hat : src.atEnd st =
          { source := { src with inner := s' }, value := false, error := some e } := by
        rw [atEnd, if_neg hempty, hseek]
      refine Or.inr (Or.inr ⟨e, s', rfl, ?_, by rw [hat]⟩)
      rw [stranded, hstrands, hat]
      rfl
    · have hat : src.atEnd st = { source := { src with inner := s' }, value := false } := by
        rw [atEnd, if_neg hempty, hseek]
      refine Or.inr (Or.inl ⟨q, s', rfl, ?_, by rw [hat]⟩)
      rw [stranded, hstrands, hat]
      rfl

/-- Asking for the end moves the stream by what is stranded, and leaves the source's position. -/
theorem atEnd_moves (hst : st.Positioned own) (src : Source σ) :
    own (src.atEnd st).source.inner = own src.inner + src.stranded st ∧
      (src.atEnd st).source.position = src.position := by
  have hnext := hst.read_next src.inner 1
  obtain ⟨hempty, hnone, hsource⟩ | ⟨q, s', hseek, hnone, hsource⟩ |
    ⟨e, s', hseek, hall, hsource⟩ := atEnd_cases st src
  · rw [hsource, hnone]
    refine ⟨?_, rfl⟩
    rw [hempty, List.length_nil] at hnext
    exact hnext
  · obtain ⟨hq, hown⟩ := hst.seek_current _ _ q s' hseek
    rw [hsource, hnone]
    refine ⟨?_, rfl⟩
    rw [hown, hq, hnext]
    omega
  · have hown := hst.seek_error _ _ _ e s' hseek
    rw [hsource, hall]
    exact ⟨hown.trans hnext, rfl⟩

/-- One call moves the stream's lead as `leadStep` says. -/
theorem own_step (hst : st.Positioned own) {src : Source σ} {ahead : Nat}
    (h : own src.inner = src.position + ahead) (c : Call) :
    own (src.step st c).inner = (src.step st c).position + src.leadStep st ahead c := by
  cases c with
  | read n =>
    rw [step, leadStep]
    by_cases hn : 0 < n
    · obtain ⟨-, hinner, hposition, -⟩ := read_fields st src n hn
      have hnext := hst.readFull_next n.toNat src.inner
      rw [hinner, hposition]
      omega
    · rw [read, if_pos (by omega)]
      exact h
  | setPosition offset =>
    rw [step, leadStep]
    unfold setPosition
    split
    · next q s' hseek =>
      have hown := hst.seek_start _ _ q s' hseek
      simpa using hown
    · next e s' hseek =>
      have hown := hst.seek_error _ _ _ e s' hseek
      simpa [hown] using h
  | atEnd =>
    obtain ⟨hown, hposition⟩ := atEnd_moves hst src
    rw [step, leadStep, hown, hposition, h]
    omega

/-- Through a whole run the stream is ahead by what was stranded since the last repositioning that
worked. -/
theorem own_run (hst : st.Positioned own) {src : Source σ} {ahead : Nat}
    (h : own src.inner = src.position + ahead) (calls : List Call) :
    own (src.run st calls).inner = (src.run st calls).position + lead st src ahead calls := by
  induction calls generalizing src ahead with
  | nil => exact h
  | cons c rest ih => exact ih (own_step hst h c)

/-- From a source in step, a call keeps it in step exactly if it strands nothing. -/
theorem leadStep_zero_iff (st : Stream σ) (src : Source σ) (c : Call) :
    src.leadStep st 0 c = 0 ↔ src.strands st c = false := by
  cases c with
  | read n => simp [leadStep, strands]
  | setPosition offset => simp [leadStep, strands]
  | atEnd => rw [leadStep, Nat.zero_add, stranded_eq_zero_iff]

/-- The lead is zero all along a run exactly if no call strands a byte. -/
theorem forall_lead_eq_zero_iff (st : Stream σ) (src : Source σ) (calls : List Call) :
    (∀ before after, calls = before ++ after → lead st src 0 before = 0) ↔
      Steady st src calls := by
  induction calls generalizing src with
  | nil =>
    refine ⟨fun _ ↦ trivial, fun _ before after h ↦ ?_⟩
    obtain ⟨rfl, -⟩ := List.append_eq_nil_iff.mp h.symm
    rfl
  | cons c rest ih =>
    rw [Steady, ← leadStep_zero_iff, ← ih]
    constructor
    · intro h
      have hstep : src.leadStep st 0 c = 0 := h [c] rest rfl
      refine ⟨hstep, ?_⟩
      rintro before after rfl
      have hall := h (c :: before) after rfl
      rwa [lead, hstep] at hall
    · rintro ⟨hstep, hrest⟩ before after h
      cases before with
      | nil => rfl
      | cons c' before =>
        obtain ⟨rfl, rfl⟩ := List.cons.inj h
        rw [lead, hstep]
        exact hrest before after rfl

/-- A source starts in step with its stream. -/
theorem own_start (hst : st.Positioned own) {filename : Bytes} {s : σ} {src : Source σ}
    {events : List Log.Event} (h : start st filename s = .ok (src, events)) :
    own src.inner = src.position := by
  unfold start at h
  split at h
  · cases h
  · next position s' hseek =>
    obtain ⟨rfl, -⟩ := Prod.mk.inj (Except.ok.inj h)
    exact (hst.seek_current _ _ position s' hseek).2

/-- Over any stream, whatever fails when, the position of a source is that of its stream after every
call of a run exactly if no call for the end takes a byte and fails to put it back. Each such call
leaves the stream ahead by what it took, until a repositioning works; in any run the lead is
exactly that. A read takes what it returns into the index at the stream's position less the lead, so
at its true offset as long as nothing is stranded, and a call for the end moves the stream by what
it strands and by nothing else. -/
theorem position_eq_own_iff (st : Stream σ) (own : σ → Int) (hst : st.Positioned own)
    (filename : Bytes) (s : σ) (src : Source σ) (events : List Log.Event)
    (hsrc : start st filename s = .ok (src, events)) (calls : List Call) :
    ((∀ before after, calls = before ++ after →
        (src.run st before).position = own (src.run st before).inner) ↔
      Steady st src calls) ∧
    own (src.run st calls).inner = (src.run st calls).position + lead st src 0 calls ∧
    (∀ before n after, calls = before ++ .read n :: after → 0 < n →
      ((src.run st before).read st n).source.index =
        (src.run st before).index.scan (own (src.run st before).inner - lead st src 0 before)
          ((src.run st before).read st n).value) ∧
    ∀ before after, calls = before ++ .atEnd :: after →
      own ((src.run st before).atEnd st).source.inner =
          own (src.run st before).inner + (src.run st before).stranded st ∧
        ((src.run st before).stranded st = 0 ↔ (src.run st before).strands st .atEnd = false) := by
  have hstart : own src.inner = src.position + (0 : Nat) := by
    rw [own_start hst hsrc]
    simp
  have hrun (before : List Call) := own_run hst hstart before
  refine ⟨?_, hrun calls, ?_, ?_⟩
  · rw [← forall_lead_eq_zero_iff]
    refine forall₃_congr fun before after _ ↦ ?_
    have := hrun before
    omega
  · rintro before n after - hn
    obtain ⟨hvalue, -, -, hindex⟩ := read_fields st (src.run st before) n hn
    have hoffset : own (src.run st before).inner - lead st src 0 before =
        (src.run st before).position := by
      have := hrun before
      omega
    rw [hindex, hvalue, hoffset]
  · rintro before after -
    exact ⟨(atEnd_moves hst _).1, stranded_eq_zero_iff st _⟩

/-- Two bytes at a time at most, a failure from offset three on and four seeks in all: a byte put
back, a seek before the start, a read cut by the failure, a call for the end that fails without a
byte, and a seek that is refused. -/
theorem position_eq_own_failing :
    let memory : Memory :=
      { content := [0x61, 0x0A, 0x62, 0x0A], most := some 2, seeks := some 4
        failing := some (3, .failure "broken") }
    let src : Source Memory := { inner := { memory with seeks := some 3 } }
    let calls : List Call := [.read 2, .atEnd, .setPosition (-1), .read 9, .atEnd, .setPosition 0,
      .setPosition 1, .read 1]
    start Memory.stream [] memory = .ok (src, []) ∧ Steady Memory.stream src calls ∧
      (src.run Memory.stream calls).position = 1 ∧
      (src.run Memory.stream calls).inner.position = 1 := by
  intro memory src calls
  have hsteady : Steady Memory.stream src calls :=
    ⟨rfl, by decide, rfl, rfl, by decide, rfl, rfl, rfl, trivial⟩
  have hposition : (src.run Memory.stream calls).position = 1 := by decide
  have hown := (position_eq_own_iff Memory.stream Memory.position Memory.stream_positioned []
    memory src [] rfl calls).1.mpr hsteady calls [] (List.append_nil calls).symm
  exact ⟨rfl, hsteady, hposition, hown.symm.trans hposition⟩

/-- A stream on which the first seek works and no other: asking for the end takes the first byte
for good, the source does not notice, and the newline that is read next is taken for the byte at
offset zero. -/
theorem position_ne_own_stranded :
    let memory : Memory := { content := [0x61, 0x0A, 0x62], seeks := some 1 }
    let src : Source Memory := { inner := { memory with seeks := some 0 } }
    start Memory.stream [] memory = .ok (src, []) ∧
      (src.atEnd Memory.stream).error = some (.failure "seek failed") ∧
      (src.run Memory.stream [.atEnd]).position = 0 ∧
      (src.run Memory.stream [.atEnd]).inner.position = 1 ∧
      ((src.run Memory.stream [.atEnd]).read Memory.stream 1).value = [0x0A] ∧
      (src.run Memory.stream [.atEnd, .read 1]).lineEnds = #[1] := by
  refine ⟨rfl, rfl, rfl, rfl, ?_, ?_⟩ <;> decide

end Source

end GrammarCode
