import GrammarCode.Proofs.SourceRun

/-!
# What a read reports

A read of a source is made of deliveries of its stream, one after the other, until enough bytes are
there or the stream reports an error. What the read returns is told by these deliveries: their
bytes, and the reported error if it came before the last byte asked for. The end of the input is not
passed on but noted. A stream that itself reports an unexpected end is taken to have ended as well,
since that is also how an end after some bytes is told.
-/

namespace GrammarCode

/-! ### Deliveries -/

/-- Whether an error tells that the input is at its end, expected there or not. -/
def StreamError.isEnd : StreamError → Bool
  | .endOfInput => true
  | .unexpectedEnd => true
  | .noProgress => false
  | .failure _ => false

theorem StreamError.isEnd_iff {e : StreamError} :
    e.isEnd = true ↔ e = .endOfInput ∨ e = .unexpectedEnd := by
  cases e <;> simp [isEnd]

/-- Nothing came, and the stream did not say why. -/
def Delivery.isIdle {σ : Type} (d : Delivery σ) : Bool := d.bytes.isEmpty && d.error.isNone

namespace Stream

variable {σ : Type}

/-- The deliveries that are gathered for `wanted` bytes, in order. -/
def deliveries (st : Stream σ) (calls wanted : Nat) (s : σ) : List (Delivery σ) :=
  if wanted = 0 then []
  else
    match calls with
    | 0 => []
    | k + 1 =>
      let d := st.read s wanted
      match d.error with
      | some _ => [d]
      | none => d :: deliveries st k (wanted - d.bytes.length) d.next

/-- The deliveries of a read of an exact number of bytes. -/
def readDeliveries (st : Stream σ) (wanted : Nat) (s : σ) : List (Delivery σ) :=
  st.deliveries (wanted + st.patience) wanted s

/-- The error that a stream reported with one of its deliveries, if it did. -/
def reported (ds : List (Delivery σ)) : Option StreamError := ds.findSome? Delivery.error

/-- The contract of a reader: no more bytes come than were asked for. -/
def Obeys (st : Stream σ) : Prop := ∀ s n, (st.read s n).bytes.length ≤ n

/-! One call at a time: nothing is wanted, no call is left, an error comes, or the rest does. -/

section Unfolding

variable (st : Stream σ) {calls wanted : Nat} (s : σ)

theorem gather_of_zero : st.gather calls 0 s = ⟨[], none, s⟩ := by
  cases calls <;> simp [gather]

theorem deliveries_of_zero : st.deliveries calls 0 s = [] := by
  cases calls <;> simp [deliveries]

theorem gather_of_no_call (h : wanted ≠ 0) : st.gather 0 wanted s = ⟨[], some .noProgress, s⟩ := by
  rw [gather, if_neg h]

theorem deliveries_of_no_call : st.deliveries 0 wanted s = [] := by
  simp [deliveries]

theorem gather_of_error (h : wanted ≠ 0) {e : StreamError}
    (he : (st.read s wanted).error = some e) :
    st.gather (calls + 1) wanted s = st.read s wanted := by
  rw [gather, if_neg h]
  dsimp only
  rw [he]
  dsimp only
  rw [← he]

theorem deliveries_of_error (h : wanted ≠ 0) {e : StreamError}
    (he : (st.read s wanted).error = some e) :
    st.deliveries (calls + 1) wanted s = [st.read s wanted] := by
  rw [deliveries, if_neg h]
  dsimp only
  rw [he]

theorem gather_of_none (h : wanted ≠ 0) (he : (st.read s wanted).error = none) :
    st.gather (calls + 1) wanted s =
      let d := st.read s wanted
      let rest := st.gather calls (wanted - d.bytes.length) d.next
      { rest with bytes := d.bytes ++ rest.bytes } := by
  rw [gather, if_neg h]
  dsimp only
  rw [he]

theorem deliveries_of_none (h : wanted ≠ 0) (he : (st.read s wanted).error = none) :
    st.deliveries (calls + 1) wanted s =
      let d := st.read s wanted
      d :: st.deliveries calls (wanted - d.bytes.length) d.next := by
  rw [deliveries, if_neg h]
  dsimp only
  rw [he]

end Unfolding

/-- What is gathered are the bytes of the deliveries. -/
theorem gather_bytes (st : Stream σ) (calls wanted : Nat) (s : σ) :
    (st.gather calls wanted s).bytes = (st.deliveries calls wanted s).flatMap Delivery.bytes := by
  induction calls generalizing wanted s with
  | zero =>
    by_cases h : wanted = 0
    · rw [h, gather_of_zero, deliveries_of_zero, List.flatMap_nil]
    · rw [gather_of_no_call st s h, deliveries_of_no_call, List.flatMap_nil]
  | succ k ih =>
    by_cases h : wanted = 0
    · rw [h, gather_of_zero, deliveries_of_zero, List.flatMap_nil]
    · cases he : (st.read s wanted).error with
      | some e =>
        rw [gather_of_error st s h he, deliveries_of_error st s h he, List.flatMap_singleton]
      | none =>
        rw [gather_of_none st s h he, deliveries_of_none st s h he, List.flatMap_cons, ← ih]

/-- Gathering stops with the error that the stream reports; without one it goes on until enough is
there or its calls are used up. -/
theorem gather_error (st : Stream σ) (calls wanted : Nat) (s : σ) :
    (st.gather calls wanted s).error =
      (reported (st.deliveries calls wanted s)).or
        (if wanted ≤ (st.gather calls wanted s).bytes.length then none else some .noProgress) := by
  induction calls generalizing wanted s with
  | zero =>
    by_cases h : wanted = 0
    · simp [h, gather_of_zero, deliveries_of_zero, reported]
    · simp [h, gather_of_no_call, deliveries_of_no_call, reported]
  | succ k ih =>
    by_cases h : wanted = 0
    · simp [h, gather_of_zero, deliveries_of_zero, reported]
    · cases he : (st.read s wanted).error with
      | some e => simp [gather_of_error st s h he, deliveries_of_error st s h he, reported, he]
      | none =>
        have hrest := ih (wanted - (st.read s wanted).bytes.length) (st.read s wanted).next
        rw [gather_of_none st s h he, deliveries_of_none st s h he]
        simpa [reported, he, Nat.sub_le_iff_le_add, Nat.add_comm] using hrest

/-- No more bytes are gathered than were wanted. -/
theorem Obeys.length_gather_le {st : Stream σ} (hst : st.Obeys) (calls wanted : Nat) (s : σ) :
    (st.gather calls wanted s).bytes.length ≤ wanted := by
  induction calls generalizing wanted s with
  | zero =>
    by_cases h : wanted = 0
    · simp [h, gather_of_zero]
    · simp [h, gather_of_no_call]
  | succ k ih =>
    by_cases h : wanted = 0
    · simp [h, gather_of_zero]
    · have hlength := hst s wanted
      cases he : (st.read s wanted).error with
      | some e =>
        rw [gather_of_error st s h he]
        exact hlength
      | none =>
        have hrest := ih (wanted - (st.read s wanted).bytes.length) (st.read s wanted).next
        rw [gather_of_none st s h he]
        dsimp only
        rw [List.length_append]
        omega

/-- Calls are used up by bytes and by idle deliveries only. -/
theorem calls_le_of_short (st : Stream σ) (calls wanted : Nat) (s : σ)
    (hnone : reported (st.deliveries calls wanted s) = none)
    (hshort : (st.gather calls wanted s).bytes.length < wanted) :
    calls ≤ (st.gather calls wanted s).bytes.length +
      (st.deliveries calls wanted s).countP Delivery.isIdle := by
  induction calls generalizing wanted s with
  | zero => exact Nat.zero_le _
  | succ k ih =>
    have h : wanted ≠ 0 := by omega
    cases he : (st.read s wanted).error with
    | some e =>
      rw [deliveries_of_error st s h he] at hnone
      simp [reported, he] at hnone
    | none =>
      rw [gather_of_none st s h he] at hshort ⊢
      rw [deliveries_of_none st s h he] at hnone ⊢
      dsimp only at hshort ⊢
      rw [List.length_append] at hshort ⊢
      have hrest := ih (wanted - (st.read s wanted).bytes.length) (st.read s wanted).next
        (by simpa [reported, he] using hnone) (by omega)
      -- A delivery without a reason is idle unless it brings a byte.
      have hone : 1 ≤ (st.read s wanted).bytes.length +
          if (st.read s wanted).isIdle = true then 1 else 0 := by
        cases hbytes : (st.read s wanted).bytes with
        | nil => simp [Delivery.isIdle, hbytes, he]
        | cons b rest => exact Nat.le_add_right_of_le (Nat.succ_pos rest.length)
      rw [List.countP_cons]
      omega

/-- A read of an exact number of bytes gives those of its deliveries. -/
theorem readFull_bytes (st : Stream σ) (wanted : Nat) (s : σ) :
    (st.readFull wanted s).bytes = (st.readDeliveries wanted s).flatMap Delivery.bytes := by
  have hgather := st.gather_bytes (wanted + st.patience) wanted s
  unfold readFull readDeliveries
  dsimp only
  split
  · exact hgather
  · split <;> exact hgather

/-- A read of an exact number of bytes that gets them all has no error. One that falls short has
the error that the stream reported, except that one end may stand for the other; if nothing was
reported, its patience was worn out. -/
theorem readFull_error (st : Stream σ) (wanted : Nat) (s : σ) :
    (wanted ≤ (st.readFull wanted s).bytes.length ∧ (st.readFull wanted s).error = none) ∨
      (st.readFull wanted s).bytes.length < wanted ∧
        ∃ e e', (reported (st.readDeliveries wanted s)).or (some .noProgress) = some e ∧
          (st.readFull wanted s).error = some e' ∧ e'.isEnd = e.isEnd ∧
          (e.isEnd = false → e' = e) := by
  have hgather := st.gather_error (wanted + st.patience) wanted s
  unfold readFull readDeliveries
  dsimp only
  split
  · next hfull => exact Or.inl ⟨hfull, rfl⟩
  · next hshort =>
    rw [if_neg hshort] at hgather
    right
    split
    · next hend =>
      rw [Bool.and_eq_true, decide_eq_true_eq] at hend
      refine ⟨Nat.lt_of_not_le hshort, .endOfInput, .unexpectedEnd, ?_, rfl, rfl,
        by simp [StreamError.isEnd]⟩
      rw [← hgather, hend.1]
    · obtain ⟨e, he⟩ : ∃ e,
          (reported (st.deliveries (wanted + st.patience) wanted s)).or (some .noProgress) =
            some e := by
        cases reported (st.deliveries (wanted + st.patience) wanted s) with
        | none => exact ⟨_, rfl⟩
        | some e => exact ⟨e, rfl⟩
      exact ⟨Nat.lt_of_not_le hshort, e, e, he, hgather.trans he, rfl, fun _ ↦ rfl⟩

/-- With patience enough for its idle deliveries, a read that falls short was told why. -/
theorem reported_isSome_of_short (st : Stream σ) {wanted : Nat} {s : σ}
    (hidle : (st.readDeliveries wanted s).countP Delivery.isIdle ≤ st.patience)
    (hshort : (st.readFull wanted s).bytes.length < wanted) :
    ∃ e, reported (st.readDeliveries wanted s) = some e := by
  rw [readFull_bytes] at hshort
  unfold readDeliveries at *
  rw [← gather_bytes] at hshort
  cases hreported : reported (st.deliveries (wanted + st.patience) wanted s) with
  | some e => exact ⟨e, rfl⟩
  | none =>
    have := st.calls_le_of_short (wanted + st.patience) wanted s hreported hshort
    omega

end Stream

/-- A byte string keeps the contract of a reader, whatever faults it shows. -/
theorem Memory.stream_obeys : stream.Obeys := by
  intro m n
  have hallowance : m.allowance n ≤ n := by
    unfold Memory.allowance
    dsimp only
    split <;> split <;> omega
  change (m.read n).bytes.length ≤ n
  unfold Memory.read
  split
  · exact Nat.zero_le n
  · split
    · exact Nat.zero_le n
    · split
      · exact Nat.zero_le n
      · exact Nat.le_trans (List.length_take_le _ _) hallowance

namespace Source

variable {σ : Type}

/-- A read passes on what stopped it, unless that is the end. -/
theorem read_error (st : Stream σ) (src : Source σ) {n : Int} (hn : 0 < n) :
    (src.read st n).error = (st.readFull n.toNat src.inner).error.filter (fun e ↦ !e.isEnd) := by
  unfold read
  rw [if_neg (by omega)]
  dsimp only
  cases (st.readFull n.toNat src.inner).error with
  | none => rfl
  | some e => cases e <;> rfl

/-- A read notes the end if that stopped it. -/
theorem eofReached_read (st : Stream σ) (src : Source σ) {n : Int} (hn : 0 < n) :
    (src.read st n).source.eofReached =
      (src.eofReached || (st.readFull n.toNat src.inner).error.any StreamError.isEnd) := by
  have hscan (here : Source σ) (offset : Int) (bytes : Bytes) :
      (here.scan offset bytes).1.eofReached = here.eofReached := by
    unfold scan
    dsimp only
    split <;> rfl
  unfold read
  rw [if_neg (by omega)]
  dsimp only
  cases (st.readFull n.toNat src.inner).error with
  | none => simp [hscan]
  | some e => cases e <;> simp [hscan, StreamError.isEnd]

/-- Whether a call is a read that falls short because the stream reported an end. -/
def meetsEnd (st : Stream σ) (src : Source σ) : Call → Bool
  | .read n =>
    decide (0 < n) && decide (((src.read st n).value.length : Int) < n) &&
      (Stream.reported (st.readDeliveries n.toNat src.inner)).any StreamError.isEnd
  | .setPosition _ => false
  | .atEnd => false

/-- A call that meets the end is a read that gets fewer bytes than it asks for, and the stream
reported one end or the other. -/
theorem meetsEnd_iff (st : Stream σ) (src : Source σ) (c : Call) :
    src.meetsEnd st c = true ↔ ∃ n, c = .read n ∧ ((src.read st n).value.length : Int) < n ∧
      ∃ e, Stream.reported (st.readDeliveries n.toNat src.inner) = some e ∧
        (e = .endOfInput ∨ e = .unexpectedEnd) := by
  cases c with
  | read n =>
    rw [meetsEnd, Bool.and_eq_true, Bool.and_eq_true, decide_eq_true_eq, decide_eq_true_eq,
      Option.any_eq_true]
    constructor
    · rintro ⟨⟨-, hshort⟩, e, he, hend⟩
      exact ⟨n, rfl, hshort, e, he, StreamError.isEnd_iff.mp hend⟩
    · rintro ⟨m, hm, hshort, e, he, hend⟩
      obtain rfl := Call.read.inj hm
      exact ⟨⟨by omega, hshort⟩, e, he, StreamError.isEnd_iff.mpr hend⟩
  | setPosition offset => simp [meetsEnd]
  | atEnd => simp [meetsEnd]

/-- A read has met the end exactly if it notes that. -/
theorem meetsEnd_read (st : Stream σ) (src : Source σ) {n : Int} (hn : 0 < n) :
    src.meetsEnd st (.read n) = (st.readFull n.toNat src.inner).error.any StreamError.isEnd := by
  have hvalue := (read_fields st src n hn).1
  rw [meetsEnd, hvalue, decide_eq_true hn, Bool.true_and]
  obtain ⟨hfull, hnone⟩ | ⟨hshort, e, e', he, he', hend, -⟩ := st.readFull_error n.toNat src.inner
  · rw [hnone, decide_eq_false (by omega)]
    rfl
  · rw [he', decide_eq_true (by omega), Bool.true_and, Option.any_some, hend]
    cases hr : Stream.reported (st.readDeliveries n.toNat src.inner) with
    | none =>
      rw [hr, Option.none_or] at he
      obtain rfl := Option.some.inj he
      rfl
    | some e'' =>
      rw [hr, Option.some_or] at he
      obtain rfl := Option.some.inj he
      rfl

/-- A call notes the end exactly if it meets it. -/
theorem eofReached_step (st : Stream σ) (src : Source σ) (c : Call) :
    (src.step st c).eofReached = (src.eofReached || src.meetsEnd st c) := by
  cases c with
  | read n =>
    by_cases hn : 0 < n
    · rw [step, eofReached_read st src hn, meetsEnd_read st src hn]
    · rw [step, read, if_pos (by omega), meetsEnd, decide_eq_false hn]
      simp
  | setPosition offset =>
    rw [step, meetsEnd, Bool.or_false, setPosition]
    split <;> rfl
  | atEnd =>
    rw [step, meetsEnd, Bool.or_false, atEnd]
    dsimp only
    split
    · split <;> rfl
    · split <;> rfl

/-- After a run the end is noted exactly if it was before, or if a read of the run met it. -/
theorem eofReached_run (st : Stream σ) (src : Source σ) (calls : List Call) :
    (src.run st calls).eofReached = true ↔ src.eofReached = true ∨
      ∃ before c after, calls = before ++ c :: after ∧
        (src.run st before).meetsEnd st c = true := by
  induction calls generalizing src with
  | nil => simp [run]
  | cons c rest ih =>
    change ((src.step st c).run st rest).eofReached = true ↔ _
    rw [ih, eofReached_step, Bool.or_eq_true, or_assoc]
    refine or_congr_right ⟨?_, ?_⟩
    · rintro (hc | ⟨before, c', after, rfl, hc'⟩)
      · exact ⟨[], c, rest, rfl, hc⟩
      · exact ⟨c :: before, c', after, rfl, hc'⟩
    · rintro ⟨before, c', after, heq, hc'⟩
      cases before with
      | nil =>
        obtain ⟨rfl, rfl⟩ := List.cons.inj heq
        exact Or.inl hc'
      | cons c'' before =>
        obtain ⟨rfl, rfl⟩ := List.cons.inj heq
        exact Or.inr ⟨before, c', after, rfl, hc'⟩

/-- A read has no error exactly if it got all it asked for or the stream reported an end; any other
error that the stream reports first is the error of the read. -/
theorem read_error_eq (st : Stream σ) (src : Source σ) {n : Int} (hn : 0 < n)
    (hidle : (st.readDeliveries n.toNat src.inner).countP Delivery.isIdle ≤ st.patience) :
    (src.read st n).error =
      if ((src.read st n).value.length : Int) < n then
        (Stream.reported (st.readDeliveries n.toNat src.inner)).filter (fun e ↦ !e.isEnd)
      else none := by
  rw [read_error st src hn, (read_fields st src n hn).1]
  obtain ⟨hfull, hnone⟩ | ⟨hshort, e, e', he, he', hend, hsame⟩ :=
    st.readFull_error n.toNat src.inner
  · rw [if_neg (by omega), hnone]
    rfl
  · obtain ⟨told, htold⟩ := st.reported_isSome_of_short hidle hshort
    rw [htold, Option.some_or] at he
    obtain rfl := Option.some.inj he
    rw [if_pos (by omega), he', htold]
    cases hisEnd : told.isEnd with
    | true => simp [Option.filter_some, hend, hisEnd]
    | false => rw [hsame hisEnd]

/-- A read from a stream that stalls no more often than it is waited for returns the bytes of the
deliveries that it is made of, moves by them and takes them into the index, whatever the stream
reports. It has no error exactly if it got all the bytes it asked for or the stream reported an end,
be it one that the stream calls unexpected; every other error that the stream reports before is the
error of the read. The end is noted in a run exactly by the reads that fall short of what they ask
for at such a report. -/
theorem read_error_eq_none_iff (st : Stream σ) (hst : st.Obeys) (src : Source σ) (n : Int)
    (hn : 0 < n)
    (hidle : (st.readDeliveries n.toNat src.inner).countP Delivery.isIdle ≤ st.patience) :
    let ds := st.readDeliveries n.toNat src.inner
    let r := src.read st n
    (r.error = none ↔ (r.value.length : Int) = n ∨
      Stream.reported ds = some .endOfInput ∨ Stream.reported ds = some .unexpectedEnd) ∧
    (∀ e, Stream.reported ds = some e → e ≠ .endOfInput → e ≠ .unexpectedEnd →
      (r.value.length : Int) < n → r.error = some e) ∧
    (r.value = ds.flatMap Delivery.bytes ∧
      r.source.position = src.position + r.value.length ∧
      r.source.index = src.index.scan src.position r.value) ∧
    ∀ calls, (src.run st calls).eofReached = true ↔ src.eofReached = true ∨
      ∃ before m after, calls = before ++ .read m :: after ∧
        (((src.run st before).read st m).value.length : Int) < m ∧
        ∃ e, Stream.reported (st.readDeliveries m.toNat (src.run st before).inner) = some e ∧
          (e = .endOfInput ∨ e = .unexpectedEnd) := by
  intro ds r
  obtain ⟨hvalue, -, hposition, hindex⟩ := read_fields st src n hn
  have hbytes : r.value = ds.flatMap Delivery.bytes := hvalue.trans (st.readFull_bytes _ _)
  have hle : (st.readFull n.toNat src.inner).bytes.length ≤ n.toNat := by
    rw [Stream.readFull_bytes, Stream.readDeliveries, ← Stream.gather_bytes]
    exact hst.length_gather_le _ _ _
  have herror : r.error = _ := read_error_eq st src hn hidle
  have hr : r.value = (st.readFull n.toNat src.inner).bytes := hvalue
  refine ⟨?_, ?_, ⟨hbytes, hvalue ▸ hposition, hvalue ▸ hindex⟩, ?_⟩
  · rw [hr]
    by_cases hshort : ((st.readFull n.toNat src.inner).bytes.length : Int) < n
    · obtain ⟨e, he⟩ := st.reported_isSome_of_short hidle (by omega)
      have hne : ((st.readFull n.toNat src.inner).bytes.length : Int) ≠ n := by omega
      rw [if_pos (hvalue ▸ hshort), he] at herror
      rw [herror, he, Option.some.injEq, Option.some.injEq, ← StreamError.isEnd_iff]
      simp [Option.filter_some, hne]
    · rw [if_neg (hvalue ▸ hshort)] at herror
      exact ⟨fun _ ↦ Or.inl (by omega), fun _ ↦ herror⟩
  · intro e he hend hunexpected hshort
    have hother : e.isEnd = false := by
      rw [← Bool.not_eq_true, StreamError.isEnd_iff]
      exact fun h ↦ h.elim hend hunexpected
    rw [herror, if_pos hshort, he]
    simp [Option.filter_some, hother]
  · intro calls
    rw [eofReached_run]
    refine or_congr_right ⟨?_, ?_⟩
    · rintro ⟨before, c, after, rfl, hc⟩
      obtain ⟨m, rfl, hmet⟩ := (meetsEnd_iff st _ c).mp hc
      exact ⟨before, m, after, rfl, hmet⟩
    · rintro ⟨before, m, after, rfl, hmet⟩
      exact ⟨before, .read m, after, rfl, (meetsEnd_iff st _ _).mpr ⟨m, rfl, hmet⟩⟩

/-- Two bytes at a time at most and a failure from offset three on: the read is made of two
deliveries with bytes and a third one that fails, it returns the failure together with the three
bytes, and the line end among them is known. -/
theorem read_error_eq_none_failing :
    let memory : Memory :=
      { content := [0x61, 0x0A, 0x62, 0x0A], most := some 2
        failing := some (3, .failure "broken") }
    let src : Source Memory := { inner := memory }
    (src.read Memory.stream 9).error = some (.failure "broken") ∧
      (src.read Memory.stream 9).value = [0x61, 0x0A, 0x62] ∧
      (src.read Memory.stream 9).source.position = 3 ∧
      (src.read Memory.stream 9).source.lineEnds = #[2] ∧
      (src.read Memory.stream 9).source.eofReached = false := by
  intro memory src
  have hvalue : (src.read Memory.stream 9).value = [0x61, 0x0A, 0x62] := by decide
  have htold : Stream.reported (Memory.stream.readDeliveries 9 memory) =
      some (.failure "broken") := by decide
  have hidle : (Memory.stream.readDeliveries 9 memory).countP Delivery.isIdle ≤
      Memory.stream.patience := by decide
  obtain ⟨-, hother, ⟨-, hposition, -⟩, -⟩ :=
    read_error_eq_none_iff Memory.stream Memory.stream_obeys src 9 (by decide) hidle
  refine ⟨?_, hvalue, ?_, by decide, by decide⟩
  · exact hother _ htold (by decide) (by decide) (by rw [hvalue]; decide)
  · rw [hposition, hvalue]
    rfl

/-- A stream that reports an unexpected end of its own in the middle of its content: the read gets
fewer bytes than it asked for, has no error and notes the end of the input. -/
theorem read_error_eq_none_truncated :
    let memory : Memory :=
      { content := [0x61, 0x0A, 0x62], failing := some (2, .unexpectedEnd) }
    let src : Source Memory := { inner := memory }
    Stream.reported (Memory.stream.readDeliveries 3 memory) = some .unexpectedEnd ∧
      (src.read Memory.stream 3).value = [0x61, 0x0A] ∧
      (src.read Memory.stream 3).error = none ∧
      (src.read Memory.stream 3).source.eofReached = true ∧
      ((src.read Memory.stream 3).source.atEnd Memory.stream).error = some .unexpectedEnd := by
  refine ⟨?_, ?_, ?_, ?_, ?_⟩ <;> decide

end Source

end GrammarCode
