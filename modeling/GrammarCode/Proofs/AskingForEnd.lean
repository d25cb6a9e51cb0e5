import GrammarCode.Proofs.GaplessRun
import GrammarCode.Proofs.ReadOutcome

/-!
# Asking for the end

A source that is asked whether its stream has no more bytes takes a byte from the stream and moves
back. Over a stream that neither fails nor stalls nobody notices: two sources that differ in the
state of their streams only, at one position, answer every other request alike and stay so, and
asking for the end keeps a source like itself. So requests for the end can be put into a run or
left out of it at will. What they answer is whether the position has reached the end of the content.
-/

namespace GrammarCode

/-- Over a stream that delivers the end is what stops a read that falls short, and nothing stops a
read that does not. -/
theorem Stream.Delivers.any_isEnd_readFull {σ : Type} {st : Stream σ} {content : Bytes}
    {At : σ → Nat → Prop} (hst : st.Delivers content At) {s : σ} {p : Nat} (hs : At s p)
    (wanted : Nat) :
    (st.readFull wanted s).error.any StreamError.isEnd =
      decide ((st.readFull wanted s).bytes.length < wanted) := by
  obtain ⟨hfull, hnone⟩ | ⟨hshort, -, e, -, he, -⟩ := st.readFull_error wanted s
  · rw [hnone, decide_eq_false (by omega)]
    rfl
  · rw [he, decide_eq_true hshort, Option.any_some]
    exact StreamError.isEnd_iff.mpr ((hst.readFull_eq wanted s p hs).2 e he)

/-- A stream delivers its content from the states that have a property which its operations keep. -/
theorem Stream.Delivers.and {σ : Type} {st : Stream σ} {content : Bytes} {At : σ → Nat → Prop}
    (h : st.Delivers content At) (keeps : σ → Prop)
    (hread : ∀ s n, keeps s → keeps (st.read s n).next)
    (hseek : ∀ s w offset, keeps s → keeps (st.seek s w offset).2) :
    st.Delivers content fun s p ↦ At s p ∧ keeps s where
  toServes := h.toServes.and keeps hread hseek
  read_length s p n hs := h.read_length s p n hs.1
  read_ne_nil s p n hs := h.read_ne_nil s p n hs.1
  read_error s p n e hs := h.read_error s p n e hs.1
  read_end s p n hs := h.read_end s p n hs.1
  seek_isOk s p w offset hs := h.seek_isOk s p w offset hs.1

namespace Memory

theorem negativeSeek_read {text : Bytes} (m : Memory) (n : Nat) (h : m.negativeSeek = text) :
    (m.read n).next.negativeSeek = text := by
  rcases m.read_cases n with ⟨-, hnext⟩ | ⟨k, -, hnext⟩
  · rw [hnext, h]
  · rw [hnext]
    exact h

theorem negativeSeek_seek {text : Bytes} (m : Memory) (w : Whence) (offset : Int)
    (h : m.negativeSeek = text) : (m.seek w offset).2.negativeSeek = text := by
  unfold seek
  split
  · exact h
  · cases w with
    | start =>
      dsimp only
      split <;> exact h
    | current =>
      dsimp only
      split <;> exact h

/-- A calm byte string refuses a seek in its own words. -/
theorem Calm.seek_error {m : Memory} (hm : m.Calm) {w : Whence} {offset : Int} {e : StreamError}
    (h : (m.seek w offset).1 = .error e) : e = .failure m.negativeSeek := by
  unfold Memory.seek at h
  rw [hm.seeks, if_neg (by simp)] at h
  cases w with
  | start =>
    dsimp only at h
    split at h
    · exact (Except.error.inj h).symm
    · cases h
  | current =>
    dsimp only at h
    split at h
    · exact (Except.error.inj h).symm
    · cases h

end Memory

namespace Source

variable {σ : Type}

/-! ### Everything a source can be asked for -/

/-- A question about what a source knows. -/
inductive Query where
  | position
  | lineAndColumn (offset : Int)
  | location (offset : Int)
  | currentLocation
  | lineEnds
  | scanned
  | reliable (offset : Int)
  | eofReached
  | filename
  deriving DecidableEq, Repr

/-- A call that works on the stream, or a question. -/
inductive Request where
  | call (c : Call)
  | query (q : Query)
  deriving DecidableEq, Repr

/-- Whether a request is another one than for the end. -/
def Request.isOther : Request → Bool
  | .call .atEnd => false
  | _ => true

/-- What is given back on a request. -/
inductive Answer where
  | done
  | bytes (b : Bytes)
  | truth (b : Bool)
  | number (n : Int)
  | numbers (ns : Array Int)
  | pair (line column : Int)
  | place (l : Location)
  deriving DecidableEq, Repr

/-- All that is seen of a request: the answer, an error, and the events that were logged. -/
structure Reply where
  answer : Answer
  error : Option StreamError := none
  events : List Log.Event := []

/-- The answer to a question. -/
def answer (src : Source σ) : Query → Answer
  | .position => .number src.position
  | .lineAndColumn offset => .pair (src.lineAndColumn offset).1 (src.lineAndColumn offset).2
  | .location offset => .place (src.location offset)
  | .currentLocation => .place src.currentLocation
  | .lineEnds => .numbers src.lineEnds
  | .scanned => .number src.scanned
  | .reliable offset => .truth (src.reliable offset)
  | .eofReached => .truth src.eofReached
  | .filename => .bytes src.filename

/-- The reply to a request. -/
def reply (st : Stream σ) (src : Source σ) : Request → Reply
  | .call (.read n) =>
    let o := src.read st n
    ⟨.bytes o.value, o.error, o.events⟩
  | .call (.setPosition offset) =>
    let o := src.setPosition st offset
    ⟨.done, o.error, o.events⟩
  | .call .atEnd =>
    let o := src.atEnd st
    ⟨.truth o.value, o.error, o.events⟩
  | .query q => { answer := src.answer q }

/-- The source after a request; only calls change it. -/
def next (st : Stream σ) (src : Source σ) : Request → Source σ
  | .call c => src.step st c
  | .query _ => src

/-- The source after requests in order. -/
def after (st : Stream σ) (src : Source σ) (requests : List Request) : Source σ :=
  requests.foldl (next st) src

/-- The requests of a run in order, each with the reply to it. -/
def exchanges (st : Stream σ) (src : Source σ) : List Request → List (Request × Reply)
  | [] => []
  | r :: rest => (r, src.reply st r) :: exchanges st (src.next st r) rest

/-- The exchanges of a run but those about the end. -/
def otherExchanges (st : Stream σ) (src : Source σ) (requests : List Request) :
    List (Request × Reply) :=
  (exchanges st src requests).filter fun x ↦ x.1.isOther

/-- All that a run logs. -/
def log (st : Stream σ) (src : Source σ) (requests : List Request) : List Log.Event :=
  (exchanges st src requests).flatMap fun x ↦ x.2.events

theorem log_cons (st : Stream σ) (src : Source σ) (r : Request) (rest : List Request) :
    log st src (r :: rest) = (src.reply st r).events ++ log st (src.next st r) rest := rfl

/-! ### What a source holds besides its stream -/

/-- The fields of a source without the state of its stream. -/
def view (src : Source σ) : Source Unit :=
  { inner := (), filename := src.filename, position := src.position, lineEnds := src.lineEnds
    scanned := src.scanned, contiguous := src.contiguous, eofReached := src.eofReached }

/-- No question is about the stream. -/
theorem answer_view (src : Source σ) (q : Query) : src.view.answer q = src.answer q := by
  cases q <;> rfl

/-- What bytes that came do to a source: they are indexed, and it is noted whether the end came with
them. -/
def receive (src : Source σ) (inner : σ) (bytes : Bytes) (ended : Bool) :
    Source σ × List Log.Event :=
  let moved := { src with inner, position := src.position + bytes.length }
  let (indexed, events) := moved.scan src.position bytes
  ({ indexed with eofReached := indexed.eofReached || ended }, events)

private theorem view_scan (src : Source σ) (offset : Int) (bytes : Bytes) :
    (src.scan offset bytes).1.view = (src.view.scan offset bytes).1 ∧
      (src.scan offset bytes).2 = (src.view.scan offset bytes).2 := by
  unfold scan
  by_cases h : offset + bytes.length ≤ src.scanned
  · rw [if_pos h, if_pos (show _ ≤ src.view.scanned from h)]
    exact ⟨rfl, rfl⟩
  · rw [if_neg h, if_neg (show ¬ _ ≤ src.view.scanned from h)]
    exact ⟨rfl, rfl⟩

/-- What is indexed and what is logged does not depend on the state of the stream. -/
theorem view_receive (src : Source σ) (inner : σ) (bytes : Bytes) (ended : Bool) :
    (src.receive inner bytes ended).1.view = (src.view.receive () bytes ended).1 ∧
      (src.receive inner bytes ended).2 = (src.view.receive () bytes ended).2 := by
  let moved : Source σ := { src with inner, position := src.position + bytes.length }
  obtain ⟨hview, hevents⟩ := view_scan moved src.position bytes
  refine ⟨?_, hevents⟩
  change { (moved.scan src.position bytes).1.view with
    eofReached := (moved.scan src.position bytes).1.view.eofReached || ended } = _
  rw [hview]
  rfl

/-- A read takes nothing from the stream but the bytes that came and whether the end did. -/
theorem read_eq_receive (st : Stream σ) (src : Source σ) {n : Int} (hn : 0 < n) :
    let d := st.readFull n.toNat src.inner
    (src.read st n).source = (src.receive d.next d.bytes (d.error.any StreamError.isEnd)).1 ∧
      (src.read st n).events =
        (src.receive d.next d.bytes (d.error.any StreamError.isEnd)).2 := by
  intro d
  unfold read receive
  rw [if_neg (by omega)]
  dsimp only [d]
  cases (st.readFull n.toNat src.inner).error with
  | none => simp
  | some e => cases e <;> simp [StreamError.isEnd]

variable {st : Stream σ} {content : Bytes} {At : σ → Nat → Prop}

/-! ### Sources that nobody can tell apart -/

/-- Two sources that differ in the state of their streams only, with both streams at one position.
-/
structure Alike (At : σ → Nat → Prop) (src other : Source σ) : Prop where
  view_eq : src.view = other.view
  tracks : ∃ p, src.Tracks At p ∧ other.Tracks At p

/-- What two sources alike get from reads of the same length is the same, and they stay alike. -/
theorem Alike.read (hst : st.Delivers content At) {src other : Source σ} (h : Alike At src other)
    (n : Int) :
    (src.read st n).value = (other.read st n).value ∧
      (src.read st n).error = none ∧ (other.read st n).error = none ∧
      (src.read st n).events = (other.read st n).events ∧
      Alike At (src.read st n).source (other.read st n).source := by
  obtain ⟨p, hp, hp'⟩ := h.tracks
  by_cases hn : 0 < n
  · obtain ⟨hvalue, herror, htracks, -⟩ := read_of_delivers hst hp hn
    obtain ⟨hvalue', herror', htracks', -⟩ := read_of_delivers hst hp' hn
    obtain ⟨hsource, hevents⟩ := read_eq_receive st src hn
    obtain ⟨hsource', hevents'⟩ := read_eq_receive st other hn
    have hbytes := (read_fields st src n hn).1.symm.trans (hvalue.trans hvalue'.symm)
    have hbytes' := hbytes.trans (read_fields st other n hn).1
    have hended : (st.readFull n.toNat src.inner).error.any StreamError.isEnd =
        (st.readFull n.toNat other.inner).error.any StreamError.isEnd := by
      rw [hst.any_isEnd_readFull hp.1, hst.any_isEnd_readFull hp'.1, hbytes']
    refine ⟨hvalue.trans hvalue'.symm, herror, herror', ?_, ?_, ?_⟩
    · rw [hevents, hevents', (view_receive src ..).2, (view_receive other ..).2,
        h.view_eq, hbytes', hended]
    · rw [hsource, hsource', (view_receive src ..).1, (view_receive other ..).1,
        h.view_eq, hbytes', hended]
    · rw [hvalue] at htracks
      rw [hvalue'] at htracks'
      exact ⟨_, htracks, htracks'⟩
  · have hnone (here : Source σ) : here.read st n = { source := here, value := [] } := by
      rw [Source.read, if_pos (by omega)]
    rw [hnone, hnone]
    exact ⟨rfl, rfl, rfl, rfl, h⟩

/-- Repositioning works or is refused for both of two sources alike, and they stay alike. -/
theorem Alike.setPosition (hst : st.Delivers content At) {src other : Source σ}
    (h : Alike At src other) (offset : Int) :
    (src.setPosition st offset).events = [] ∧ (other.setPosition st offset).events = [] ∧
      ((src.setPosition st offset).error = none ∧ (other.setPosition st offset).error = none ∨
        ∃ e e', (src.setPosition st offset).error = some e ∧
          (other.setPosition st offset).error = some e' ∧
          (st.seek src.inner .start offset).1 = .error e ∧
          (st.seek other.inner .start offset).1 = .error e') ∧
      Alike At (src.setPosition st offset).source (other.setPosition st offset).source := by
  obtain ⟨p, hp, hp'⟩ := h.tracks
  have hseek (s : σ) (hs : At s p) :
      (0 ≤ offset ∧ ∃ s', st.seek s .start offset = (.ok offset, s') ∧ At s' offset.toNat) ∨
        offset < 0 ∧ ∃ e s', st.seek s .start offset = (.error e, s') ∧ At s' p := by
    rcases hresult : st.seek s .start offset with ⟨e | q, s'⟩
    · have hrefused : ¬ 0 ≤ offset := by
        intro h0
        have hok := hst.seek_isOk s p .start offset hs (by rw [Whence.base]; omega)
        rw [hresult] at hok
        cases hok
      exact Or.inr ⟨by omega, e, s', rfl, hst.seek_error s p .start offset e s' hs hresult⟩
    · obtain ⟨hq, h0, hat⟩ := hst.seek_ok s p .start offset q s' hs hresult
      rw [Whence.base, Int.zero_add] at hq
      subst hq
      exact Or.inl ⟨h0, s', rfl, hat⟩
  unfold Source.setPosition
  rcases hseek src.inner hp.1 with ⟨h0, s, hs, hat⟩ | ⟨h0, e, s, hs, hat⟩
  · rcases hseek other.inner hp'.1 with ⟨-, s', hs', hat'⟩ | ⟨h0', -⟩
    · rw [hs, hs']
      refine ⟨rfl, rfl, Or.inl ⟨rfl, rfl⟩, ?_, offset.toNat, ?_, ?_⟩
      · exact congrArg (fun v : Source Unit ↦ { v with position := offset }) h.view_eq
      · exact ⟨hat, (Int.toNat_of_nonneg h0).symm⟩
      · exact ⟨hat', (Int.toNat_of_nonneg h0).symm⟩
    · omega
  · rcases hseek other.inner hp'.1 with ⟨h0', -⟩ | ⟨-, e', s', hs', hat'⟩
    · omega
    · rw [hs, hs']
      exact ⟨rfl, rfl, Or.inr ⟨e, e', rfl, rfl, rfl, rfl⟩, h.view_eq, p, ⟨hat, hp.2⟩, hat', hp'.2⟩

/-- Asking for the end logs nothing and changes nothing but the state of the stream. -/
theorem view_atEnd (st : Stream σ) (src : Source σ) :
    (src.atEnd st).source.view = src.view ∧ (src.atEnd st).events = [] := by
  unfold atEnd
  dsimp only
  split
  · split <;> exact ⟨rfl, rfl⟩
  · split <;> exact ⟨rfl, rfl⟩

/-- Asking for the end keeps a source like any other that it was like. -/
theorem Alike.atEnd (hst : st.Delivers content At) {src other : Source σ}
    (h : Alike At src other) : Alike At (src.atEnd st).source other := by
  obtain ⟨p, hp, hp'⟩ := h.tracks
  obtain ⟨-, htracks⟩ := atEnd_eq hst.toServes hp (strands_eq_false hst hp .atEnd)
  exact ⟨(view_atEnd st src).1.trans h.view_eq, p, htracks, hp'⟩

/-- Over a stream that delivers, the answer about the end is whether the position has reached the
end of the content. -/
theorem atEnd_of_delivers (hst : st.Delivers content At) {src : Source σ} {p : Nat}
    (hp : src.Tracks At p) :
    (src.atEnd st).error = none ∧ ((src.atEnd st).value = true ↔ content.length ≤ p) := by
  have hstrands := strands_eq_false hst hp .atEnd
  by_cases hend : content.length ≤ p
  · have hnone : (st.read src.inner 1).bytes = [] := by
      have hbytes := hst.read_bytes src.inner p 1 hp.1
      rw [List.drop_eq_nil_of_le hend] at hbytes
      exact List.prefix_nil.mp hbytes
    have hat : src.atEnd st =
        { source := { src with inner := (st.read src.inner 1).next }, value := true } := by
      unfold Source.atEnd
      dsimp only
      rw [hnone, hst.read_end src.inner p 1 hp.1 Nat.one_pos hend]
      rfl
    rw [hat]
    exact ⟨rfl, by simp [hend]⟩
  · have hsome := hst.read_ne_nil src.inner p 1 hp.1 Nat.one_pos (by omega)
    have hempty : (st.read src.inner 1).bytes.isEmpty = false :=
      List.isEmpty_eq_false_iff.mpr hsome
    rw [strands, hempty, Bool.not_false, Bool.true_and, Option.isSome_eq_false_iff,
      Option.isNone_iff_eq_none] at hstrands
    refine ⟨hstrands, ?_⟩
    unfold Source.atEnd
    dsimp only
    rw [hempty, if_neg Bool.false_ne_true]
    split <;> simp [hend]

/-! ### Runs with and without requests for the end -/

/-- A reply with something else told of its error. -/
def Reply.told {ε : Type} (tell : StreamError → ε) (r : Reply) :
    Answer × Option ε × List Log.Event :=
  (r.answer, r.error.map tell, r.events)

/-- What is told of errors does not tell apart the refusals of seeks to one offset from one
position. -/
def Undistinguished {ε : Type} (st : Stream σ) (At : σ → Nat → Prop) (tell : StreamError → ε) :
    Prop :=
  ∀ s s' p offset e e', At s p → At s' p → (st.seek s .start offset).1 = .error e →
    (st.seek s' .start offset).1 = .error e' → tell e = tell e'

section Runs

variable {ε : Type} {tell : StreamError → ε}

/-- Two sources alike reply alike to every request but one for the end, and they stay alike. -/
theorem Alike.reply (hst : st.Delivers content At) (htell : Undistinguished st At tell)
    {src other : Source σ} (h : Alike At src other) {r : Request} (hr : r.isOther = true) :
    (src.reply st r).told tell = (other.reply st r).told tell ∧
      (src.reply st r).events = (other.reply st r).events ∧
      Alike At (src.next st r) (other.next st r) := by
  cases r with
  | query q =>
    have hanswer : src.answer q = other.answer q := by
      rw [← answer_view, h.view_eq, answer_view]
    exact ⟨by rw [Source.reply, Source.reply, hanswer], rfl, h⟩
  | call c =>
    cases c with
    | atEnd => cases hr
    | read n =>
      obtain ⟨hvalue, herror, herror', hevents, hnext⟩ := h.read hst n
      refine ⟨?_, hevents, hnext⟩
      rw [Source.reply, Source.reply, Reply.told, Reply.told]
      dsimp only
      rw [hvalue, herror, herror', hevents]
    | setPosition offset =>
      obtain ⟨hevents, hevents', herror, hnext⟩ := h.setPosition hst offset
      refine ⟨?_, hevents.trans hevents'.symm, hnext⟩
      rw [Source.reply, Source.reply, Reply.told, Reply.told]
      dsimp only
      rw [hevents, hevents']
      rcases herror with ⟨hnone, hnone'⟩ | ⟨e, e', he, he', hs, hs'⟩
      · rw [hnone, hnone']
      · obtain ⟨p, hp, hp'⟩ := h.tracks
        rw [he, he', Option.map_some, Option.map_some,
          htell _ _ p offset e e' hp.1 hp'.1 hs hs']

/-- A run without its requests for the end, from a source alike: the other replies are the same, so
is the log, and the sources after it are alike. -/
theorem Alike.without_atEnd (hst : st.Delivers content At) (htell : Undistinguished st At tell)
    {src other : Source σ} (h : Alike At src other) (requests : List Request) :
    (otherExchanges st src requests).map (fun x ↦ (x.1, x.2.told tell)) =
        (exchanges st other (requests.filter Request.isOther)).map
          (fun x ↦ (x.1, x.2.told tell)) ∧
      log st src requests = log st other (requests.filter Request.isOther) ∧
      Alike At (src.after st requests) (other.after st (requests.filter Request.isOther)) := by
  induction requests generalizing src other with
  | nil => exact ⟨rfl, rfl, h⟩
  | cons r rest ih =>
    cases hr : r.isOther with
    | true =>
      obtain ⟨htold, hevents, hnext⟩ := h.reply hst htell hr
      obtain ⟨hrest, hlog, hafter⟩ := ih hnext
      rw [List.filter_cons_of_pos hr]
      refine ⟨?_, ?_, hafter⟩
      · have hcons : otherExchanges st src (r :: rest) =
            (r, src.reply st r) :: otherExchanges st (src.next st r) rest :=
          List.filter_cons_of_pos hr
        rw [hcons, exchanges, List.map_cons, List.map_cons, htold, hrest]
      · rw [log_cons, log_cons, hevents, hlog]
    | false =>
      have hcall : r = .call .atEnd := by
        rcases r with (_ | _ | _) | _
        · cases hr
        · cases hr
        · rfl
        · cases hr
      subst hcall
      obtain ⟨hrest, hlog, hafter⟩ := ih (h.atEnd hst)
      rw [List.filter_cons_of_neg (by simp [Request.isOther])]
      refine ⟨?_, ?_, hafter⟩
      · have hcons : otherExchanges st src (.call .atEnd :: rest) =
            otherExchanges st (src.atEnd st).source rest :=
          List.filter_cons_of_neg (by simp [Request.isOther])
        rw [hcons, hrest]
      · have hevents : (src.reply st (.call .atEnd)).events = [] := (view_atEnd st src).2
        rw [log_cons, hevents, List.nil_append]
        exact hlog

end Runs

-- With nothing changed in what is told, the exchanges themselves are the same.
private theorem eq_of_told_id {xs ys : List (Request × Reply)}
    (h : xs.map (fun x ↦ (x.1, x.2.told id)) = ys.map (fun x ↦ (x.1, x.2.told id))) : xs = ys := by
  refine (List.map_inj_right ?_).mp h
  rintro ⟨r, answer, error, events⟩ ⟨r', answer', error', events'⟩ htold
  simpa [Reply.told] using htold

/-- Over a stream that neither fails nor stalls, requests for the end can be put into any run or
left out of it: every other request gets the same reply, the log is the same, and so is every field
of the source afterwards, with its stream at the same position. Only the wording of refused
repositionings is the stream's own; it is the same as well if the stream does not word one refusal
in two ways. The answer about the end is always given, and it is that the position is at the end of
the content or behind it, so that a read of one byte would get none. -/
theorem atEnd_transparent (st : Stream σ) (content : Bytes) (At : σ → Nat → Prop)
    (hst : st.Delivers content At) (filename : Bytes) (s : σ) (p : Nat) (hs : At s p)
    (src : Source σ) (events : List Log.Event) (hsrc : start st filename s = .ok (src, events)) :
    (∀ requests requests',
      requests.filter Request.isOther = requests'.filter Request.isOther →
        (otherExchanges st src requests).map (fun x ↦ (x.1, x.2.told fun _ ↦ ())) =
          (otherExchanges st src requests').map (fun x ↦ (x.1, x.2.told fun _ ↦ ())) ∧
        (Undistinguished st At id →
          otherExchanges st src requests = otherExchanges st src requests') ∧
        log st src requests = log st src requests' ∧
        (src.after st requests).view = (src.after st requests').view ∧
        ∃ q, (src.after st requests).Tracks At q ∧ (src.after st requests').Tracks At q) ∧
    ∀ requests, let here := src.after st requests
      (here.atEnd st).error = none ∧
        ((here.atEnd st).value = true ↔ (content.length : Int) ≤ here.position) ∧
        ((here.atEnd st).value = true ↔ (here.read st 1).value = []) := by
  obtain ⟨htracks, -⟩ := start_eq hst.toServes hs hsrc
  have hself : Alike At src src := ⟨rfl, p, htracks, htracks⟩
  have htold : Undistinguished st At fun _ ↦ () := fun _ _ _ _ _ _ _ _ _ _ ↦ rfl
  refine ⟨fun requests requests' hsame ↦ ?_, fun requests ↦ ?_⟩
  · obtain ⟨hreplies, hlog, hafter⟩ := hself.without_atEnd hst htold requests
    obtain ⟨hreplies', hlog', hafter'⟩ := hself.without_atEnd hst htold requests'
    rw [hsame] at hreplies hlog hafter
    refine ⟨hreplies.trans hreplies'.symm, fun hid ↦ ?_, hlog.trans hlog'.symm,
      hafter.view_eq.trans hafter'.view_eq.symm, ?_⟩
    · have hfull := (hself.without_atEnd hst hid requests).1
      rw [hsame] at hfull
      exact eq_of_told_id (hfull.trans (hself.without_atEnd hst hid requests').1.symm)
    · obtain ⟨q, hq, hpos⟩ := hafter.tracks
      obtain ⟨q', hq', hpos'⟩ := hafter'.tracks
      have hqq : q = q' := by
        have := hpos.2.symm.trans hpos'.2
        omega
      exact ⟨q, hq, hqq ▸ hq'⟩
  · intro here
    obtain ⟨q, hq, -⟩ := (hself.without_atEnd hst htold requests).2.2.tracks
    obtain ⟨herror, hvalue⟩ := atEnd_of_delivers hst hq
    have hread := (read_of_delivers hst hq (n := 1) (by omega)).1
    have hposition : here.position = (q : Int) := hq.2
    refine ⟨herror, ?_, ?_⟩
    · rw [hvalue, hposition, Int.ofNat_le]
    · rw [hvalue, hread, List.take_eq_nil_iff, List.drop_eq_nil_iff]
      simp

/-- Two bytes at a time at most, the end told with the last ones, and refusals that are worded the
same: a run asks for the end before and after each read, at the last byte, behind the end and after
a refusal; the replies to all the rest are those of a run that never asks. -/
theorem atEnd_transparent_eager :
    let memory : Memory :=
      { content := [0x61, 0x0A, 0x62], most := some 2, eager := true, negativeSeek := "negative" }
    let src : Source Memory := { inner := memory }
    let ends : Request := .call .atEnd
    let requests : List Request := [ends, .call (.read 2), ends, .query .currentLocation,
      .call (.setPosition 7), ends, ends, .call (.read 1), .call (.setPosition (-1)), ends,
      .call (.setPosition 2), ends, .call (.read 1), ends]
    let others : List Request := [.call (.read 2), .query .currentLocation,
      .call (.setPosition 7), .call (.read 1), .call (.setPosition (-1)), .call (.setPosition 2),
      .call (.read 1)]
    start Memory.stream [] memory = .ok (src, []) ∧
      otherExchanges Memory.stream src requests = exchanges Memory.stream src others ∧
      (src.after Memory.stream requests).view = (src.after Memory.stream others).view ∧
      ((src.after Memory.stream requests).atEnd Memory.stream).value = true := by
  intro memory src ends requests others
  let At (m : Memory) (p : Nat) : Prop :=
    ((m.content = memory.content ∧ m.position = (p : Int)) ∧ m.Calm) ∧
      m.negativeSeek = memory.negativeSeek
  have hst : Memory.stream.Delivers memory.content At :=
    (Memory.stream_delivers memory.content).and _ Memory.negativeSeek_read Memory.negativeSeek_seek
  have hworded : Undistinguished Memory.stream At id := by
    rintro m m' p offset e e' ⟨⟨-, hm⟩, hword⟩ ⟨⟨-, hm'⟩, hword'⟩ he he'
    rw [hm.seek_error he, hm'.seek_error he', hword, hword']
  obtain ⟨hruns, hends⟩ := atEnd_transparent Memory.stream memory.content At hst [] memory 0
    ⟨⟨⟨rfl, rfl⟩, ⟨rfl, rfl, by decide, rfl⟩⟩, rfl⟩ src [] rfl
  obtain ⟨-, hreplies, -, hview, -⟩ := hruns requests others (by decide)
  refine ⟨rfl, ?_, hview, (hends requests).2.1.mpr (by decide)⟩
  exact (hreplies hworded).trans (List.filter_eq_self.mpr (by decide))

end Source

end GrammarCode
