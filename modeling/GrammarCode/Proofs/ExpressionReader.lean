import GrammarCode.Proofs.Simplified

/-!
# Reading parsing expressions

A reader of the notation in which atoms are written: literals between quotes with their escapes
undone, units side by side as a sequence, slashes between the parts of a choice, parentheses around
what belongs together. It goes through the text once, byte by byte. What the text of a tree reads as
is said by `Atom.phrase`, and reading agrees with it wherever the text stands; so the text of every
tree without empty groups can be read, as one tree or another.
-/

namespace GrammarCode

/-! ### Phrases -/

/-- What stands between parentheses: atoms, and slashes between the parts of a choice. -/
inductive Piece where
  | unit (a : Atom)
  | slash
  deriving Repr

namespace Piece

/-- The units before the first slash. -/
def first : List Piece → List Atom
  | [] => []
  | .unit a :: rest => a :: first rest
  | .slash :: _ => []

/-- The units behind each of the slashes, up to the next one. -/
def later : List Piece → List (List Atom)
  | [] => []
  | .unit _ :: rest => later rest
  | .slash :: rest => first rest :: later rest

/-- The parts of the choice that a phrase is, each a sequence of units. -/
def parts (phrase : List Piece) : List Atom := (first phrase :: later phrase).map (Atom.bundle true)

/-- The tree of a phrase: juxtaposition binds tighter than a slash. -/
def tree (phrase : List Piece) : Atom := .bundle false (parts phrase)

/-- Whether a phrase ends in a unit, so that a slash or the end may follow. -/
def complete (phrase : List Piece) : Bool :=
  match phrase.getLast? with
  | some (.unit _) => true
  | _ => false

theorem first_append_slash (xs ys : List Piece) : first (xs ++ .slash :: ys) = first xs := by
  induction xs with
  | nil => rfl
  | cons x rest ih =>
    cases x with
    | unit a => rw [List.cons_append, first, first, ih]
    | slash => rfl

theorem later_append_slash (xs ys : List Piece) :
    later (xs ++ .slash :: ys) = later xs ++ first ys :: later ys := by
  induction xs with
  | nil => rfl
  | cons x rest ih =>
    cases x with
    | unit a => rw [List.cons_append, later, later, ih]
    | slash => rw [List.cons_append, later, later, ih, first_append_slash, List.cons_append]

theorem parts_append_slash (xs ys : List Piece) :
    parts (xs ++ .slash :: ys) = parts xs ++ parts ys := by
  rw [parts, parts, parts, first_append_slash, later_append_slash, ← List.map_append,
    List.cons_append]

theorem first_units (us : List Atom) : first (us.map .unit) = us := by
  induction us with
  | nil => rfl
  | cons a rest ih => rw [List.map_cons, first, ih]

theorem later_units (us : List Atom) : later (us.map .unit) = [] := by
  induction us with
  | nil => rfl
  | cons a rest ih => rw [List.map_cons, later, ih]

theorem parts_units (us : List Atom) : parts (us.map .unit) = [.bundle true us] := by
  rw [parts, first_units, later_units, List.map_singleton]

theorem complete_concat (xs : List Piece) (a : Atom) : complete (xs ++ [.unit a]) = true := by
  simp [complete]

/-- How many leaves the units of a phrase have together. -/
def leaves : List Piece → Nat
  | [] => 0
  | .unit a :: rest => a.leaves + leaves rest
  | .slash :: rest => leaves rest

theorem leaves_append (xs ys : List Piece) : leaves (xs ++ ys) = leaves xs + leaves ys := by
  induction xs with
  | nil => rw [List.nil_append, leaves, Nat.zero_add]
  | cons x rest ih =>
    cases x with
    | unit a => rw [List.cons_append, leaves, leaves, ih, Nat.add_assoc]
    | slash => rw [List.cons_append, leaves, leaves, ih]

theorem leavesAll_parts (xs : List Piece) : Atom.leavesAll (parts xs) = leaves xs := by
  induction xs with
  | nil => rfl
  | cons x rest ih =>
    rw [parts, List.map_cons, Atom.leavesAll, Atom.leaves_bundle] at ih
    cases x with
    | unit a =>
      rw [parts, first, later, List.map_cons, Atom.leavesAll, Atom.leaves_bundle, Atom.leavesAll,
        leaves]
      omega
    | slash =>
      rw [parts, first, later, List.map_cons, List.map_cons, Atom.leavesAll, Atom.leavesAll,
        Atom.leaves_bundle, Atom.leaves_bundle, Atom.leavesAll, leaves]
      omega

/-- The tree of a phrase has the leaves of its units. -/
theorem leaves_tree (xs : List Piece) : (tree xs).leaves = leaves xs := by
  rw [tree, Atom.leaves_bundle, leavesAll_parts]

/-- A phrase with a unit before and behind each slash, and with leaves in every unit. -/
inductive Full : List Piece → Prop
  | unit {a : Atom} (h : 0 < a.leaves) : Full [.unit a]
  | append {xs ys : List Piece} (hx : Full xs) (hy : Full ys) : Full (xs ++ ys)
  | slash {xs ys : List Piece} (hx : Full xs) (hy : Full ys) : Full (xs ++ .slash :: ys)

theorem Full.leaves_pos {xs : List Piece} (h : Full xs) : 0 < leaves xs := by
  induction h with
  | unit h =>
    rw [leaves, leaves]
    exact h
  | append _ _ ihx _ =>
    rw [leaves_append]
    omega
  | slash _ _ ihx _ =>
    rw [leaves_append]
    omega

/-- A full phrase ends in a unit, and so does one with it at the end. -/
theorem Full.complete_append {xs : List Piece} (h : Full xs) (before : List Piece) :
    complete (before ++ xs) = true := by
  have hlast : ∃ ys a, xs = ys ++ [.unit a] := by
    induction h with
    | @unit a _ => exact ⟨[], a, rfl⟩
    | @append xs ys _ _ _ ihy =>
      obtain ⟨zs, a, rfl⟩ := ihy
      exact ⟨xs ++ zs, a, (List.append_assoc ..).symm⟩
    | @slash xs ys _ _ _ ihy =>
      obtain ⟨zs, a, rfl⟩ := ihy
      exact ⟨xs ++ .slash :: zs, a, by rw [List.append_assoc, List.cons_append]⟩
  obtain ⟨ys, a, rfl⟩ := hlast
  rw [← List.append_assoc, complete_concat]

end Piece

/-! ### The reader -/

/-- Where a reader is: between literals, in one, or behind a backslash in one. -/
inductive ReaderMode where
  | outside
  | inside (read : Bytes)
  | escaped (read : Bytes)
  deriving DecidableEq, Repr

/-- A reader: where it is, the phrase that it reads, and the phrases around that, the innermost
first. -/
structure ExpressionReader where
  mode : ReaderMode := .outside
  phrase : List Piece := []
  around : List (List Piece) := []

namespace ExpressionReader

/-- The byte that is meant by one behind a backslash. -/
def unescape? (b : UInt8) : Option UInt8 :=
  if b = 0x5C then some 0x5C
  else if b = 0x27 then some 0x27
  else if b = 0x6E then some 0x0A
  else if b = 0x74 then some 0x09
  else if b = 0x72 then some 0x0D
  else none

/-- The bytes of a pattern that are not written as they are: backslash, quote, newline, tab and
carriage return. -/
def special : Bytes := [0x5C, 0x27, 0x0A, 0x09, 0x0D]

/-- A byte is written as it is, or as a backslash and a letter that means it. -/
theorem escapeByte_cases (b : UInt8) :
    (Atom.escapeByte b = [b] ∧ b ∉ special) ∨
      ∃ c, Atom.escapeByte b = [0x5C, c] ∧ unescape? c = some b ∧ c ∉ [0x0A, 0x09, 0x0D] := by
  by_cases h : b ∈ special
  · right
    simp only [special, List.mem_cons, List.not_mem_nil, or_false] at h
    rcases h with rfl | rfl | rfl | rfl | rfl
    · exact ⟨0x5C, rfl, rfl, by decide⟩
    · exact ⟨0x27, rfl, rfl, by decide⟩
    · exact ⟨0x6E, rfl, rfl, by decide⟩
    · exact ⟨0x74, rfl, rfl, by decide⟩
    · exact ⟨0x72, rfl, rfl, by decide⟩
  · left
    refine ⟨?_, h⟩
    simp only [special, List.mem_cons, List.not_mem_nil, or_false, not_or] at h
    obtain ⟨hslash, hquote, hnewline, htab, hreturn⟩ := h
    rw [Atom.escapeByte, if_neg hslash, if_neg hquote, if_neg hnewline, if_neg htab,
      if_neg hreturn]

/-- Reads a byte between literals. Blanks only separate. -/
def stepOutside (r : ExpressionReader) (b : UInt8) : Option ExpressionReader :=
  if b = 0x27 then some { r with mode := .inside [] }
  else if b = 0x20 then some r
  else if b = 0x2F then
    if Piece.complete r.phrase then some { r with phrase := r.phrase ++ [.slash] } else none
  else if b = 0x28 then some { r with phrase := [], around := r.phrase :: r.around }
  else if b = 0x29 then
    match r.around with
    | outer :: around =>
      if Piece.complete r.phrase then
        some { r with phrase := outer ++ [.unit (Piece.tree r.phrase)], around }
      else none
    | [] => none
  else none

/-- Reads a byte. -/
def step (r : ExpressionReader) (b : UInt8) : Option ExpressionReader :=
  match r.mode with
  | .outside => r.stepOutside b
  | .inside read =>
    if b = 0x27 then
      some { r with mode := .outside, phrase := r.phrase ++ [.unit (.literal read)] }
    else if b = 0x5C then some { r with mode := .escaped read }
    else some { r with mode := .inside (read ++ [b]) }
  | .escaped read => (unescape? b).map fun c ↦ { r with mode := .inside (read ++ [c]) }

/-- Reads bytes in order. -/
def run (r : ExpressionReader) (text : Bytes) : Option ExpressionReader := text.foldlM step r

/-- The tree that a text is a parsing expression of. -/
def read (text : Bytes) : Option Atom :=
  match run {} text with
  | some { mode := .outside, phrase, around := [] } =>
    if Piece.complete phrase then some (Piece.tree phrase) else none
  | _ => none

theorem run_cons {r r' : ExpressionReader} {b : UInt8} (h : r.step b = some r') (text : Bytes) :
    r.run (b :: text) = r'.run text := by
  rw [run, List.foldlM_cons, h]
  rfl

variable (phrase : List Piece) (around : List (List Piece))

/-- One byte of a pattern is read as it was meant. -/
theorem run_escapeByte (read : Bytes) (b : UInt8) (text : Bytes) :
    run ⟨.inside read, phrase, around⟩ (Atom.escapeByte b ++ text) =
      run ⟨.inside (read ++ [b]), phrase, around⟩ text := by
  rcases escapeByte_cases b with ⟨he, hn⟩ | ⟨c, he, hc, -⟩
  · have hslash : b ≠ 0x5C := fun h ↦ hn (h ▸ List.mem_cons_self)
    have hquote : b ≠ 0x27 := fun h ↦ hn (h ▸ List.mem_cons_of_mem _ List.mem_cons_self)
    rw [he, List.singleton_append]
    apply run_cons
    rw [step]
    dsimp only
    rw [if_neg hquote, if_neg hslash]
  · have hslash : step ⟨.inside read, phrase, around⟩ 0x5C = some ⟨.escaped read, phrase, around⟩ :=
      rfl
    rw [he, List.cons_append, List.singleton_append, run_cons hslash]
    apply run_cons
    rw [step, hc]
    rfl

theorem run_escape (read pattern text : Bytes) :
    run ⟨.inside read, phrase, around⟩ (Atom.escape pattern ++ text) =
      run ⟨.inside (read ++ pattern), phrase, around⟩ text := by
  induction pattern generalizing read with
  | nil => rw [Atom.escape, List.flatMap_nil, List.nil_append, List.append_nil]
  | cons b rest ih =>
    rw [Atom.escape, List.flatMap_cons, List.append_assoc, run_escapeByte, ← Atom.escape, ih,
      List.append_assoc, List.singleton_append]

/-- The text of a literal is read as that literal. -/
theorem run_literal (pattern text : Bytes) :
    run ⟨.outside, phrase, around⟩ (0x27 :: (Atom.escape pattern ++ 0x27 :: text)) =
      run ⟨.outside, phrase ++ [.unit (.literal pattern)], around⟩ text := by
  have hopen : step ⟨.outside, phrase, around⟩ 0x27 = some ⟨.inside [], phrase, around⟩ := rfl
  rw [run_cons hopen, run_escape, List.nil_append]
  exact run_cons rfl text

end ExpressionReader

/-! ### What the text of a tree reads as -/

namespace Atom

mutual

/-- The phrase that the text of an atom reads as. -/
def phrase : Atom → List Piece
  | .sequence parts => phraseAll true parts
  | .choice parts => phraseAll false parts
  | .literal pattern => [.unit (.literal pattern)]
  | .nothing => [.unit .nothing]
  | .hollow kind => [.unit (.hollow kind)]
  | .foreign kind text => [.unit (.foreign kind text)]

/-- The phrase that the texts of the parts of a sequence or of a choice read as. -/
def phraseAll (inSequence : Bool) : List Atom → List Piece
  | [] => []
  | a :: more =>
    let after :=
      if more.isEmpty then []
      else if inSequence then phraseAll inSequence more
      else .slash :: phraseAll inSequence more
    if inSequence && a.isOpenChoice then .unit (Piece.tree a.phrase) :: after
    else a.phrase ++ after

end

/-- What the text of a part of a sequence or of a choice reads as. -/
def partPhrase (inSequence : Bool) (a : Atom) : List Piece :=
  if inSequence && a.isOpenChoice then [.unit (Piece.tree a.phrase)] else a.phrase

@[simp] theorem phrase_group (k : Bool) (parts : List Atom) :
    (group k parts).phrase = phraseAll k parts := by
  cases k <;> rfl

theorem phraseAll_singleton (k : Bool) (a : Atom) : phraseAll k [a] = partPhrase k a := by
  simp [phraseAll, partPhrase]

theorem phraseAll_sequence (a b : Atom) (rest : List Atom) :
    phraseAll true (a :: b :: rest) = partPhrase true a ++ phraseAll true (b :: rest) := by
  rw [phraseAll, partPhrase]
  split <;> rfl

theorem phraseAll_choice (a b : Atom) (rest : List Atom) :
    phraseAll false (a :: b :: rest) = a.phrase ++ .slash :: phraseAll false (b :: rest) := by
  rw [phraseAll]
  rfl

/-- Whether an atom is a literal, or a group of at least one part. -/
def isFilled : Atom → Bool
  | .literal _ => true
  | .sequence parts => !parts.isEmpty
  | .choice parts => !parts.isEmpty
  | .nothing => false
  | .hollow _ => false
  | .foreign _ _ => false

/-- Every atom of the tree is a literal, or a group of at least one part. -/
def Filled (a : Atom) : Prop := ∀ x ∈ a.places [], x.2.isFilled = true

instance (a : Atom) : Decidable a.Filled :=
  inferInstanceAs (Decidable (∀ x ∈ a.places [], x.2.isFilled = true))

/-- Something holds of every atom of a group if it holds of the group itself and of every atom of
its parts. -/
theorem forall_places_group_iff {P : Atom → Prop} {k : Bool} {parts : List Atom} :
    (∀ x ∈ (group k parts).places [], P x.2) ↔
      P (group k parts) ∧ ∀ a ∈ parts, ∀ x ∈ a.places [], P x.2 := by
  cases k with
  | true => exact forall_places_sequence
  | false => exact forall_places_choice

/-- Induction over trees without empty groups. -/
theorem Filled.induction {motive : (a : Atom) → a.Filled → Prop}
    (literal : ∀ pattern h, motive (.literal pattern) h)
    (group : ∀ k a parts h, (∀ b ∈ a :: parts, ∃ hb : b.Filled, motive b hb) →
      motive (.group k (a :: parts)) h)
    (a : Atom) (h : a.Filled) : motive a h := by
  have hgroup (k : Bool) (parts : List Atom) (h : (Atom.group k parts).Filled)
      (ih : ∀ b ∈ parts, ∀ hb : b.Filled, motive b hb) : motive (Atom.group k parts) h := by
    obtain ⟨hne, hall⟩ := (forall_places_group_iff (P := fun b ↦ b.isFilled = true)).mp h
    match parts with
    | [] => cases k <;> cases hne
    | a :: rest => exact group k a rest h fun b hb ↦ ⟨hall b hb, ih b hb (hall b hb)⟩
  induction a with
  | literal pattern => exact literal pattern h
  | sequence parts ih => exact hgroup true parts h ih
  | choice parts ih => exact hgroup false parts h ih
  | nothing | hollow _ | foreign _ _ => exact absurd (h _ List.mem_cons_self) (by simp [isFilled])

/-! ### Reading the text of a tree -/

theorem full_partPhrase (k : Bool) {a : Atom} (h : Piece.Full a.phrase) :
    Piece.Full (partPhrase k a) := by
  unfold partPhrase
  split
  · apply Piece.Full.unit
    rw [Piece.leaves_tree]
    exact h.leaves_pos
  · exact h

theorem full_phraseAll (k : Bool) {a : Atom} {more : List Atom}
    (h : ∀ b ∈ a :: more, Piece.Full b.phrase) : Piece.Full (phraseAll k (a :: more)) := by
  induction more generalizing a with
  | nil =>
    rw [phraseAll_singleton]
    exact full_partPhrase k (h a List.mem_cons_self)
  | cons b more ih =>
    rw [List.forall_mem_cons] at h
    cases k with
    | true =>
      rw [phraseAll_sequence]
      exact .append (full_partPhrase true h.1) (ih h.2)
    | false =>
      rw [phraseAll_choice]
      exact .slash h.1 (ih h.2)

/-- The text of a tree without empty groups reads as a full phrase. -/
theorem full_phrase (a : Atom) (h : a.Filled) : Piece.Full a.phrase := by
  induction a, h using Filled.induction with
  | literal pattern => exact .unit Nat.one_pos
  | group k a parts _ ih =>
    rw [phrase_group]
    exact full_phraseAll k fun b hb ↦ (ih b hb).choose_spec

-- The text of a part of a sequence or of a choice, followed by `rest`.
private def writePart (inSequence : Bool) (rest : Bytes) (a : Atom) : Bytes :=
  if inSequence && a.isOpenChoice then 0x28 :: a.write (0x29 :: rest) else a.write rest

private theorem writeAll_singleton (k : Bool) (rest : Bytes) (a : Atom) :
    writeAll k rest [a] = writePart k rest a := by
  simp [writeAll, writePart]

private theorem writeAll_cons_cons (k : Bool) (rest : Bytes) (a b : Atom) (more : List Atom) :
    writeAll k rest (a :: b :: more) =
      writePart k (separator k ++ writeAll k rest (b :: more)) a := by
  rw [writeAll, writePart]
  rfl

/-- Reading the text of a tree adds its phrase to the phrase around, whatever follows. -/
def ReadsAsPhrase (a : Atom) : Prop :=
  ∀ phrase around rest, ExpressionReader.run ⟨.outside, phrase, around⟩ (a.write rest) =
    ExpressionReader.run ⟨.outside, phrase ++ a.phrase, around⟩ rest

open ExpressionReader (run run_cons)

private theorem run_writePart (k : Bool) {a : Atom} (hfull : Piece.Full a.phrase)
    (h : a.ReadsAsPhrase) (phrase : List Piece) (around : List (List Piece)) (rest : Bytes) :
    run ⟨.outside, phrase, around⟩ (writePart k rest a) =
      run ⟨.outside, phrase ++ partPhrase k a, around⟩ rest := by
  unfold writePart partPhrase
  split
  · have hopen : ExpressionReader.step ⟨.outside, phrase, around⟩ 0x28 =
        some ⟨.outside, [], phrase :: around⟩ := rfl
    rw [run_cons hopen, h, List.nil_append]
    apply run_cons
    have hcomplete : Piece.complete a.phrase = true := hfull.complete_append []
    simp [ExpressionReader.step, ExpressionReader.stepOutside, hcomplete]
  · exact h phrase around rest

private theorem run_separator (k : Bool) {phrase : List Piece} (h : Piece.complete phrase = true)
    (around : List (List Piece)) (rest : Bytes) :
    run ⟨.outside, phrase, around⟩ (separator k ++ rest) =
      run ⟨.outside, phrase ++ (if k then [] else [.slash]), around⟩ rest := by
  cases k with
  | true =>
    rw [if_pos rfl, List.append_nil]
    exact run_cons rfl rest
  | false =>
    have hblank : ExpressionReader.step ⟨.outside, phrase, around⟩ 0x20 =
        some ⟨.outside, phrase, around⟩ := rfl
    have hslash : ExpressionReader.step ⟨.outside, phrase, around⟩ 0x2F =
        some ⟨.outside, phrase ++ [.slash], around⟩ := by
      simp [ExpressionReader.step, ExpressionReader.stepOutside, h]
    change run _ (0x20 :: 0x2F :: 0x20 :: rest) = _
    rw [run_cons hblank, run_cons hslash]
    exact run_cons rfl rest

private theorem run_writeAll (k : Bool) {a : Atom} {more : List Atom}
    (h : ∀ b ∈ a :: more, ∃ _ : b.Filled, b.ReadsAsPhrase) (phrase : List Piece)
    (around : List (List Piece)) (rest : Bytes) :
    run ⟨.outside, phrase, around⟩ (writeAll k rest (a :: more)) =
      run ⟨.outside, phrase ++ phraseAll k (a :: more), around⟩ rest := by
  induction more generalizing a phrase with
  | nil =>
    obtain ⟨hfilled, hreads⟩ := h a List.mem_cons_self
    rw [writeAll_singleton, run_writePart k (full_phrase a hfilled) hreads, phraseAll_singleton]
  | cons b more ih =>
    rw [List.forall_mem_cons] at h
    obtain ⟨⟨hfilled, hreads⟩, hmore⟩ := h
    have hfull := full_phrase a hfilled
    rw [writeAll_cons_cons, run_writePart k hfull hreads,
      run_separator k ((full_partPhrase k hfull).complete_append phrase), ih hmore]
    cases k with
    | true => rw [phraseAll_sequence, if_pos rfl, List.append_nil, List.append_assoc]
    | false => simp [phraseAll_choice, partPhrase]

/-- The text of a tree without empty groups reads as the phrase of the tree. -/
theorem readsAsPhrase (a : Atom) (h : a.Filled) : a.ReadsAsPhrase := by
  induction a, h using Filled.induction with
  | literal pattern =>
    intro phrase around rest
    exact ExpressionReader.run_literal phrase around pattern rest
  | group k a parts _ ih =>
    intro phrase around rest
    have hwrite : (Atom.group k (a :: parts)).write rest = writeAll k rest (a :: parts) := by
      cases k <;> rfl
    rw [hwrite, phrase_group]
    exact run_writeAll k ih phrase around rest

/-- The text of a tree without empty groups can be read, as the tree of its phrase. -/
theorem read_write (a : Atom) (h : a.Filled) :
    ExpressionReader.read (a.write []) = some (Piece.tree a.phrase) := by
  have hrun : run {} (a.write []) = some ⟨.outside, a.phrase, []⟩ := a.readsAsPhrase h [] [] []
  have hcomplete : Piece.complete a.phrase = true := (a.full_phrase h).complete_append []
  rw [ExpressionReader.read, hrun]
  dsimp only
  rw [if_pos hcomplete]

end Atom

end GrammarCode
