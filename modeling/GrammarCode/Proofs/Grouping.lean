import GrammarCode.Proofs.ExpressionReader

/-!
# Grouping in the text of a tree

Parentheses stand around a choice of several parts that is itself a part of a sequence. A choice of
one part around it makes them disappear, and then the slash reaches over its neighbours in the
sequence. `Atom.Grouped` says where that does not happen. There the text reads as the tree it was
written from, up to simplification; everywhere else it reads as a tree that keeps more leaves apart.
-/

namespace GrammarCode

/-! ### Hidden choices -/

namespace Atom

mutual

/-- Whether an atom is written as a choice of several parts, but does not look like one: the choice
stands in a choice of one part, and that in nothing but groups of one part. -/
def hides : Atom → Bool
  | .sequence parts => hidesIn true parts
  | .choice parts => hidesIn false parts
  | .literal _ => false
  | .nothing => false
  | .hollow _ => false
  | .foreign _ _ => false

/-- Whether a sequence or a choice of these parts hides a choice. -/
def hidesIn (inSequence : Bool) : List Atom → Bool
  | [] => false
  | a :: rest => rest.isEmpty && (a.hides || (!inSequence && a.isOpenChoice))

end

/-- Whether an atom is a sequence of several parts, one of which hides a choice. -/
def scatters : Atom → Bool
  | .sequence parts => decide (1 < parts.length) && parts.any hides
  | _ => false

/-- Every choice in the tree keeps to its own part of the sequences around it. -/
def Grouped (a : Atom) : Prop := ∀ x ∈ a.places [], x.2.scatters = false

instance (a : Atom) : Decidable a.Grouped :=
  inferInstanceAs (Decidable (∀ x ∈ a.places [], x.2.scatters = false))

theorem grouped_group_iff {k : Bool} {parts : List Atom} :
    (group k parts).Grouped ↔ (group k parts).scatters = false ∧ ∀ a ∈ parts, a.Grouped :=
  forall_places_group_iff (P := fun a ↦ a.scatters = false)

@[simp] theorem hides_group (k : Bool) (parts : List Atom) :
    (group k parts).hides = hidesIn k parts := by
  cases k <;> rfl

theorem hidesIn_singleton (k : Bool) (a : Atom) :
    hidesIn k [a] = (a.hides || (!k && a.isOpenChoice)) := by
  simp [hidesIn]

/-- An atom that hides a choice is itself no choice of several parts. -/
theorem isOpenChoice_eq_false_of_hides {a : Atom} (h : a.hides = true) :
    a.isOpenChoice = false := by
  match a with
  | .choice (_ :: _ :: _) => cases h
  | .choice [] => rfl
  | .choice [_] => rfl
  | .sequence _ => rfl

/-- A hidden choice is written without parentheses. -/
theorem partPhrase_of_hides (k : Bool) {a : Atom} (h : a.hides = true) :
    partPhrase k a = a.phrase := by
  rw [partPhrase, isOpenChoice_eq_false_of_hides h, Bool.and_false]
  rfl

end Atom

/-! ### What the text keeps -/

namespace Piece

/-- The parts of the choice that a phrase is, simplified. -/
def alternatives (phrase : List Piece) : List Atom := Atom.simplifyAll false (parts phrase)

theorem simplify_tree (xs : List Piece) : (tree xs).simplify = .bundle false (alternatives xs) :=
  Atom.simplify_bundle false (parts xs)

theorem alternatives_append_slash (xs ys : List Piece) :
    alternatives (xs ++ .slash :: ys) = alternatives xs ++ alternatives ys := by
  rw [alternatives, parts_append_slash, Atom.simplifyAll_append, alternatives, alternatives]

/-- Units that make up a simplified atom are the one alternative that it is. -/
theorem alternatives_units {us : List Atom} {a : Atom}
    (h : Atom.simplifyAll true us = Atom.spread true a.simplify) :
    alternatives (us.map .unit) = Atom.spread false a.simplify := by
  rw [alternatives, parts_units, Atom.simplifyAll_singleton, Atom.simplify_bundle, h,
    a.simple_simplify.bundle_spread]

end Piece

namespace Atom

/-- The phrase of an atom means the atom: as a choice always, and as a part of a sequence unless
the atom is a choice, shown or hidden. -/
structure Kept (a : Atom) : Prop where
  alternatives : Piece.alternatives a.phrase = spread false a.simplify
  units : a.isOpenChoice = false → a.hides = false →
    ∃ us : List Atom, a.phrase = us.map .unit ∧ simplifyAll true us = spread true a.simplify

/-- An atom that means itself as a part of a sequence does so as a choice. -/
theorem Kept.of_units {a : Atom}
    (h : ∃ us : List Atom, a.phrase = us.map .unit ∧ simplifyAll true us = spread true a.simplify) :
    a.Kept := by
  obtain ⟨us, hphrase, hus⟩ := h
  refine ⟨?_, fun _ _ ↦ ⟨us, hphrase, hus⟩⟩
  rw [hphrase, Piece.alternatives_units hus]

/-- The tree of the phrase of an atom is the atom, up to simplification. -/
theorem Kept.simplify_tree {a : Atom} (h : a.Kept) :
    (Piece.tree a.phrase).simplify = a.simplify := by
  rw [Piece.simplify_tree, h.alternatives, a.simple_simplify.bundle_spread]

private theorem Kept.units_partPhrase {a : Atom} (h : a.Kept) (hhides : a.hides = false) :
    ∃ us : List Atom, partPhrase true a = us.map .unit ∧
      simplifyAll true us = spread true a.simplify := by
  unfold partPhrase
  cases hopen : a.isOpenChoice with
  | true =>
    refine ⟨[Piece.tree a.phrase], rfl, ?_⟩
    rw [simplifyAll_singleton, h.simplify_tree]
  | false => exact h.units hopen hhides

private theorem units_phraseAll {a : Atom} {more : List Atom} (h : ∀ b ∈ a :: more, b.Kept)
    (hhides : ∀ b ∈ a :: more, b.hides = false) :
    ∃ us : List Atom, phraseAll true (a :: more) = us.map .unit ∧
      simplifyAll true us = simplifyAll true (a :: more) := by
  induction more generalizing a with
  | nil =>
    rw [phraseAll_singleton, simplifyAll_singleton]
    exact (h a List.mem_cons_self).units_partPhrase (hhides a List.mem_cons_self)
  | cons b more ih =>
    rw [List.forall_mem_cons] at h hhides
    obtain ⟨us, hphrase, hus⟩ := h.1.units_partPhrase hhides.1
    obtain ⟨vs, hphrases, hvs⟩ := ih h.2 hhides.2
    refine ⟨us ++ vs, ?_, ?_⟩
    · rw [phraseAll_sequence, hphrase, hphrases, List.map_append]
    · rw [simplifyAll_append, hus, hvs]
      rfl

private theorem alternatives_phraseAll {a : Atom} {more : List Atom}
    (h : ∀ b ∈ a :: more, b.Kept) :
    Piece.alternatives (phraseAll false (a :: more)) = simplifyAll false (a :: more) := by
  induction more generalizing a with
  | nil =>
    rw [phraseAll_singleton, simplifyAll_singleton]
    exact (h a List.mem_cons_self).alternatives
  | cons b more ih =>
    rw [List.forall_mem_cons] at h
    rw [phraseAll_choice, Piece.alternatives_append_slash, h.1.alternatives, ih h.2]
    rfl

private theorem kept_choice {a : Atom} {more : List Atom} (h : ∀ b ∈ a :: more, b.Kept) :
    (group false (a :: more)).Kept := by
  constructor
  · rw [phrase_group, spread_simplify_group]
    exact alternatives_phraseAll h
  · intro hopen hhides
    match more with
    | [] =>
      rw [hides_group, hidesIn_singleton, Bool.or_eq_false_iff] at hhides
      rw [phrase_group, phraseAll_singleton, simplify_group_singleton]
      exact (h a List.mem_cons_self).units hhides.2 hhides.1
    | _ :: _ => cases hopen

private theorem kept_sequence {a : Atom} {more : List Atom} (h : ∀ b ∈ a :: more, b.Kept)
    (hscatters : (group true (a :: more)).scatters = false) : (group true (a :: more)).Kept := by
  cases hany : (a :: more).any hides with
  | false =>
    have hhides : ∀ b ∈ a :: more, b.hides = false := by simpa using hany
    apply Kept.of_units
    rw [phrase_group, spread_simplify_group]
    exact units_phraseAll h hhides
  | true =>
    -- The part that hides a choice is the only part, so that nothing stands beside it.
    match more with
    | _ :: _ =>
      rw [group, scatters, hany] at hscatters
      simp at hscatters
    | [] =>
      have hhides : a.hides = true := by simpa using hany
      have hphrase : (group true [a]).phrase = a.phrase := by
        rw [phrase_group, phraseAll_singleton, partPhrase_of_hides true hhides]
      constructor
      · rw [hphrase, simplify_group_singleton]
        exact (h a List.mem_cons_self).alternatives
      · intro _ hgroup
        rw [hides_group, hidesIn_singleton, hhides] at hgroup
        cases hgroup

/-- The phrase of a grouped tree means the tree. -/
theorem kept_of_grouped (a : Atom) (h : a.Filled) (hgrouped : a.Grouped) : a.Kept := by
  induction a, h using Filled.induction with
  | literal pattern => exact .of_units ⟨[.literal pattern], rfl, rfl⟩
  | group k a more _ ih =>
    obtain ⟨hscatters, hparts⟩ := grouped_group_iff.mp hgrouped
    have hkept (b : Atom) (hb : b ∈ a :: more) : b.Kept := (ih b hb).choose_spec (hparts b hb)
    cases k with
    | true => exact kept_sequence hkept hscatters
    | false => exact kept_choice hkept

end Atom

/-! ### What the text loses -/

namespace Piece

/-- How many leaves stand behind the first slash. -/
def behind : List Piece → Nat
  | [] => 0
  | .unit _ :: rest => behind rest
  | .slash :: rest => leaves rest

/-- How many pairs of leaves are kept apart, by a slash or inside a unit. -/
def parted : List Piece → Nat
  | [] => 0
  | .unit a :: rest => a.parted + a.leaves * behind rest + parted rest
  | .slash :: rest => parted rest

theorem leavesAll_later (xs : List Piece) :
    Atom.leavesAll ((later xs).map (.bundle true)) = behind xs := by
  induction xs with
  | nil => rfl
  | cons x rest ih =>
    cases x with
    | unit a => exact ih
    | slash => exact leavesAll_parts rest

/-- The tree of a phrase keeps apart what the phrase does. -/
theorem parted_tree (xs : List Piece) : (tree xs).parted = parted xs := by
  rw [tree, Atom.parted_bundle]
  induction xs with
  | nil => rfl
  | cons x rest ih =>
    rw [parts, List.map_cons, Atom.partedAll, Atom.parted_bundle, Atom.leaves_bundle,
      leavesAll_later] at ih
    cases x with
    | unit a =>
      rw [parts, first, later, List.map_cons, Atom.partedAll, Atom.parted_bundle,
        Atom.leaves_bundle, leavesAll_later, parted, ← ih, Atom.partedAll, Atom.leavesAll]
      simp only [Bool.false_eq_true, ite_false, ite_true, Nat.add_mul]
      omega
    | slash =>
      rw [parts, first, later, List.map_cons, List.map_cons, Atom.partedAll, Atom.partedAll,
        Atom.parted_bundle, Atom.parted_bundle, Atom.leaves_bundle, Atom.leaves_bundle,
        leavesAll_later, parted, ← ih]
      simp [Atom.partedAll, Atom.leavesAll]

theorem parted_singleton (a : Atom) : parted [.unit a] = a.parted := by
  simp [parted, behind]

theorem behind_append_slash (xs ys : List Piece) :
    behind (xs ++ .slash :: ys) = behind xs + leaves ys := by
  induction xs with
  | nil => simp [behind]
  | cons x rest ih =>
    cases x with
    | unit a => exact ih
    | slash => simp [behind, leaves_append, leaves]

theorem parted_append_slash (xs ys : List Piece) :
    parted (xs ++ .slash :: ys) = parted xs + leaves xs * leaves ys + parted ys := by
  induction xs with
  | nil => simp [parted, leaves]
  | cons x rest ih =>
    cases x with
    | unit a =>
      rw [List.cons_append, parted, parted, ih, behind_append_slash, leaves]
      simp only [Nat.mul_add, Nat.add_mul]
      omega
    | slash => rw [List.cons_append, parted, parted, ih, leaves]

theorem behind_le_append (xs ys : List Piece) : behind xs ≤ behind (xs ++ ys) := by
  induction xs with
  | nil => exact Nat.zero_le _
  | cons x rest ih =>
    cases x with
    | unit a => exact ih
    | slash =>
      rw [List.cons_append, behind, behind, leaves_append]
      omega

theorem parted_add_le_append (xs ys : List Piece) : parted xs + parted ys ≤ parted (xs ++ ys) := by
  induction xs with
  | nil => simp [parted]
  | cons x rest ih =>
    cases x with
    | unit a =>
      have hmul := Nat.mul_le_mul_left a.leaves (behind_le_append rest ys)
      rw [List.cons_append, parted, parted]
      omega
    | slash => exact ih

/-- Leaves added at the end stand behind the first slash, if there is one. -/
theorem behind_lt_append {xs ys : List Piece} (hleaves : 0 < leaves ys)
    (hbehind : .slash ∈ ys → 0 < behind ys) (h : .slash ∈ xs ++ ys) :
    behind xs < behind (xs ++ ys) := by
  induction xs with
  | nil => exact hbehind h
  | cons x rest ih =>
    cases x with
    | unit a =>
      apply ih
      simpa using h
    | slash =>
      rw [List.cons_append, behind, behind, leaves_append]
      omega

theorem Full.behind_pos {xs : List Piece} (h : Full xs) (hslash : .slash ∈ xs) :
    0 < behind xs := by
  induction h with
  | unit _ => simp at hslash
  | append _ hy _ ihy => exact Nat.zero_lt_of_lt (behind_lt_append hy.leaves_pos ihy hslash)
  | slash _ hy _ _ =>
    rw [behind_append_slash]
    have := hy.leaves_pos
    omega

theorem Full.eq_cons {xs : List Piece} (h : Full xs) :
    ∃ a rest, xs = .unit a :: rest ∧ 0 < a.leaves := by
  induction h with
  | @unit a h => exact ⟨a, [], rfl, h⟩
  | append _ _ ihx _ =>
    obtain ⟨a, rest, rfl, ha⟩ := ihx
    exact ⟨a, _, rfl, ha⟩
  | slash _ _ ihx _ =>
    obtain ⟨a, rest, rfl, ha⟩ := ihx
    exact ⟨a, _, rfl, ha⟩

/-- Full phrases side by side keep more leaves apart than each on its own, if there is a slash. -/
theorem Full.parted_add_lt_append {xs ys : List Piece} (hx : Full xs) (hy : Full ys)
    (h : .slash ∈ xs ++ ys) : parted xs + parted ys < parted (xs ++ ys) := by
  -- The first unit makes the difference: more leaves than before stand behind a slash after it.
  obtain ⟨a, rest, rfl, ha⟩ := hx.eq_cons
  have hslash : .slash ∈ rest ++ ys := by simpa using h
  have hlt := Nat.mul_lt_mul_of_pos_left
    (behind_lt_append hy.leaves_pos hy.behind_pos hslash) ha
  have hle := parted_add_le_append rest ys
  rw [List.cons_append, parted, parted]
  omega

end Piece

namespace Atom

private theorem leaves_partPhrase (k : Bool) (a : Atom) :
    Piece.leaves (partPhrase k a) = Piece.leaves a.phrase := by
  unfold partPhrase
  split
  · simp [Piece.leaves, Piece.leaves_tree]
  · rfl

private theorem leaves_phraseAll (k : Bool) {parts : List Atom}
    (h : ∀ a ∈ parts, Piece.leaves a.phrase = a.leaves) :
    Piece.leaves (phraseAll k parts) = leavesAll parts := by
  induction parts with
  | nil => rfl
  | cons a more ih =>
    rw [List.forall_mem_cons] at h
    match more with
    | [] => rw [phraseAll_singleton, leaves_partPhrase, h.1, leavesAll_singleton]
    | b :: more =>
      cases k with
      | true =>
        rw [phraseAll_sequence, Piece.leaves_append, leaves_partPhrase, h.1, ih h.2]
        rfl
      | false =>
        rw [phraseAll_choice, Piece.leaves_append, Piece.leaves, h.1, ih h.2]
        rfl

/-- The text of a tree has the leaves of the tree. -/
theorem leaves_phrase (a : Atom) : Piece.leaves a.phrase = a.leaves := by
  induction a with
  | literal _ | nothing | hollow _ | foreign _ _ => rfl
  | sequence parts ih => exact leaves_phraseAll true ih
  | choice parts ih => exact leaves_phraseAll false ih

private theorem parted_partPhrase (k : Bool) (a : Atom) :
    Piece.parted (partPhrase k a) = Piece.parted a.phrase := by
  unfold partPhrase
  split
  · rw [Piece.parted_singleton, Piece.parted_tree]
  · rfl

private theorem parted_phraseAll_cons_cons (k : Bool) (a b : Atom) (more : List Atom) :
    Piece.parted a.phrase + (if k then 0 else a.leaves * leavesAll (b :: more)) +
      Piece.parted (phraseAll k (b :: more)) ≤ Piece.parted (phraseAll k (a :: b :: more)) := by
  cases k with
  | true =>
    rw [phraseAll_sequence, ← parted_partPhrase true a]
    exact Piece.parted_add_le_append ..
  | false =>
    have hmore : Piece.leaves (phraseAll false (b :: more)) = leavesAll (b :: more) :=
      (choice (b :: more)).leaves_phrase
    rw [phraseAll_choice, Piece.parted_append_slash, leaves_phrase, hmore]
    exact Nat.le_refl _

private theorem partedAll_le_phraseAll (k : Bool) {parts : List Atom}
    (h : ∀ a ∈ parts, a.parted ≤ Piece.parted a.phrase) :
    partedAll k parts ≤ Piece.parted (phraseAll k parts) := by
  induction parts with
  | nil => exact Nat.le_refl _
  | cons a more ih =>
    rw [List.forall_mem_cons] at h
    match more with
    | [] =>
      rw [partedAll_singleton, phraseAll_singleton, parted_partPhrase]
      exact h.1
    | b :: more =>
      have hcons := parted_phraseAll_cons_cons k a b more
      have hmore := ih h.2
      rw [partedAll]
      omega

/-- The text of a tree keeps apart at least what the tree keeps apart. -/
theorem parted_le_phrase (a : Atom) : a.parted ≤ Piece.parted a.phrase := by
  induction a with
  | literal _ | nothing | hollow _ | foreign _ _ => exact Nat.le_refl _
  | sequence parts ih => exact partedAll_le_phraseAll true ih
  | choice parts ih => exact partedAll_le_phraseAll false ih

private theorem parted_eq_of_mem {k : Bool} {parts : List Atom}
    (h : partedAll k parts = Piece.parted (phraseAll k parts)) :
    ∀ a ∈ parts, a.parted = Piece.parted a.phrase := by
  induction parts with
  | nil => simp
  | cons a more ih =>
    match more with
    | [] =>
      rw [partedAll_singleton, phraseAll_singleton, parted_partPhrase] at h
      simpa using h
    | b :: more =>
      have hcons := parted_phraseAll_cons_cons k a b more
      have ha := a.parted_le_phrase
      have hmore := partedAll_le_phraseAll k fun c (_ : c ∈ b :: more) ↦ c.parted_le_phrase
      rw [partedAll] at h
      exact List.forall_mem_cons.mpr ⟨by omega, ih (by omega)⟩

private theorem slash_mem_of_isOpenChoice {a : Atom} (h : a.isOpenChoice = true) :
    .slash ∈ a.phrase := by
  match a with
  | .choice (_ :: _ :: _) =>
    rw [phrase, phraseAll_choice]
    simp

private theorem slash_mem_of_hidesIn {k : Bool} {parts : List Atom} (h : hidesIn k parts = true)
    (ih : ∀ b ∈ parts, b.hides = true → .slash ∈ b.phrase) : .slash ∈ phraseAll k parts := by
  match parts with
  | [] | _ :: _ :: _ => cases h
  | [b] =>
    rw [phraseAll_singleton]
    rw [hidesIn_singleton, Bool.or_eq_true, Bool.and_eq_true, Bool.not_eq_true'] at h
    rcases h with h | ⟨rfl, h⟩
    · rw [partPhrase_of_hides k h]
      exact ih b List.mem_cons_self h
    · exact slash_mem_of_isOpenChoice h

/-- A hidden choice shows its slash. -/
theorem slash_mem_of_hides {a : Atom} (h : a.hides = true) : .slash ∈ a.phrase := by
  induction a with
  | literal _ | nothing | hollow _ | foreign _ _ => cases h
  | sequence parts ih => exact slash_mem_of_hidesIn h ih
  | choice parts ih => exact slash_mem_of_hidesIn h ih

private theorem slash_mem_phraseAll {parts : List Atom} {b : Atom} (hb : b ∈ parts)
    (h : b.hides = true) : .slash ∈ phraseAll true parts := by
  induction parts with
  | nil => cases hb
  | cons a more ih =>
    have hself (heq : b = a) : .slash ∈ partPhrase true a := by
      subst heq
      rw [partPhrase_of_hides true h]
      exact slash_mem_of_hides h
    match more with
    | [] =>
      rw [phraseAll_singleton]
      exact hself (List.mem_singleton.mp hb)
    | c :: more =>
      rw [phraseAll_sequence, List.mem_append]
      exact (List.mem_cons.mp hb).imp hself ih

/-- The text of a sequence in which a choice is hidden keeps apart what the sequence does not. -/
theorem parted_lt_of_scatters {a : Atom} (h : a.Filled) (hscatters : a.scatters = true) :
    a.parted < Piece.parted a.phrase := by
  match a with
  | .sequence [] | .sequence [_] => simp [scatters] at hscatters
  | .sequence (a :: b :: more) =>
    obtain ⟨c, hc, hhides⟩ : ∃ c ∈ a :: b :: more, c.hides = true := by
      simpa [scatters] using hscatters
    have hparts := (forall_places_sequence (P := fun c ↦ c.isFilled = true)).mp h |>.2
    have hfull (c : Atom) (hc : c ∈ a :: b :: more) : Piece.Full c.phrase :=
      full_phrase c (hparts c hc)
    have hslash := slash_mem_phraseAll hc hhides
    rw [phraseAll_sequence] at hslash
    have hlt := (full_partPhrase true (hfull a List.mem_cons_self)).parted_add_lt_append
      (full_phraseAll true fun c hc ↦ hfull c (List.mem_cons_of_mem a hc)) hslash
    have ha := a.parted_le_phrase
    have hmore := partedAll_le_phraseAll true fun c (_ : c ∈ b :: more) ↦ c.parted_le_phrase
    rw [parted_partPhrase] at hlt
    rw [parted, partedAll, phrase, phraseAll_sequence, if_pos rfl]
    omega

/-- Where the text keeps apart no more than the tree, no choice is hidden in a sequence. -/
theorem grouped_of_parted_eq (a : Atom) (h : a.Filled) (heq : a.parted = Piece.parted a.phrase) :
    a.Grouped := by
  induction a, h using Filled.induction with
  | literal pattern => simp [Grouped, places, scatters]
  | group k a more h ih =>
    refine grouped_group_iff.mpr ⟨?_, ?_⟩
    · rw [← Bool.not_eq_true]
      intro hscatters
      exact Nat.ne_of_lt (parted_lt_of_scatters h hscatters) heq
    · rw [parted_group, phrase_group] at heq
      intro b hb
      exact (ih b hb).choose_spec (parted_eq_of_mem heq b hb)

/-- The tree of the phrase of a tree is that tree, up to simplification, exactly if the tree is
grouped. -/
theorem simplify_tree_phrase_iff {a : Atom} (h : a.Filled) :
    (Piece.tree a.phrase).simplify = a.simplify ↔ a.Grouped := by
  constructor
  · -- Simplifying parts nothing and joins nothing, so the phrase parts no more than the tree.
    intro heq
    apply grouped_of_parted_eq a h
    rw [← Piece.parted_tree, ← parted_simplify (Piece.tree a.phrase), heq, parted_simplify]
  · intro hgrouped
    exact (kept_of_grouped a h hgrouped).simplify_tree

/-! ### Reading the text back -/

theorem Filled.plain {a : Atom} (h : a.Filled) : a.Plain := by
  intro x hx
  have hfilled := h x hx
  match x with
  | (_, .literal _) | (_, .sequence _) | (_, .choice _) => rfl

theorem Filled.text?_eq {a : Atom} (h : a.Filled) : a.text? = some (a.write []) := by
  rw [text?, hasHollow_eq_false [] a h.plain]
  rfl

/-- The text of a tree without empty groups can be read back. It reads as the tree, up to
simplification, exactly if no choice is hidden in a sequence; and among the trees with the text of a
grouped tree, those that mean the same are the grouped ones. -/
theorem read_text_iff_grouped (a : Atom) (h : a.Filled) :
    (∃ text t, a.text? = some text ∧ ExpressionReader.read text = some t ∧
      (t.simplify = a.simplify ↔ a.Grouped)) ∧
      ∀ b : Atom, b.Filled → a.text? = b.text? → a.Grouped →
        (a.simplify = b.simplify ↔ b.Grouped) := by
  refine ⟨⟨a.write [], _, h.text?_eq, read_write a h, simplify_tree_phrase_iff h⟩, ?_⟩
  intro b hb htext hgrouped
  rw [h.text?_eq, hb.text?_eq, Option.some.injEq] at htext
  have hread := read_write a h
  rw [htext, read_write b hb, Option.some.injEq] at hread
  rw [← (simplify_tree_phrase_iff h).mpr hgrouped, ← hread]
  exact simplify_tree_phrase_iff hb

/-- A choice beside a choice of one part. -/
theorem read_text_iff_grouped_shown :
    let a : Atom := .sequence [.choice [.literal "a", .literal "b"], .choice [.literal "c"]]
    a.Filled ∧ a.Grouped ∧
      ∃ t, ExpressionReader.read "('a' / 'b') 'c'" = some t ∧ t.simplify = a.simplify := by
  intro a
  have hfilled : a.Filled := by decide
  have hgrouped : a.Grouped := by decide
  obtain ⟨text, t, htext, hread, hiff⟩ := (read_text_iff_grouped a hfilled).1
  have hshown : a.text? = some ("('a' / 'b') 'c'" : Bytes) := by decide
  rw [hshown, Option.some.injEq] at htext
  rw [← htext] at hread
  exact ⟨hfilled, hgrouped, t, hread, hiff.mpr hgrouped⟩

/-- The text of a sequence with a hidden choice is that of a choice that means something else. -/
theorem text_eq_of_hidden :
    let a : Atom := .sequence [.choice [.choice [.literal "a", .literal "b"]], .literal "c"]
    let b : Atom := .choice [.literal "a", .sequence [.literal "b", .literal "c"]]
    a.Filled ∧ b.Filled ∧ a.text? = b.text? ∧ a.simplify ≠ b.simplify ∧
      a.text? = some ("'a' / 'b' 'c'" : Bytes) ∧
      ExpressionReader.read "'a' / 'b' 'c'" = some b := by
  refine ⟨by decide, by decide, by decide, ?_, by decide, by rfl⟩
  intro h
  cases h

end Atom

end GrammarCode
