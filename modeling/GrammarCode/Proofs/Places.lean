import GrammarCode.Compile.Error
import GrammarCode.Proofs.Decimal

/-!
# Places in a tree

Every atom of a tree, missing ones included, stands at a place: the path from the root that leads
to it. `Atom.places` lists the places depth first and from left to right, so that "the first atom
such that" and "the atoms before this one" can be said of a whole tree. A path names its place:
following its steps from the root leads back to the atom that stands there.
-/

namespace GrammarCode

namespace Atom

/-- Induction over trees: a sequence and a choice may use what holds of each of their parts. -/
@[elab_as_elim, induction_eliminator]
theorem induction {motive : Atom → Prop}
    (literal : ∀ pattern, motive (.literal pattern))
    (sequence : ∀ parts, (∀ a ∈ parts, motive a) → motive (.sequence parts))
    (choice : ∀ parts, (∀ a ∈ parts, motive a) → motive (.choice parts))
    (nothing : motive .nothing)
    (hollow : ∀ kind, motive (.hollow kind))
    (foreign : ∀ kind text, motive (.foreign kind text)) (a : Atom) : motive a := by
  refine @Atom.rec motive (fun parts ↦ ∀ a ∈ parts, motive a) literal sequence choice nothing
    hollow foreign ?_ ?_ a
  · intro a ha
    cases ha
  · intro a rest ha hrest b hb
    rcases List.mem_cons.mp hb with rfl | hb
    · exact ha
    · exact hrest b hb

mutual

/-- The atoms of a tree in preorder, each with its path; the tree itself stands at `path`. -/
def places (path : Path) : Atom → List (Path × Atom)
  | .literal pattern => [(path, .literal pattern)]
  | .sequence parts => (path, .sequence parts) :: placesAll .seq path 0 parts
  | .choice parts => (path, .choice parts) :: placesAll .alt path 0 parts
  | .nothing => [(path, .nothing)]
  | .hollow kind => [(path, .hollow kind)]
  | .foreign kind text => [(path, .foreign kind text)]

/-- The places of the parts of an atom of a kind at `path`, the first of which has index
`index`. -/
def placesAll (kind : Kind) (path : Path) (index : Nat) : List Atom → List (Path × Atom)
  | [] => []
  | a :: rest => a.places (⟨kind, index⟩ :: path) ++ placesAll kind path (index + 1) rest

end

/-- The part of an atom that a step leads to. -/
def part? (s : Step) : Atom → Option Atom
  | .sequence parts => if s.kind = .seq then parts[s.index]? else none
  | .choice parts => if s.kind = .alt then parts[s.index]? else none
  | _ => none

/-- The atom that steps lead to, the first step first. -/
def follow? : List Step → Atom → Option Atom
  | [], a => some a
  | s :: rest, a => (a.part? s).bind (follow? rest)

@[simp] theorem follow?_nil (a : Atom) : a.follow? [] = some a := rfl

theorem follow?_cons (s : Step) (rest : List Step) (a : Atom) :
    a.follow? (s :: rest) = (a.part? s).bind (follow? rest) := rfl

/-- A place among the parts of an atom lies in one of them, and its path goes through that part's
index. -/
theorem mem_placesAll_iff (kind : Kind) (path : Path) (index : Nat) (parts : List Atom)
    (x : Path × Atom) :
    x ∈ placesAll kind path index parts ↔
      ∃ (i : Nat) (a : Atom), parts[i]? = some a ∧ x ∈ a.places (⟨kind, index + i⟩ :: path) := by
  induction parts generalizing index with
  | nil => simp [placesAll]
  | cons a rest ih =>
    rw [placesAll, List.mem_append, ih]
    constructor
    · rintro (h | ⟨i, b, hb, h⟩)
      · exact ⟨0, a, rfl, h⟩
      · refine ⟨i + 1, b, hb, ?_⟩
        rw [show index + (i + 1) = index + 1 + i by omega]
        exact h
    · rintro ⟨i, b, hb, h⟩
      cases i with
      | zero =>
        obtain rfl : a = b := Option.some.inj hb
        exact Or.inl h
      | succ i =>
        refine Or.inr ⟨i, b, hb, ?_⟩
        rw [show index + 1 + i = index + (i + 1) by omega]
        exact h

private theorem follow?_leaf {a b : Atom} {steps : List Step} (hn : ∀ s, a.part? s = none)
    (h : a.follow? steps = some b) : steps = [] ∧ b = a := by
  cases steps with
  | nil => exact ⟨rfl, (Option.some.inj h).symm⟩
  | cons s rest =>
    rw [follow?_cons, hn] at h
    cases h

private theorem places_leaf {a b : Atom} {path path' : Path} (hn : ∀ s, a.part? s = none) :
    (path', b) ∈ [(path, a)] ↔
      ∃ steps, path' = steps.reverse ++ path ∧ a.follow? steps = some b := by
  rw [List.mem_singleton, Prod.mk.injEq]
  constructor
  · rintro ⟨rfl, rfl⟩
    exact ⟨[], rfl, rfl⟩
  · rintro ⟨steps, rfl, h⟩
    obtain ⟨rfl, rfl⟩ := follow?_leaf hn h
    exact ⟨rfl, rfl⟩

-- A group is a sequence or a choice: its steps all have one kind and index its parts.
private theorem places_group {a b : Atom} {path path' : Path} {kind : Kind} {parts : List Atom}
    (hp : ∀ s, a.part? s = if s.kind = kind then parts[s.index]? else none)
    (ih : ∀ c ∈ parts, ∀ below : Path, (path', b) ∈ c.places below ↔
      ∃ steps, path' = steps.reverse ++ below ∧ c.follow? steps = some b) :
    (path', b) ∈ (path, a) :: placesAll kind path 0 parts ↔
      ∃ steps, path' = steps.reverse ++ path ∧ a.follow? steps = some b := by
  rw [List.mem_cons, Prod.mk.injEq, mem_placesAll_iff]
  constructor
  · rintro (⟨rfl, rfl⟩ | ⟨i, c, hc, h⟩)
    · exact ⟨[], rfl, rfl⟩
    · obtain ⟨steps, rfl, hs⟩ := (ih c (List.mem_of_getElem? hc) _).mp h
      refine ⟨⟨kind, 0 + i⟩ :: steps, by simp, ?_⟩
      rw [follow?_cons, hp, ite_cond_eq_true _ _ (by simp), Nat.zero_add, hc]
      exact hs
  · rintro ⟨steps, rfl, hs⟩
    cases steps with
    | nil => exact Or.inl ⟨rfl, (Option.some.inj hs).symm⟩
    | cons s rest =>
      rw [follow?_cons, hp] at hs
      split at hs
      · next hk =>
        obtain ⟨c, hc, hs⟩ := Option.bind_eq_some_iff.mp hs
        refine Or.inr ⟨s.index, c, hc, ?_⟩
        refine (ih c (List.mem_of_getElem? hc) _).mpr ⟨rest, ?_, hs⟩
        rw [← hk, Nat.zero_add]
        simp
      · cases hs

/-- The places of a tree are exactly where steps from its root lead. -/
theorem mem_places_iff (path path' : Path) (a b : Atom) :
    (path', b) ∈ a.places path ↔
      ∃ steps, path' = steps.reverse ++ path ∧ a.follow? steps = some b := by
  induction a generalizing path with
  | literal _ => exact places_leaf fun _ ↦ rfl
  | nothing => exact places_leaf fun _ ↦ rfl
  | hollow _ => exact places_leaf fun _ ↦ rfl
  | foreign _ _ => exact places_leaf fun _ ↦ rfl
  | sequence parts ih => exact places_group (fun _ ↦ rfl) ih
  | choice parts ih => exact places_group (fun _ ↦ rfl) ih

-- What holds of every atom of a group holds of the group itself and of every atom of its parts.
private theorem forall_places_group {P : Atom → Prop} {a : Atom} {kind : Kind} {parts : List Atom}
    (hp : ∀ s, a.part? s = if s.kind = kind then parts[s.index]? else none) :
    (∀ x ∈ a.places [], P x.2) ↔ P a ∧ ∀ b ∈ parts, ∀ x ∈ b.places [], P x.2 := by
  constructor
  · intro h
    refine ⟨h ([], a) ((mem_places_iff [] [] a a).mpr ⟨[], rfl, rfl⟩), ?_⟩
    rintro b hb ⟨path, c⟩ hc
    obtain ⟨i, hi⟩ := List.getElem?_of_mem hb
    obtain ⟨steps, -, hs⟩ := (mem_places_iff [] path b c).mp hc
    refine h ((⟨kind, i⟩ :: steps).reverse, c)
      ((mem_places_iff [] _ a c).mpr ⟨⟨kind, i⟩ :: steps, by simp, ?_⟩)
    rw [follow?_cons, hp, if_pos rfl, hi]
    exact hs
  · rintro ⟨ha, hparts⟩ ⟨path, c⟩ hc
    obtain ⟨steps, -, hs⟩ := (mem_places_iff [] path a c).mp hc
    cases steps with
    | nil =>
      obtain rfl : a = c := Option.some.inj hs
      exact ha
    | cons s rest =>
      rw [follow?_cons, hp] at hs
      split at hs
      · obtain ⟨b, hb, hs⟩ := Option.bind_eq_some_iff.mp hs
        exact hparts b (List.mem_of_getElem? hb) (rest.reverse, c)
          ((mem_places_iff [] _ b c).mpr ⟨rest, by simp, hs⟩)
      · cases hs

/-- Something holds of every atom of a sequence if it holds of the sequence itself and of every
atom of its parts. -/
theorem forall_places_sequence {P : Atom → Prop} {parts : List Atom} :
    (∀ x ∈ (sequence parts).places [], P x.2) ↔
      P (.sequence parts) ∧ ∀ a ∈ parts, ∀ x ∈ a.places [], P x.2 :=
  forall_places_group fun _ ↦ rfl

/-- Something holds of every atom of a choice if it holds of the choice itself and of every atom of
its parts. -/
theorem forall_places_choice {P : Atom → Prop} {parts : List Atom} :
    (∀ x ∈ (choice parts).places [], P x.2) ↔
      P (.choice parts) ∧ ∀ a ∈ parts, ∀ x ∈ a.places [], P x.2 :=
  forall_places_group fun _ ↦ rfl

/-- The path of a place, read from the root, leads to the atom that stands there. -/
theorem follow?_of_mem_places {a b : Atom} {path : Path} (h : (path, b) ∈ a.places []) :
    a.follow? path.reverse = some b := by
  obtain ⟨steps, rfl, hs⟩ := (mem_places_iff [] path a b).mp h
  rw [List.append_nil, List.reverse_reverse]
  exact hs

end Atom

/-! ### The text of a path -/

/-- Different steps have different texts. -/
theorem Step.text_inj {s t : Step} (h : s.text = t.text) : s = t := by
  obtain ⟨k, i⟩ := s
  obtain ⟨l, j⟩ := t
  have hname (k : Kind) : (Bytes.ofString k.name).length = 3 := by cases k <;> decide
  simp only [Step.text, Bytes.cat, List.flatten_cons, List.flatten_nil, List.append_nil] at h
  obtain ⟨hk, h⟩ := List.append_inj h (by rw [hname, hname])
  have hkind : k = l := by
    revert hk
    cases k <;> cases l <;> decide
  rw [hkind, Bytes.decimalNat_inj (List.append_cancel_right (List.append_cancel_left h))]

/-- The text of a step holds no dot, so dots separate steps. -/
theorem Step.dot_notMem_text (s : Step) : 0x2E ∉ s.text := by
  intro h
  simp only [Step.text, Bytes.cat, List.flatten_cons, List.flatten_nil, List.append_nil,
    List.mem_append] at h
  rcases h with h | h | h | h
  · revert h
    cases s.kind <;> decide
  · exact absurd h (by decide)
  · exact absurd (Bytes.isDigit_of_mem_decimalNat _ _ h) (by decide)
  · exact absurd h (by decide)

private theorem Step.text_ne_nil (s : Step) : s.text ≠ [] := by
  simp only [Step.text, Bytes.cat]
  cases s.kind <;> simp [Kind.name, Bytes.ofString]

-- The rest of a joined text behind its first piece.
private def dotted (pieces : List Bytes) : Bytes :=
  match pieces with
  | [] => []
  | x :: xs => 0x2E :: Bytes.join [0x2E] (x :: xs)

private theorem join_cons_eq (x : Bytes) (xs : List Bytes) :
    Bytes.join [0x2E] (x :: xs) = x ++ dotted xs := by
  cases xs with
  | nil => simp [dotted]
  | cons y ys => simp [Bytes.join_cons_cons, dotted]

-- Of two pieces without a dot, neither can go on where the other one ends.
private theorem piece_prefix {x y r : Bytes} {xs : List Bytes} (hx : 0x2E ∉ x)
    (he : x = y ++ r) (hr : ∃ t, dotted xs = r ++ t) : r = [] := by
  cases r with
  | nil => rfl
  | cons b r =>
    obtain ⟨t, ht⟩ := hr
    cases xs with
    | nil => simp [dotted] at ht
    | cons z zs =>
      obtain ⟨rfl, -⟩ := List.cons.inj ht
      exact absurd (he ▸ List.mem_append_right y List.mem_cons_self) hx

private theorem piece_inj {x y : Bytes} {xs ys : List Bytes} (hx : 0x2E ∉ x) (hy : 0x2E ∉ y)
    (h : x ++ dotted xs = y ++ dotted ys) : x = y ∧ dotted xs = dotted ys := by
  rcases List.append_eq_append_iff.mp h with ⟨r, he, hr⟩ | ⟨r, he, hr⟩
  · obtain rfl := piece_prefix hy he ⟨_, hr⟩
    exact ⟨by simpa using he.symm, by simpa using hr⟩
  · obtain rfl := piece_prefix hx he ⟨_, hr⟩
    exact ⟨by simpa using he, by simpa using hr.symm⟩

/-- The text of a path tells its steps. -/
theorem join_text_inj {xs ys : List Step}
    (h : Bytes.join [0x2E] (xs.map Step.text) = Bytes.join [0x2E] (ys.map Step.text)) :
    xs = ys := by
  induction xs generalizing ys with
  | nil =>
    cases ys with
    | nil => rfl
    | cons t rest =>
      rw [List.map_cons, join_cons_eq] at h
      exact absurd (List.append_eq_nil_iff.mp h.symm).1 t.text_ne_nil
  | cons s more ih =>
    rw [List.map_cons, join_cons_eq] at h
    cases ys with
    | nil => exact absurd (List.append_eq_nil_iff.mp h).1 s.text_ne_nil
    | cons t rest =>
      rw [List.map_cons, join_cons_eq] at h
      obtain ⟨hst, htail⟩ := piece_inj s.dot_notMem_text t.dot_notMem_text h
      rw [Step.text_inj hst]
      congr 1
      cases more with
      | nil =>
        cases rest with
        | nil => rfl
        | cons t rest => simp [dotted] at htail
      | cons s more =>
        cases rest with
        | nil => simp [dotted] at htail
        | cons t rest => exact ih (List.cons.inj htail).2

end GrammarCode
