import GrammarCode.Compile.Basic
import GrammarCode.Proofs.Emission

/-!
# What compilation gives

A compilation gives the code of the tree or refuses the tree for its first atom at fault; there is
no third outcome. The text of an accepted tree and the count of its atoms exist, and its code is
consistent, so the steps after emission cannot fail.
-/

namespace GrammarCode

namespace Atom

/-- Whether an atom is of one of the variants that a grammar is written with. -/
def isKnown : Atom → Bool
  | .literal _ => true
  | .sequence _ => true
  | .choice _ => true
  | .nothing => false
  | .hollow _ => false
  | .foreign _ _ => false

/-- Every atom of the tree is a literal, a sequence or a choice. -/
def Plain (a : Atom) : Prop := ∀ x ∈ a.places [], x.2.isKnown = true

/-- The limit is none, or every atom of the tree is less deep than it. -/
def AdmittedBy (limit : Int) (a : Atom) : Prop :=
  0 < limit → ∀ x ∈ a.places [], (x.1.length : Int) < limit

instance (a : Atom) : Decidable a.Plain :=
  inferInstanceAs (Decidable (∀ x ∈ a.places [], x.2.isKnown = true))

instance (limit : Int) (a : Atom) : Decidable (a.AdmittedBy limit) :=
  inferInstanceAs (Decidable (0 < limit → ∀ x ∈ a.places [], (x.1.length : Int) < limit))

/-- The parts of a plain atom are plain. -/
theorem Plain.of_part {a b : Atom} {s : Step} (h : a.Plain) (hs : a.part? s = some b) :
    b.Plain := by
  rintro ⟨path, c⟩ hc
  obtain ⟨steps, -, hsteps⟩ := (mem_places_iff [] path b c).mp hc
  refine h ((s :: steps).reverse, c) ((mem_places_iff [] _ a c).mpr ⟨s :: steps, by simp, ?_⟩)
  rw [follow?_cons, hs]
  exact hsteps

theorem Plain.of_mem_sequence {parts : List Atom} (h : Plain (.sequence parts)) :
    ∀ a ∈ parts, a.Plain := by
  intro a ha
  obtain ⟨i, hi⟩ := List.getElem?_of_mem ha
  exact h.of_part (s := ⟨.seq, i⟩) hi

theorem Plain.of_mem_choice {parts : List Atom} (h : Plain (.choice parts)) :
    ∀ a ∈ parts, a.Plain := by
  intro a ha
  obtain ⟨i, hi⟩ := List.getElem?_of_mem ha
  exact h.of_part (s := ⟨.alt, i⟩) hi

/-- A plain atom is itself known. -/
theorem Plain.isKnown {a : Atom} (h : a.Plain) : a.isKnown = true :=
  h ([], a) ((mem_places_iff [] [] a a).mpr ⟨[], rfl, rfl⟩)

/-- The name by which an error calls an atom. -/
def shownKind : Atom → Bytes
  | .literal _ => Kind.str.name
  | .sequence _ => Kind.seq.name
  | .choice _ => Kind.alt.name
  | .nothing => "<nil>"
  | .hollow _ => "<nil>"
  | .foreign kind _ => kind

/-- The program of a tree. -/
def program (fresh : Bytes) (a : Atom) : Program :=
  Program.make fresh [] (a.write []) a.code.instructions.toArray a.code.addresses.toArray

/-! ### The steps after emission -/

private theorem anyHollow_iff (parts : List Atom) :
    anyHollow parts = true ↔ ∃ a ∈ parts, a.hasHollow = true := by
  induction parts with
  | nil => simp [anyHollow]
  | cons a rest ih => simp [anyHollow, ih]

private theorem anyHollow_eq_false (kind : Kind) (path : Path) (parts : List Atom)
    (ih : ∀ a ∈ parts, ∀ path, (∀ x ∈ a.places path, x.2.isKnown = true) → a.hasHollow = false)
    (h : ∀ x ∈ placesAll kind path 0 parts, x.2.isKnown = true) : anyHollow parts = false := by
  rw [Bool.eq_false_iff, ne_eq, anyHollow_iff]
  rintro ⟨a, ha, hh⟩
  obtain ⟨i, hi⟩ := List.getElem?_of_mem ha
  rw [ih a ha (⟨kind, 0 + i⟩ :: path) fun x hx ↦
    h x ((mem_placesAll_iff kind path 0 parts x).mpr ⟨i, a, hi, hx⟩)] at hh
  cases hh

/-- A tree in which every atom is known has no place without content. -/
theorem hasHollow_eq_false (path : Path) (a : Atom)
    (h : ∀ x ∈ a.places path, x.2.isKnown = true) : a.hasHollow = false := by
  induction a generalizing path with
  | literal _ => rfl
  | nothing => rfl
  | foreign _ _ => rfl
  | hollow k => exact absurd (h _ List.mem_cons_self) (by simp [isKnown])
  | sequence parts ih =>
    rw [hasHollow]
    exact anyHollow_eq_false .seq path parts ih fun x hx ↦ h x (List.mem_cons_of_mem _ hx)
  | choice parts ih =>
    rw [hasHollow]
    exact anyHollow_eq_false .alt path parts ih fun x hx ↦ h x (List.mem_cons_of_mem _ hx)

private theorem visitsAll_isSome {α : Type} (visit : α → Atom → Option α) (v : α)
    (rest : List (α × Atom)) (parts : List Atom)
    (ih : ∀ a ∈ parts, ∀ v rest, a.hasHollow = false → (visits visit v rest a).isSome = true)
    (h : anyHollow parts = false) : (visitsAll visit v rest parts).isSome = true := by
  induction parts with
  | nil => rfl
  | cons a more ihm =>
    rw [List.forall_mem_cons] at ih
    rw [anyHollow, Bool.or_eq_false_iff] at h
    obtain ⟨after, hafter⟩ := Option.isSome_iff_exists.mp (ihm ih.2 h.2)
    rw [visitsAll, hafter]
    dsimp only
    split
    · rfl
    · exact ih.1 v after h.1

/-- A walk through a tree without hollow places always has a result. -/
theorem visits_isSome {α : Type} (visit : α → Atom → Option α) (v : α) (rest : List (α × Atom))
    (a : Atom) (h : a.hasHollow = false) : (visits visit v rest a).isSome = true := by
  induction a generalizing v rest with
  | literal _ => rfl
  | nothing => rfl
  | foreign _ _ => rfl
  | hollow _ => cases h
  | sequence parts ih =>
    rw [hasHollow] at h
    rw [visits]
    split
    · rfl
    · rw [Option.isSome_map]
      exact visitsAll_isSome visit _ rest parts ih h
  | choice parts ih =>
    rw [hasHollow] at h
    rw [visits]
    split
    · rfl
    · rw [Option.isSome_map]
      exact visitsAll_isSome visit _ rest parts ih h

private theorem count?_isSome (a : Atom) (h : a.hasHollow = false) : a.count?.isSome = true := by
  unfold count? inspect walk
  split
  · rfl
  · rw [Option.isSome_map, Option.isSome_map]
    exact visits_isSome _ _ _ a h

@[simp] theorem instructions_program (fresh : Bytes) (a : Atom) :
    (a.program fresh).instructions = a.code.instructions.toArray := rfl

@[simp] theorem addresses_program (fresh : Bytes) (a : Atom) :
    (a.program fresh).addresses = a.code.addresses.toArray := rfl

-- Whatever the identifier and the text, the code of a tree makes a consistent program.
private theorem make_isConsistent (fresh id source : Bytes) (a : Atom) :
    (Program.make fresh id source a.code.instructions.toArray
      a.code.addresses.toArray).isConsistent = true := by
  rw [Program.isConsistent_iff]
  simpa [Program.make, Program.size, Fragment.Sound] using a.code_sound

end Atom

/-! ### The outcome of a compilation -/

namespace Compile

/-- Whether the compiler refuses an atom at a place: it is too deep, or of no known variant. -/
def offends (limit : Int) (x : Path × Atom) : Bool :=
  (0 < limit && limit ≤ (x.1.length : Int)) || !x.2.isKnown

private theorem offence?_eq_none_iff (limit : Int) (x : Path × Atom) :
    Emitter.offence? limit x = none ↔ offends limit x = false := by
  obtain ⟨path, a⟩ := x
  unfold Emitter.offence? offends Emitter.tooDeep
  split
  · next h => simp [h]
  · next h =>
    rw [Bool.eq_false_iff.mpr h, Bool.false_or]
    cases a <;> simp [Atom.isKnown]

private theorem refusal?_eq_none_iff (limit : Int) (places : List (Path × Atom)) :
    Emitter.refusal? limit places = none ↔ ∀ x ∈ places, offends limit x = false := by
  rw [Emitter.refusal?, List.findSome?_eq_none_iff]
  exact forall₂_congr fun x _ ↦ offence?_eq_none_iff limit x

private theorem plain_of_refusal?_eq_none {limit : Int} {a : Atom}
    (h : Emitter.refusal? limit (a.places []) = none) : a.Plain := by
  intro x hx
  have := (refusal?_eq_none_iff limit _).mp h x hx
  simp only [offends, Bool.or_eq_false_iff, Bool.not_eq_false'] at this
  exact this.2

/-- A compilation gives the program of the tree, or refuses it for the first atom at fault. -/
theorem result_compile (limit : Int) (fresh : Bytes) (a : Atom) :
    (compile limit fresh a).result =
      match Emitter.refusal? limit (a.places []) with
      | some err => .error (.refused err)
      | none => .ok (a.program fresh) := by
  rw [compile, Emitter.atom_eq]
  cases h : Emitter.refusal? limit (a.places []) with
  | some err => rfl
  | none =>
    have hhollow := a.hasHollow_eq_false [] (plain_of_refusal?_eq_none h)
    obtain ⟨n, hn⟩ := Option.isSome_iff_exists.mp (a.count?_isSome hhollow)
    have hprogram : Program.make fresh [] (a.write [])
        (({} : Emitter).append (a.code.relocate 0 0)).instructions
        (({} : Emitter).append (a.code.relocate 0 0)).addresses = a.program fresh := by
      simp [Emitter.append, Atom.program]
    have htext : a.text? = some (a.write []) := by
      rw [Atom.text?, hhollow]
      rfl
    simp only [Emitter.outcome_none, htext, List.size_toArray, List.length_nil]
    have hconsistent : (a.program fresh).isConsistent = true := a.make_isConsistent fresh [] _
    rw [hprogram, if_pos hconsistent, hn]

/-- A tree with no atom at fault compiles. -/
theorem result_compile_of_forall {limit : Int} {a : Atom} (fresh : Bytes)
    (h : ∀ x ∈ a.places [], offends limit x = false) :
    (compile limit fresh a).result = .ok (a.program fresh) := by
  rw [result_compile, (refusal?_eq_none_iff limit _).mpr h]

/-- Only trees of literals, sequences and choices compile, and a program is always that of its
tree. -/
theorem plain_of_compile {limit : Int} {fresh : Bytes} {a : Atom} {p : Program}
    (h : (compile limit fresh a).result = .ok p) : a.Plain ∧ p = a.program fresh := by
  rw [result_compile] at h
  cases hr : Emitter.refusal? limit (a.places []) with
  | some err =>
    rw [hr] at h
    cases h
  | none =>
    rw [hr] at h
    exact ⟨plain_of_refusal?_eq_none hr, (Except.ok.inj h).symm⟩

/-- Every tree of literals, sequences and choices that the limit admits compiles to its code put
together from the codes of its parts. The entries of the table are numbered in the order of the
choices, and in the program every atom has the code that it has alone, relocated by the choices and
the instructions before it. -/
theorem compile_eq_code (limit : Int) (fresh : Bytes) (a : Atom) (hplain : a.Plain)
    (hlimit : a.AdmittedBy limit) :
    ∃ p, (compile limit fresh a).result = .ok p ∧
      p.instructions.toList = a.code.instructions ∧ p.addresses.toList = a.code.addresses ∧
      ∀ before place b after, a.places [] = before ++ (place, b) :: after →
        ∃ start, (b.code.relocate (Atom.choices before) start).StandsAt
          (Atom.choices before) start ⟨p.instructions.toList, p.addresses.toList⟩ := by
  have hnone : Emitter.refusal? limit (a.places []) = none := by
    rw [refusal?_eq_none_iff]
    intro x hx
    have hdeep : (decide (0 < limit) && decide (limit ≤ (x.1.length : Int))) = false := by
      rw [Bool.and_eq_false_imp]
      intro hpos
      have := hlimit (of_decide_eq_true hpos) x hx
      exact decide_eq_false (by omega)
    rw [offends, hdeep, hplain x hx]
    rfl
  have hi : (a.program fresh).instructions.toList = a.code.instructions := by
    simp [Atom.program, Program.make]
  have ha : (a.program fresh).addresses.toList = a.code.addresses := by
    simp [Atom.program, Program.make]
  refine ⟨a.program fresh, by rw [result_compile, hnone], hi, ha, ?_⟩
  intro before place b after h
  rw [hi, ha]
  exact Atom.code_standsAt [] a h

/-- A choice of a sequence with an empty choice in it and of another choice: the entries are taken
from the outside in and from left to right. -/
theorem compile_eq_code_nested :
    let a : Atom := .choice [.sequence [.literal "a", .choice []], .choice [.literal "b"]]
    a.Plain ∧ a.AdmittedBy 3 ∧
      ∃ p, (compile 3 "id" a).result = .ok p ∧
        p.instructions.toList = [.matching "a", .packing 2, .branching 0, .matching "b",
          .branching 2, .branching 0] ∧
        p.addresses.toList = [6, 1, 5] := by
  refine ⟨by decide, by decide, ?_⟩
  obtain ⟨p, hp, hi, ha, -⟩ := compile_eq_code 3 "id"
    (.choice [.sequence [.literal "a", .choice []], .choice [.literal "b"]])
    (by decide) (by decide)
  exact ⟨p, hp, hi.trans (by decide), ha.trans (by decide)⟩

private theorem offence?_of_offends {limit : Int} {place : Path} {b : Atom}
    (h : offends limit (place, b) = true) :
    ∃ err, Emitter.offence? limit (place, b) = some err ∧
      (0 < limit ∧ limit ≤ place.length → err.code = ⟨"E2002"⟩ ∧
        err.text = Bytes.cat ["maximum nesting depth of ", Bytes.decimal limit, " exceeded"]) ∧
      (¬ (0 < limit ∧ limit ≤ place.length) → err.code = ⟨"E2001"⟩ ∧
        err.text = Bytes.cat ["unsupported atom kind ", Text.quoted b.shownKind]) ∧
      err.path = Bytes.join "." (place.reverse.map Step.text) := by
  by_cases hd : 0 < limit ∧ limit ≤ place.length
  · have hdeep : Emitter.tooDeep limit place = true := by simpa [Emitter.tooDeep] using hd
    refine ⟨.depthExceeded limit place.text, by simp [Emitter.offence?, hdeep], ?_, ?_, rfl⟩
    · exact fun _ ↦ ⟨rfl, rfl⟩
    · exact fun hn ↦ absurd hd hn
  · have hdeep : Emitter.tooDeep limit place = false := by
      simpa [Emitter.tooDeep] using hd
    have hunknown : b.isKnown = false := by
      have hd' : (decide (0 < limit) && decide (limit ≤ (place.length : Int))) = false := hdeep
      simpa [offends, hd'] using h
    refine ⟨.unsupportedKind b.shownKind place.text, ?_, fun hy ↦ absurd hy hd,
      fun _ ↦ ⟨rfl, rfl⟩, rfl⟩
    rw [Emitter.offence?, if_neg (by simp [hdeep])]
    cases b with
    | literal _ | sequence _ | choice _ => cases hunknown
    | nothing | hollow _ | foreign _ _ => rfl

/-- A compilation gives a program exactly if no atom of the tree is at fault. Otherwise the error is
that of the first atom at fault in preorder: its code, the limit or the kind in its text, and a path
whose steps lead from the root to that atom and to no other place. -/
theorem compile_refuses_first (limit : Int) (fresh : Bytes) (a : Atom) :
    ((∃ p, (compile limit fresh a).result = .ok p) ↔
        ∀ x ∈ a.places [], offends limit x = false) ∧
      ∀ place b, (a.places []).find? (offends limit) = some (place, b) →
        ∃ err, (compile limit fresh a).result = .error (.refused err) ∧
          (0 < limit ∧ limit ≤ place.length → err.code = ⟨"E2002"⟩ ∧
            err.text = Bytes.cat ["maximum nesting depth of ", Bytes.decimal limit, " exceeded"]) ∧
          (¬ (0 < limit ∧ limit ≤ place.length) → err.code = ⟨"E2001"⟩ ∧
            err.text = Bytes.cat ["unsupported atom kind ", Text.quoted b.shownKind]) ∧
          err.path = Bytes.join "." (place.reverse.map Step.text) ∧
          a.follow? place.reverse = some b ∧
          ∀ steps, Bytes.join "." (steps.map Step.text) = err.path → steps = place.reverse := by
  constructor
  · rw [result_compile, ← refusal?_eq_none_iff]
    cases Emitter.refusal? limit (a.places []) with
    | none => simp
    | some err => simp
  · intro place b hfind
    obtain ⟨hoff, before, after, hsplit, hbefore⟩ := List.find?_eq_some_iff_append.mp hfind
    obtain ⟨err, herr, hdeep, hkind, hpath⟩ := offence?_of_offends hoff
    have hrefusal : Emitter.refusal? limit (a.places []) = some err := by
      have hnone : Emitter.refusal? limit before = none := by
        rw [refusal?_eq_none_iff]
        exact fun x hx ↦ by simpa using hbefore x hx
      rw [hsplit, Emitter.refusal?_append, hnone, Option.none_or, Emitter.refusal?_cons, herr]
      rfl
    have hmem : (place, b) ∈ a.places [] := by
      rw [hsplit]
      exact List.mem_append_right _ List.mem_cons_self
    refine ⟨err, by rw [result_compile, hrefusal], hdeep, hkind, hpath,
      Atom.follow?_of_mem_places hmem, ?_⟩
    intro steps hs
    exact join_text_inj (hs.trans hpath)

/-- Of a foreign atom inside and a missing atom behind it, the foreign one comes first. -/
theorem compile_refuses_first_nested :
    ∃ err, (compile 0 "id" (.sequence
        [.choice [.literal "a", .foreign "rep" "x"], .nothing])).result = .error (.refused err) ∧
      err.code = ⟨"E2001"⟩ ∧ err.path = "seq[0].alt[1]" := by
  obtain ⟨err, herr, -, hkind, hpath, -⟩ := (compile_refuses_first 0 "id"
    (.sequence [.choice [.literal "a", .foreign "rep" "x"], .nothing])).2
    [⟨.alt, 1⟩, ⟨.seq, 0⟩] (.foreign "rep" "x") rfl
  exact ⟨err, herr, (hkind (by decide)).1, hpath.trans (by decide)⟩

private theorem code_of_refusal? {limit : Int} {places : List (Path × Atom)} {err : CompileError}
    (h : Emitter.refusal? limit places = some err) :
    err.code = ⟨"E2001"⟩ ∨ err.code = ⟨"E2002"⟩ := by
  obtain ⟨x, -, hx⟩ := List.exists_of_findSome?_eq_some h
  unfold Emitter.offence? at hx
  split at hx
  · obtain rfl := Option.some.inj hx
    exact Or.inr rfl
  · split at hx
    all_goals cases hx
    all_goals exact Or.inl rfl

/-- Every compilation, of any tree and under any limit, ends with a consistent program or with an
error for an atom of the tree; no step breaks. Wherever an atom of the tree is emitted and behind
whatever code, no entry is missing or resolved when it is to be resolved, and what is emitted for
the whole tree is consistent under any identifier and any text. Only trees of literals, sequences
and choices get so far that their text and their count are asked for, and these have both. -/
theorem compile_never_breaks (limit : Int) (fresh : Bytes) (a : Atom) :
    ((∃ p, (compile limit fresh a).result = .ok p ∧ p.isConsistent = true) ∨
        ∃ err, (compile limit fresh a).result = .error (.refused err) ∧ err.code ≠ ⟨"E2003"⟩) ∧
      (∀ path e ref, Emitter.atom limit path e a ≠ .error (.misresolved ref)) ∧
      (∀ path parts (e e' : Emitter),
        Emitter.choiceParts limit path e.nextRef e.allocate 0 parts = .ok e' →
          e'.addresses[e.nextRef]? = some Program.unresolved) ∧
      ∀ out, Emitter.atom limit [] {} a = .ok out →
        (∀ id source, (Program.make fresh id source out.instructions
          out.addresses).isConsistent = true) ∧
        a.Plain ∧ a.text?.isSome = true ∧ a.count?.isSome = true := by
  refine ⟨?_, ?_, fun _ _ _ _ ↦ Emitter.unresolved_of_choiceParts, ?_⟩
  · rw [result_compile]
    cases h : Emitter.refusal? limit (a.places []) with
    | none => exact Or.inl ⟨_, rfl, a.make_isConsistent fresh [] _⟩
    | some err =>
      refine Or.inr ⟨err, rfl, ?_⟩
      rcases code_of_refusal? h with hcode | hcode
      · rw [hcode]
        decide
      · rw [hcode]
        decide
  · intro path e ref
    rw [Emitter.atom_eq]
    cases Emitter.refusal? limit (a.places path) with
    | none => simp
    | some err => simp
  · intro out hout
    rw [Emitter.atom_eq] at hout
    cases h : Emitter.refusal? limit (a.places []) with
    | some err =>
      rw [h] at hout
      cases hout
    | none =>
      rw [h, Emitter.outcome_none] at hout
      obtain rfl := Except.ok.inj hout
      have hplain := plain_of_refusal?_eq_none h
      have hhollow := a.hasHollow_eq_false [] hplain
      refine ⟨fun id source ↦ ?_, hplain, ?_, a.count?_isSome hhollow⟩
      · simpa [Emitter.append] using a.make_isConsistent fresh id source
      · rw [Atom.text?, hhollow]
        rfl

/-- A choice inside a choice and an empty one behind it: the emitted code is consistent, and the
tree has a text and a count. A hollow atom in the place of the literal is refused. -/
theorem compile_never_breaks_nested :
    let a : Atom := .choice [.choice [.literal "a"], .sequence [.choice []]]
    let b : Atom := .choice [.choice [.hollow .seq], .sequence [.choice []]]
    (∃ out, Emitter.atom 3 [] {} a = .ok out ∧
        (Program.make "id" [] [] out.instructions out.addresses).isConsistent = true ∧
        a.Plain ∧ a.text?.isSome = true ∧ a.count?.isSome = true) ∧
      ((∃ p, (compile 3 "id" b).result = .ok p ∧ p.isConsistent = true) ∨
        ∃ err, (compile 3 "id" b).result = .error (.refused err) ∧ err.code ≠ ⟨"E2003"⟩) := by
  intro a b
  have hout : Emitter.atom 3 [] {} a = .ok ⟨#[.matching "a", .branching 1, .branching 0,
      .packing 1, .branching 0], #[5, 2, 3]⟩ := by rfl
  obtain ⟨hmake, hrest⟩ := (compile_never_breaks 3 "id" a).2.2.2 _ hout
  exact ⟨⟨_, hout, hmake [] [], hrest⟩, (compile_never_breaks 3 "id" b).1⟩

end Compile

end GrammarCode
