import Mathlib.Data.List.Forall2
import GrammarCode.Cli.Input
import GrammarCode.Proofs.Compilation

/-!
# What decoding gives

A node stands for an atom of a kind by itself, as a scalar or a list, or as a mapping from the name
of the kind. One equation says when a node followed to some depth gives an atom; it counts a level
for every atom and for every alias on the way. So a decoded tree has no more levels than nodes are
followed, and the nesting limit of a compilation, which is the same, admits it.
-/

namespace GrammarCode

/-! ### Lists, item by item -/

theorem forall_of_forall₂ {α β : Type} {R : α → β → Prop} {P : β → Prop} {xs : List α}
    {ys : List β} (h : List.Forall₂ R xs ys) (hR : ∀ x y, R x y → P y) : ∀ y ∈ ys, P y := by
  induction h with
  | nil => simp
  | cons hxy _ ih => exact List.forall_mem_cons.mpr ⟨hR _ _ hxy, ih⟩

/-- Where two steps give a result exactly if each of them does, mapping over a list gives the
results of its items, in order. -/
theorem mapM_eq_pure_iff {m : Type → Type} [Monad m] [LawfulMonad m] {α β : Type} {f : α → m β}
    {xs : List α} {ys : List β}
    (hpure : ∀ {zs zs' : List β}, (pure zs : m (List β)) = pure zs' → zs = zs')
    (hbind : ∀ {γ δ : Type} {x : m γ} {g : γ → m δ} {z : δ},
      x >>= g = pure z ↔ ∃ y, x = pure y ∧ g y = pure z) :
    xs.mapM f = pure ys ↔ List.Forall₂ (fun x y ↦ f x = pure y) xs ys := by
  induction xs generalizing ys with
  | nil =>
    rw [List.mapM_nil, List.forall₂_nil_left_iff]
    exact ⟨fun h ↦ (hpure h).symm, fun h ↦ h ▸ rfl⟩
  | cons x rest ih =>
    rw [List.mapM_cons, hbind, List.forall₂_cons_left_iff]
    constructor
    · rintro ⟨y, hy, h⟩
      obtain ⟨more, hmore, h⟩ := hbind.mp h
      exact ⟨y, more, hy, ih.mp hmore, (hpure h).symm⟩
    · rintro ⟨y, more, hy, hmore, rfl⟩
      exact ⟨y, hy, hbind.mpr ⟨more, ih.mpr hmore, rfl⟩⟩

/-! ### Levels of a tree -/

namespace Atom

mutual

/-- How many levels of atoms a tree has. -/
def levels : Atom → Nat
  | .sequence parts => levelsAll parts + 1
  | .choice parts => levelsAll parts + 1
  | .literal _ => 1
  | .nothing => 1
  | .hollow _ => 1
  | .foreign _ _ => 1

/-- The most levels that one of the trees has. -/
def levelsAll : List Atom → Nat
  | [] => 0
  | a :: rest => max a.levels (levelsAll rest)

end

theorem levelsAll_le_iff {parts : List Atom} {n : Nat} :
    levelsAll parts ≤ n ↔ ∀ a ∈ parts, a.levels ≤ n := by
  induction parts with
  | nil => simp [levelsAll]
  | cons a rest ih => rw [levelsAll, Nat.max_le, ih, List.forall_mem_cons]

private theorem length_lt_of_mem_placesAll {kind : Kind} {path : Path} {parts : List Atom}
    {x : Path × Atom} (hx : x ∈ placesAll kind path 0 parts)
    (ih : ∀ a ∈ parts, ∀ below : Path, x ∈ a.places below → x.1.length < below.length + a.levels) :
    x.1.length < path.length + (levelsAll parts + 1) := by
  obtain ⟨i, a, ha, hx⟩ := (mem_placesAll_iff kind path 0 parts x).mp hx
  have hmem := List.mem_of_getElem? ha
  have hlevels := levelsAll_le_iff.mp (Nat.le_refl (levelsAll parts)) a hmem
  have hlength := ih a hmem _ hx
  rw [List.length_cons] at hlength
  omega

/-- The path to a place of a tree is shorter than the tree has levels. -/
theorem length_lt_of_mem_places {a : Atom} {path : Path} {x : Path × Atom}
    (hx : x ∈ a.places path) : x.1.length < path.length + a.levels := by
  have hroot {b : Atom} : x = (path, b) → x.1.length = path.length := fun h ↦ by rw [h]
  induction a generalizing path with
  | literal _ | nothing | hollow _ | foreign _ _ =>
    have := hroot (List.mem_singleton.mp hx)
    simp only [levels]
    omega
  | sequence parts ih | choice parts ih =>
    rw [levels]
    rcases List.mem_cons.mp hx with hx | hx
    · have := hroot hx
      omega
    · exact length_lt_of_mem_placesAll hx fun b hb below h ↦ ih b hb h fun h ↦ by rw [h]

end Atom

namespace Grammar

open Yaml (Node Document)

/-! ### One level of decoding -/

/-- A node gives another one as the value of an atom of a kind: a scalar and a list give
themselves, a mapping with one entry gives the value of that entry. -/
inductive Gives : Node → Kind → Node → Prop
  | scalar (info : Yaml.NodeInfo) (text : Bytes) :
    Gives (.scalar info text) .str (.scalar info text)
  | sequence (info : Yaml.NodeInfo) (items : List Node) :
    Gives (.sequence info items) .seq (.sequence info items)
  | entry (info : Yaml.NodeInfo) {key : Node} (value : Node) {kind : Kind}
    (h : key.text = (kind.name : Bytes)) : Gives (.mapping info [(key, value)]) kind value

/-- The atoms of a node that is, or refers to, a list. -/
def list (filename : Bytes) (d : Document) (depth : Nat) (v : Node) :
    Except GrammarError (List Atom) :=
  match d.resolve v with
  | .sequence _ items => items.mapM (atom filename d depth)
  | other => .error (errorAt filename other .invalidValue "expected a list of atoms")

variable {filename : Bytes} {d : Document} {depth : Nat} {n v : Node} {a : Atom}

theorem Gives.atom_str (h : Gives n .str v) :
    atom filename d (depth + 1) n = literal filename d v := by
  cases h with
  | scalar info text => rfl
  | entry info value h => rw [atom, if_pos h]

theorem Gives.atom_seq (h : Gives n .seq v) :
    atom filename d (depth + 1) n = (list filename d depth v).map Atom.sequence := by
  cases h with
  | sequence info items => rfl
  | entry info value h =>
    rw [atom, h, if_neg (by decide), if_pos rfl]
    rfl

theorem Gives.atom_alt (h : Gives n .alt v) :
    atom filename d (depth + 1) n = (list filename d depth v).map Atom.choice := by
  cases h with
  | entry info value h =>
    rw [atom, h, if_neg (by decide), if_neg (by decide), if_pos rfl]
    rfl

/-- Only an alias and a node that gives a value have an atom. -/
theorem alias_or_gives_of_atom (h : atom filename d (depth + 1) n = .ok a) :
    (∃ info name target, n = .alias info name target) ∨ ∃ kind v, Gives n kind v := by
  match n with
  | .alias info name target => exact Or.inl ⟨info, name, target, rfl⟩
  | .scalar info text => exact Or.inr ⟨.str, _, .scalar info text⟩
  | .sequence info items => exact Or.inr ⟨.seq, _, .sequence info items⟩
  | .mapping info [] => cases h
  | .mapping info (_ :: _ :: _) => cases h
  | .mapping info [(key, value)] =>
    rw [atom] at h
    split at h
    · next hk => exact Or.inr ⟨.str, value, .entry info value hk⟩
    · split at h
      · next hk => exact Or.inr ⟨.seq, value, .entry info value hk⟩
      · split at h
        · next hk => exact Or.inr ⟨.alt, value, .entry info value hk⟩
        · cases h

/-- A literal comes from a scalar that is not null. -/
theorem literal_eq_ok_iff :
    literal filename d v = .ok a ↔ ∃ info text, d.resolve v = .scalar info text ∧
      info.tag ≠ Yaml.standardTag "null" ∧ a = .literal text := by
  unfold literal
  split
  · next info text h =>
    split
    · next hnull => simp [h, hnull]
    · next hnull =>
      rw [Except.ok.injEq]
      constructor
      · rintro rfl
        exact ⟨info, text, h, hnull, rfl⟩
      · rintro ⟨info', text', h', -, rfl⟩
        obtain ⟨rfl, rfl⟩ := Node.scalar.inj (h.symm.trans h')
        rfl
  · next h =>
    constructor
    · intro hok
      cases hok
    · rintro ⟨info, text, h', -⟩
      exact absurd h' (h info text)

private theorem bind_eq_ok_iff {α β ε : Type} {x : Except ε α} {f : α → Except ε β} {b : β} :
    (x >>= f) = .ok b ↔ ∃ a, x = .ok a ∧ f a = .ok b := by
  cases x with
  | error e => simp [bind, Except.bind]
  | ok a => simp [bind, Except.bind]

private theorem map_eq_ok_iff {α β ε : Type} {f : α → β} {x : Except ε α} {b : β} :
    x.map f = .ok b ↔ ∃ a, x = .ok a ∧ b = f a := by
  cases x with
  | error e => simp [Except.map]
  | ok a => simp [Except.map, eq_comm]

/-- Mapping over a list gives the results of its items, in order. -/
theorem mapM_eq_ok_iff {α β ε : Type} {f : α → Except ε β} {xs : List α} {ys : List β} :
    xs.mapM f = .ok ys ↔ List.Forall₂ (fun x y ↦ f x = .ok y) xs ys :=
  mapM_eq_pure_iff Except.ok.inj bind_eq_ok_iff

/-- The atoms of a list are those of its items, in order. -/
theorem list_eq_ok_iff {parts : List Atom} :
    list filename d depth v = .ok parts ↔ ∃ info items, d.resolve v = .sequence info items ∧
      List.Forall₂ (fun n a ↦ atom filename d depth n = .ok a) items parts := by
  unfold list
  split
  · next info items h =>
    rw [mapM_eq_ok_iff]
    constructor
    · exact fun hparts ↦ ⟨info, items, h, hparts⟩
    · rintro ⟨info', items', h', hparts⟩
      obtain ⟨rfl, rfl⟩ := Node.sequence.inj (h.symm.trans h')
      exact hparts
  · next h =>
    constructor
    · intro hok
      cases hok
    · rintro ⟨info, items, h', -⟩
      exact absurd h' (h info items)

/-- When a node followed one level deeper gives an atom: it is an alias and what it refers to gives
that atom, or it gives a scalar that is not null, or a list whose items give the parts. -/
theorem atom_succ_eq_ok_iff :
    atom filename d (depth + 1) n = .ok a ↔
      (∃ info name target, n = .alias info name target ∧
        atom filename d depth (d.resolve n) = .ok a) ∨
      (∃ v info text, Gives n .str v ∧ d.resolve v = .scalar info text ∧
        info.tag ≠ Yaml.standardTag "null" ∧ a = .literal text) ∨
      ∃ v info items parts, d.resolve v = .sequence info items ∧
        List.Forall₂ (fun n a ↦ atom filename d depth n = .ok a) items parts ∧
        (Gives n .seq v ∧ a = .sequence parts ∨ Gives n .alt v ∧ a = .choice parts) := by
  constructor
  · intro h
    obtain ⟨info, name, target, rfl⟩ | ⟨kind, v, hv⟩ := alias_or_gives_of_atom h
    · exact Or.inl ⟨info, name, target, rfl, h⟩
    · cases kind with
      | str =>
        rw [hv.atom_str, literal_eq_ok_iff] at h
        obtain ⟨info, text, hr, htag, ha⟩ := h
        exact Or.inr (Or.inl ⟨v, info, text, hv, hr, htag, ha⟩)
      | seq =>
        rw [hv.atom_seq, map_eq_ok_iff] at h
        obtain ⟨parts, hparts, ha⟩ := h
        obtain ⟨info, items, hr, hall⟩ := list_eq_ok_iff.mp hparts
        exact Or.inr (Or.inr ⟨v, info, items, parts, hr, hall, Or.inl ⟨hv, ha⟩⟩)
      | alt =>
        rw [hv.atom_alt, map_eq_ok_iff] at h
        obtain ⟨parts, hparts, ha⟩ := h
        obtain ⟨info, items, hr, hall⟩ := list_eq_ok_iff.mp hparts
        exact Or.inr (Or.inr ⟨v, info, items, parts, hr, hall, Or.inr ⟨hv, ha⟩⟩)
  · rintro (⟨info, name, target, rfl, h⟩ | ⟨v, info, text, hv, hr, htag, ha⟩ |
      ⟨v, info, items, parts, hr, hall, ⟨hv, ha⟩ | ⟨hv, ha⟩⟩)
    · exact h
    · rw [hv.atom_str, literal_eq_ok_iff]
      exact ⟨info, text, hr, htag, ha⟩
    · rw [hv.atom_seq, map_eq_ok_iff]
      exact ⟨parts, list_eq_ok_iff.mpr ⟨info, items, hr, hall⟩, ha⟩
    · rw [hv.atom_alt, map_eq_ok_iff]
      exact ⟨parts, list_eq_ok_iff.mpr ⟨info, items, hr, hall⟩, ha⟩

/-! ### Decoded trees compile -/

/-- A decoded tree is one of literals, sequences and choices, and has no more levels than nodes were
followed. -/
theorem plain_and_levels_le (h : atom filename d depth n = .ok a) :
    a.Plain ∧ a.levels ≤ depth := by
  induction depth generalizing n a with
  | zero => cases h
  | succ depth ih =>
    rcases atom_succ_eq_ok_iff.mp h with ⟨_, _, _, _, h⟩ | ⟨_, _, text, _, _, _, rfl⟩ |
      ⟨_, _, items, parts, _, hall, hgroup⟩
    · obtain ⟨hplain, hlevels⟩ := ih h
      exact ⟨hplain, by omega⟩
    · exact ⟨by simp [Atom.Plain, Atom.places, Atom.isKnown], by rw [Atom.levels]; omega⟩
    · have hplain := forall_of_forall₂ hall fun _ _ h ↦ (ih h).1
      have hlevels := Atom.levelsAll_le_iff.mpr (forall_of_forall₂ hall fun _ _ h ↦ (ih h).2)
      rcases hgroup with ⟨-, rfl⟩ | ⟨-, rfl⟩
      · refine ⟨?_, by rw [Atom.levels]; omega⟩
        exact (Atom.forall_places_sequence (P := fun b ↦ b.isKnown = true)).mpr ⟨rfl, hplain⟩
      · refine ⟨?_, by rw [Atom.levels]; omega⟩
        exact (Atom.forall_places_choice (P := fun b ↦ b.isKnown = true)).mpr ⟨rfl, hplain⟩

/-- A limit that is at least the depth to which nodes were followed admits the decoded tree. -/
theorem compile_of_atom {limit : Int} (fresh : Bytes) (h : atom filename d depth n = .ok a)
    (hlimit : (depth : Int) ≤ limit) : (compile limit fresh a).result = .ok (a.program fresh) := by
  obtain ⟨hplain, hlevels⟩ := plain_and_levels_le h
  apply Compile.result_compile_of_forall
  intro x hx
  have hlength := Atom.length_lt_of_mem_places hx
  have hdeep : ¬ limit ≤ (x.1.length : Int) := by
    rw [List.length_nil] at hlength
    omega
  rw [Compile.offends, hplain x hx, decide_eq_false hdeep, Bool.and_false]
  rfl

theorem compile_of_decode {reader : Yaml.Reader} {filename text : Bytes} (fresh : Bytes)
    (h : decode filename text reader = .ok a) :
    (compile defaultMaxDepth fresh a).result = .ok (a.program fresh) := by
  unfold decode at h
  split at h
  · cases h
  · cases h
  · exact compile_of_atom fresh h (Int.le_refl _)

/-- The text of a grammar compiles under the limit that is used unless another one is given, or it
has no tree. -/
theorem compileText_cases (reader : Yaml.Reader) (fresh filename text : Bytes) :
    (∃ p, (Cli.compileText reader defaultMaxDepth fresh filename text).result = .ok p) ∨
      ∃ e, decode filename text reader = .error e ∧
        (Cli.compileText reader defaultMaxDepth fresh filename text).result =
          .error (.grammar e) := by
  unfold Cli.compileText
  cases h : decode filename text reader with
  | error e => exact Or.inr ⟨e, rfl, rfl⟩
  | ok a =>
    refine Or.inl ⟨a.program fresh, ?_⟩
    dsimp only
    rw [compile_of_decode fresh h]

/-- A program, or an error of the grammar or of its file. -/
def Settled (c : Cli.Compiled) : Prop :=
  (∃ p, c.result = .ok p) ∨ (∃ e, c.result = .error (.grammar e)) ∨ ∃ e, c.result = .error (.file e)

theorem settled_compileText (reader : Yaml.Reader) (fresh filename text : Bytes) :
    Settled (Cli.compileText reader defaultMaxDepth fresh filename text) := by
  rcases compileText_cases reader fresh filename text with h | ⟨e, -, h⟩
  · exact Or.inl h
  · exact Or.inr (Or.inl ⟨e, h⟩)

section Host

variable {m : Type → Type} [Monad m] (host : Host m) (reader : Yaml.Reader) (path : Bytes)

/-- What the grammar in a file gives, together with what it can be. -/
def settledFile : m { c // Settled c } := do
  match ← host.read path with
  | .error e => return ⟨{ result := .error (.file e) }, Or.inr (Or.inr ⟨e, rfl⟩)⟩
  | .ok text => return ⟨_, settled_compileText reader (← host.freshId) path text⟩

theorem val_settledFile [LawfulMonad m] :
    Subtype.val <$> settledFile host reader path =
      Cli.compileFile host reader defaultMaxDepth path := by
  rw [settledFile, Cli.compileFile, map_bind]
  congr 1
  funext r
  cases r with
  | error e => simp
  | ok text => simp

end Host

/-- Every tree that is decoded from the nodes of a document, whatever their aliases refer to,
compiles under the limit that is used unless another one is given. So under that limit the text of a
grammar, however documents are read, gives a program or an error of the grammar, and a file, on
whatever host, gives one of these or an error of the file; no error of the compilation is left. -/
theorem compile_of_decoded :
    (∀ filename d n a fresh, atom filename d maxDepth n = .ok a →
      ∃ p, (compile defaultMaxDepth fresh a).result = .ok p) ∧
    (∀ reader fresh filename text,
      (∃ p, (Cli.compileText reader defaultMaxDepth fresh filename text).result = .ok p) ∨
        ∃ e, decode filename text reader = .error e ∧
          (Cli.compileText reader defaultMaxDepth fresh filename text).result =
            .error (.grammar e)) ∧
    ∀ (m : Type → Type) [Monad m] [LawfulMonad m] (host : Host m) (reader : Yaml.Reader)
      (path : Bytes), ∃ outcome : m { c // Settled c },
        Cli.compileFile host reader defaultMaxDepth path = Subtype.val <$> outcome := by
  refine ⟨?_, compileText_cases, ?_⟩
  · intro filename d n a fresh h
    exact ⟨_, compile_of_atom fresh h (Int.le_refl _)⟩
  · intro m _ _ host reader path
    exact ⟨settledFile host reader path, (val_settledFile host reader path).symm⟩

/-- A list of an alias, of the same literal written out, and of a choice. -/
theorem compile_of_decoded_alias :
    let d : Document :=
      { root := .sequence {} [.alias {} "x" 0, .mapping {} [(.scalar {} "str", .scalar {} "a")],
          .mapping {} [(.scalar {} "alt", .sequence {} [.scalar {} "b"])]]
        anchored := #[.scalar {} "a"] }
    let a : Atom := .sequence [.literal "a", .literal "a", .choice [.literal "b"]]
    atom [] d maxDepth d.root = .ok a ∧
      ∃ p, (compile defaultMaxDepth "id" a).result = .ok p := by
  intro d a
  have h : atom [] d maxDepth d.root = .ok a := by rfl
  exact ⟨h, compile_of_decoded.1 [] d d.root a "id" h⟩

end Grammar

end GrammarCode
