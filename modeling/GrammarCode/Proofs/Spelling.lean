import GrammarCode.Proofs.Decoding

/-!
# How documents spell trees

`Spells` says, without any decoding, which trees a node without aliases writes down: the shorthands
and the mappings may be mixed at will. Decoding accepts exactly these nodes, as long as the tree has
no more levels than nodes are followed, and gives exactly that tree. A node therefore spells at most
one tree.
-/

namespace GrammarCode

namespace Yaml.Node

mutual

/-- Whether no alias occurs in a node. -/
def aliasFree : Node → Bool
  | .scalar _ _ => true
  | .alias _ _ _ => false
  | .sequence _ items => aliasFreeItems items
  | .mapping _ entries => aliasFreeEntries entries

/-- Whether no alias occurs in the items of a sequence. -/
def aliasFreeItems : List Node → Bool
  | [] => true
  | n :: rest => n.aliasFree && aliasFreeItems rest

/-- Whether no alias occurs in the entries of a mapping. -/
def aliasFreeEntries : List (Node × Node) → Bool
  | [] => true
  | (k, v) :: rest => k.aliasFree && v.aliasFree && aliasFreeEntries rest

end

theorem aliasFreeItems_iff {items : List Node} :
    aliasFreeItems items = true ↔ ∀ n ∈ items, n.aliasFree = true := by
  induction items with
  | nil => simp [aliasFreeItems]
  | cons n rest ih => rw [aliasFreeItems, Bool.and_eq_true, ih, List.forall_mem_cons]

theorem aliasFreeEntries_single {k v : Node} :
    aliasFreeEntries [(k, v)] = true ↔ k.aliasFree = true ∧ v.aliasFree = true := by
  simp [aliasFreeEntries]

/-- A node without aliases stands for itself. -/
theorem resolve_of_aliasFree {n : Node} (d : Document) (h : n.aliasFree = true) :
    d.resolve n = n := by
  match n with
  | .scalar _ _ => rfl
  | .sequence _ _ => rfl
  | .mapping _ _ => rfl
  | .alias _ _ _ => cases h

/-- Of the nodes without aliases only scalars have a text. -/
theorem eq_scalar_of_text {n : Node} (h : n.aliasFree = true) (ht : n.text ≠ []) :
    ∃ info, n = .scalar info n.text := by
  match n with
  | .scalar info _ => exact ⟨info, rfl⟩
  | .sequence _ _ => exact absurd rfl ht
  | .mapping _ _ => exact absurd rfl ht
  | .alias _ _ _ => cases h

end Yaml.Node

namespace Grammar

open Yaml (Node NodeInfo Document)

/-- A node spells a tree. A literal is a scalar that is not null, a sequence is a list, and both,
as well as a choice, may be the value in a mapping whose only key is the name of the kind. -/
inductive Spells : Node → Atom → Prop
  | scalar {info : NodeInfo} {pattern : Bytes} (hinfo : info.tag ≠ ("!!null" : Bytes)) :
    Spells (.scalar info pattern) (.literal pattern)
  | str {outer key info : NodeInfo} {pattern : Bytes} (hinfo : info.tag ≠ ("!!null" : Bytes)) :
    Spells (.mapping outer [(.scalar key "str", .scalar info pattern)]) (.literal pattern)
  | list {info : NodeInfo} {items : List Node} {parts : List Atom}
    (hparts : List.Forall₂ Spells items parts) :
    Spells (.sequence info items) (.sequence parts)
  | seq {outer key info : NodeInfo} {items : List Node} {parts : List Atom}
    (hparts : List.Forall₂ Spells items parts) :
    Spells (.mapping outer [(.scalar key "seq", .sequence info items)]) (.sequence parts)
  | alt {outer key info : NodeInfo} {items : List Node} {parts : List Atom}
    (hparts : List.Forall₂ Spells items parts) :
    Spells (.mapping outer [(.scalar key "alt", .sequence info items)]) (.choice parts)

variable {filename : Bytes} {d : Document} {depth : Nat} {n v : Node} {a b : Atom}

/-! ### What is spelled is decoded -/

/-- A spelling gives a scalar that is not null or a list of spellings. -/
theorem Spells.cases_gives (h : Spells n a) :
    (∃ info text, Gives n .str (.scalar info text) ∧ info.tag ≠ ("!!null" : Bytes) ∧
      a = .literal text) ∨
    ∃ info items parts, List.Forall₂ Spells items parts ∧
      (Gives n .seq (.sequence info items) ∧ a = .sequence parts ∨
        Gives n .alt (.sequence info items) ∧ a = .choice parts) := by
  cases h with
  | scalar hinfo => exact Or.inl ⟨_, _, .scalar _ _, hinfo, rfl⟩
  | str hinfo => exact Or.inl ⟨_, _, .entry _ _ rfl, hinfo, rfl⟩
  | list hparts => exact Or.inr ⟨_, _, _, hparts, Or.inl ⟨.sequence _ _, rfl⟩⟩
  | seq hparts => exact Or.inr ⟨_, _, _, hparts, Or.inl ⟨.entry _ _ rfl, rfl⟩⟩
  | alt hparts => exact Or.inr ⟨_, _, _, hparts, Or.inr ⟨.entry _ _ rfl, rfl⟩⟩

private theorem standardTag_null : Yaml.standardTag "null" = ("!!null" : Bytes) := by decide

private theorem forall₂_of_levels {R : Node → Atom → Prop} {items : List Node}
    {parts : List Atom} (h : List.Forall₂ Spells items parts)
    (hlevels : Atom.levelsAll parts ≤ depth)
    (ih : ∀ n a, Spells n a → a.levels ≤ depth → R n a) : List.Forall₂ R items parts := by
  induction h with
  | nil => exact .nil
  | cons hspells _ ihrest =>
    rw [Atom.levelsAll, Nat.max_le] at hlevels
    exact .cons (ih _ _ hspells hlevels.1) (ihrest hlevels.2)

/-- A spelling followed deep enough gives the tree that it spells. -/
theorem Spells.atom_eq_ok (h : Spells n a) (hlevels : a.levels ≤ depth) :
    atom filename d depth n = .ok a := by
  induction depth generalizing n a with
  | zero => cases a <;> simp [Atom.levels] at hlevels
  | succ depth ih =>
    rw [atom_succ_eq_ok_iff]
    obtain ⟨info, text, hgives, hinfo, rfl⟩ | ⟨info, items, parts, hparts, hgroup⟩ := h.cases_gives
    · refine Or.inr (Or.inl ⟨_, info, text, hgives, rfl, ?_, rfl⟩)
      rw [standardTag_null]
      exact hinfo
    · have hbelow : Atom.levelsAll parts ≤ depth := by
        rcases hgroup with ⟨-, rfl⟩ | ⟨-, rfl⟩
        · exact Nat.le_of_succ_le_succ hlevels
        · exact Nat.le_of_succ_le_succ hlevels
      have hall := forall₂_of_levels hparts hbelow fun n a h hle ↦ ih h hle
      exact Or.inr (Or.inr ⟨_, info, items, parts, rfl, hall, hgroup⟩)

/-- A node spells at most one tree. -/
theorem Spells.unique (ha : Spells n a) (hb : Spells n b) : a = b := by
  have hdeep (c : Atom) (h : Spells n c) (hle : c.levels ≤ max a.levels b.levels) :
      atom [] ⟨n, #[]⟩ (max a.levels b.levels) n = .ok c := h.atom_eq_ok hle
  have hsame := (hdeep a ha (Nat.le_max_left _ _)).symm.trans (hdeep b hb (Nat.le_max_right _ _))
  exact Except.ok.inj hsame

private theorem bind_eq_error {α β ε : Type} {x : Except ε α} {f : α → Except ε β} {e : ε}
    (h : (x >>= f) = .error e) : x = .error e ∨ ∃ a, x = .ok a ∧ f a = .error e := by
  cases x with
  | error e' => exact Or.inl (congrArg _ (Except.error.inj h))
  | ok a => exact Or.inr ⟨a, rfl, h⟩

-- An error of a whole list is that of one of its items.
private theorem exists_of_mapM_error {α β ε : Type} {f : α → Except ε β} {xs : List α} {e : ε}
    (h : xs.mapM f = .error e) : ∃ x ∈ xs, f x = .error e := by
  induction xs with
  | nil => cases h
  | cons x rest ih =>
    rw [List.mapM_cons] at h
    rcases bind_eq_error h with hx | ⟨y, -, h⟩
    · exact ⟨x, List.mem_cons_self, hx⟩
    · rcases bind_eq_error h with hrest | ⟨ys, -, h⟩
      · obtain ⟨z, hz, he⟩ := ih hrest
        exact ⟨z, List.mem_cons_of_mem x hz, he⟩
      · cases h

private theorem exists_spelled {items : List Node} {parts : List Atom}
    (h : List.Forall₂ Spells items parts) : ∀ n ∈ items, ∃ a, Spells n a := by
  induction h with
  | nil => simp
  | cons hspells _ ih => exact List.forall_mem_cons.mpr ⟨⟨_, hspells⟩, ih⟩

-- A map over a list of spellings fails only where one of them does.
private theorem error_of_map_list {e : GrammarError} {info : NodeInfo} {items : List Node}
    {build : List Atom → Atom}
    (h : (list filename d depth (.sequence info items)).map build = .error e) :
    ∃ n ∈ items, atom filename d depth n = .error e := by
  apply exists_of_mapM_error
  change (items.mapM (atom filename d depth)).map build = .error e at h
  cases hm : items.mapM (atom filename d depth) with
  | error e' =>
    rw [hm] at h
    exact congrArg _ (Except.error.inj h)
  | ok parts =>
    rw [hm] at h
    cases h

/-- Too many levels are the only thing that can be wrong with a spelling. -/
theorem Spells.code_of_error {e : GrammarError} (h : Spells n a)
    (herror : atom filename d depth n = .error e) : e.code = .invalidValue := by
  induction depth generalizing n a with
  | zero =>
    obtain rfl := Except.error.inj herror
    rfl
  | succ depth ih =>
    obtain ⟨info, text, hgives, hinfo, rfl⟩ | ⟨info, items, parts, hparts, hgroup⟩ := h.cases_gives
    · -- A literal has one level, and that is followed.
      rw [h.atom_eq_ok (by rw [Atom.levels]; omega)] at herror
      cases herror
    · have hitem : ∃ m ∈ items, atom filename d depth m = .error e := by
        rcases hgroup with ⟨hgives, -⟩ | ⟨hgives, -⟩
        · rw [hgives.atom_seq] at herror
          exact error_of_map_list herror
        · rw [hgives.atom_alt] at herror
          exact error_of_map_list herror
      obtain ⟨m, hm, he⟩ := hitem
      obtain ⟨b, hb⟩ := exists_spelled hparts m hm
      exact ih hb he

/-! ### What is decoded is spelled -/

private theorem key_eq_scalar {key : Node} {kind : Kind} (hfree : key.aliasFree = true)
    (h : key.text = (kind.name : Bytes)) : ∃ info, key = .scalar info (kind.name : Bytes) := by
  rw [← h]
  apply Node.eq_scalar_of_text hfree
  rw [h]
  cases kind <;> decide

/-- What a node without aliases gives has none either, and it is the node itself or the value of a
scalar key. -/
theorem Gives.cases_aliasFree {kind : Kind} (h : Gives n kind v) (hfree : n.aliasFree = true) :
    v.aliasFree = true ∧
      (n = v ∧ (kind = .str ∨ kind = .seq) ∨
        ∃ outer key, n = .mapping outer [(.scalar key (kind.name : Bytes), v)]) := by
  cases h with
  | scalar info text => exact ⟨rfl, Or.inl ⟨rfl, Or.inl rfl⟩⟩
  | sequence info items => exact ⟨hfree, Or.inl ⟨rfl, Or.inr rfl⟩⟩
  | entry outer value hkey =>
    obtain ⟨hkeyfree, hvalue⟩ := Node.aliasFreeEntries_single.mp hfree
    obtain ⟨key, rfl⟩ := key_eq_scalar hkeyfree hkey
    exact ⟨hvalue, Or.inr ⟨outer, key, rfl⟩⟩

/-- A node without aliases spells the tree that it gives. -/
theorem spells_of_atom (hfree : n.aliasFree = true) (h : atom filename d depth n = .ok a) :
    Spells n a := by
  induction depth generalizing n a with
  | zero => cases h
  | succ depth ih =>
    rcases atom_succ_eq_ok_iff.mp h with ⟨_, _, _, rfl, _⟩ |
      ⟨v, info, text, hgives, hr, htag, rfl⟩ | ⟨v, info, items, parts, hr, hall, hgroup⟩
    · cases hfree
    · obtain ⟨hvalue, hn⟩ := hgives.cases_aliasFree hfree
      rw [Node.resolve_of_aliasFree d hvalue] at hr
      rw [standardTag_null] at htag
      subst hr
      rcases hn with ⟨rfl, -⟩ | ⟨outer, key, rfl⟩
      · exact .scalar htag
      · exact .str htag
    · have hparts (hvalue : v.aliasFree = true) :
          v = .sequence info items ∧ List.Forall₂ Spells items parts := by
        rw [Node.resolve_of_aliasFree d hvalue] at hr
        subst hr
        have hitems := Node.aliasFreeItems_iff.mp hvalue
        have hboth := (List.forall₂_and_left items parts).mpr ⟨hitems, hall⟩
        exact ⟨rfl, hboth.imp fun _ _ h ↦ ih h.1 h.2⟩
      rcases hgroup with ⟨hgives, rfl⟩ | ⟨hgives, rfl⟩
      · obtain ⟨hvalue, hn⟩ := hgives.cases_aliasFree hfree
        obtain ⟨rfl, hspells⟩ := hparts hvalue
        rcases hn with ⟨rfl, -⟩ | ⟨outer, key, rfl⟩
        · exact .list hspells
        · exact .seq hspells
      · obtain ⟨hvalue, hn⟩ := hgives.cases_aliasFree hfree
        obtain ⟨rfl, hspells⟩ := hparts hvalue
        rcases hn with ⟨-, hkind⟩ | ⟨outer, key, rfl⟩
        · simp at hkind
        · exact .alt hspells

/-- A node without aliases is decoded as a tree exactly if it spells that tree and the tree has at
most ten thousand levels. So all spellings of a tree in whatever document are decoded alike, a
spelling with more levels is refused as an invalid value, and a node that spells nothing is refused
as well. This is what becomes of a text if its document is read as that node. -/
theorem atom_eq_ok_iff_spells (filename : Bytes) (d : Document) (n : Node)
    (hn : n.aliasFree = true) :
    (∀ a, atom filename d maxDepth n = .ok a ↔ Spells n a ∧ a.levels ≤ 10000) ∧
    (∀ a d' m, Spells n a → Spells m a → a.levels ≤ 10000 →
      atom filename d' maxDepth m = atom filename d maxDepth n) ∧
    (∀ a, Spells n a → 10000 < a.levels →
      ∃ e, atom filename d maxDepth n = .error e ∧ e.code = ⟨"E1004"⟩) ∧
    ((∀ a, ¬ Spells n a) → ∃ e, atom filename d maxDepth n = .error e) ∧
    ∀ (reader : Yaml.Reader) text, reader text = .ok (some d) → d.root = n →
      decode filename text reader = atom filename d maxDepth n := by
  have hiff (a : Atom) : atom filename d maxDepth n = .ok a ↔ Spells n a ∧ a.levels ≤ 10000 :=
    ⟨fun h ↦ ⟨spells_of_atom hn h, (plain_and_levels_le h).2⟩, fun h ↦ h.1.atom_eq_ok h.2⟩
  refine ⟨hiff, ?_, ?_, ?_, ?_⟩
  · intro a d' m ha hm hlevels
    exact (hm.atom_eq_ok hlevels).trans ((hiff a).mpr ⟨ha, hlevels⟩).symm
  · intro a ha hlevels
    cases h : atom filename d maxDepth n with
    | error e => exact ⟨e, rfl, ha.code_of_error h⟩
    | ok b =>
      obtain ⟨hb, hle⟩ := (hiff b).mp h
      obtain rfl := ha.unique hb
      omega
  · intro hnone
    cases h : atom filename d maxDepth n with
    | error e => exact ⟨e, rfl⟩
    | ok a => exact absurd ((hiff a).mp h).1 (hnone a)
  · rintro reader text hread rfl
    rw [decode, hread]

/-- A list with an empty list, a mapping and a choice of a literal and a sequence in it, once in
shorthand and once written out. -/
theorem atom_eq_ok_iff_spells_mixed :
    let short : Node := .sequence {} [.sequence {} [], .mapping {} [(.scalar {} "alt",
      .sequence {} [.scalar {} "a", .sequence {} [.scalar {} "b"]])]]
    let long : Node := .mapping {} [(.scalar {} "seq", .sequence {} [.mapping {} [(.scalar {} "seq",
      .sequence {} [])], .mapping {} [(.scalar {} "alt", .sequence {} [.mapping {} [
        (.scalar {} "str", .scalar {} "a")], .sequence {} [.scalar {} "b"]])]])]
    let a : Atom := .sequence [.sequence [], .choice [.literal "a", .sequence [.literal "b"]]]
    short.aliasFree = true ∧ long.aliasFree = true ∧ Spells short a ∧ Spells long a ∧
      atom [] ⟨short, #[]⟩ maxDepth short = .ok a ∧
      atom [] ⟨long, #[]⟩ maxDepth long = .ok a := by
  intro short long a
  have hnull : ({} : NodeInfo).tag ≠ ("!!null" : Bytes) := by decide
  have hb : Spells (.sequence {} [.scalar {} "b"]) (.sequence [.literal "b"]) :=
    .list (.cons (.scalar hnull) .nil)
  have hshort : Spells short a :=
    .list (.cons (.list .nil) (.cons (.alt (.cons (.scalar hnull) (.cons hb .nil))) .nil))
  have hlong : Spells long a :=
    .seq (.cons (.seq .nil) (.cons (.alt (.cons (.str hnull) (.cons hb .nil))) .nil))
  have hlevels : a.levels ≤ 10000 := by decide
  refine ⟨rfl, rfl, hshort, hlong, ?_, ?_⟩
  · exact ((atom_eq_ok_iff_spells [] ⟨short, #[]⟩ short rfl).1 a).mpr ⟨hshort, hlevels⟩
  · exact ((atom_eq_ok_iff_spells [] ⟨long, #[]⟩ long rfl).1 a).mpr ⟨hlong, hlevels⟩

end Grammar

end GrammarCode
