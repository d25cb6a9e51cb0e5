import GrammarCode.Proofs.NodeGraph

/-!
# Aliases stand for what they refer to

Decoding follows an alias wherever an atom, a literal or a list is asked for, so that a copy in its
place gives the same tree or an error of the same code, as long as neither form is followed to the
end of its levels. A key is not followed: an alias there counts by its own name. Hence copies may be
put in the place of all aliases but the keys, and in the place of a key if it is read as what it
stands for.
-/

namespace GrammarCode

/-- The kind that has a name. -/
def Kind.ofName? (name : Bytes) : Option Kind :=
  if name = (Kind.str.name : Bytes) then some .str
  else if name = (Kind.seq.name : Bytes) then some .seq
  else if name = (Kind.alt.name : Bytes) then some .alt
  else none

namespace Yaml.Document

/-- Whether the only key of a mapping is read as what it stands for: its own text and that of the
node it refers to name the same kind, or none. Other nodes have no such key. -/
def keyRead (d : Document) : Node → Bool
  | .mapping _ [(key, _)] => decide (Kind.ofName? key.text = Kind.ofName? (d.resolve key).text)
  | _ => true

/-- Every key that can be reached without following keys is read as what it stands for. -/
def KeysRead (d : Document) (n : Node) : Prop := ∀ m, d.Reaches false n m → d.keyRead m = true

/-- Whether all ways end within `depth` steps, with keys on them that are read as what they stand
for. -/
def keysReadWithin (d : Document) : Nat → Node → Bool
  | 0, _ => false
  | depth + 1, n => d.keyRead n && (d.next false n).all (d.keysReadWithin depth)

variable {d : Document} {keys : Bool} {depth : Nat} {n : Node}

theorem KeysRead.of_reaches {m : Node} (h : d.KeysRead n) (hm : d.Reaches false n m) :
    d.KeysRead m := fun x hx ↦ h x (hm.trans hx)

theorem keysRead_of_keysReadWithin (h : d.keysReadWithin depth n = true) : d.KeysRead n := by
  induction depth generalizing n with
  | zero => cases h
  | succ depth ih =>
    rw [keysReadWithin, Bool.and_eq_true, List.all_eq_true] at h
    intro m hm
    rcases Relation.ReflTransGen.cases_head hm with rfl | ⟨p, hp, hm⟩
    · exact h.1
    · exact ih (h.2 p hp) m hm

/-- What becomes of a key names the same kind, if keys are not expanded or are read as what they
stand for. -/
theorem Direct.ofName?_expandKey? (hd : d.Direct) {key key' : Node}
    (h : d.expandKey? keys depth key = some key')
    (hread : keys = true → Kind.ofName? key.text = Kind.ofName? (d.resolve key).text) :
    Kind.ofName? key'.text = Kind.ofName? key.text := by
  unfold expandKey? at h
  split at h
  · next hkeys => rw [hd.text_expand? h, hread hkeys]
  · obtain rfl := Option.some.inj h
    cases key <;> rfl

end Yaml.Document

namespace Grammar

open Yaml (Node NodeInfo Document)

/-! ### One level of decoding -/

/-- The atom of a kind that has a node as its value. -/
def valued (filename : Bytes) (d : Document) (depth : Nat) (v : Node) :
    Kind → Except GrammarError Atom
  | .str => literal filename d v
  | .seq => (list filename d depth v).map Atom.sequence
  | .alt => (list filename d depth v).map Atom.choice

/-- The error of a node for which no level is left. -/
def depthError (filename : Bytes) (n : Node) : GrammarError :=
  errorAt filename n .invalidValue
    (Bytes.cat ["grammar nests deeper than ", Bytes.decimalNat maxDepth, " levels"])

variable {filename : Bytes} {d d' : Document} {keys : Bool} {depth : Nat} {n v v' : Node}

theorem atom_of_isAlias (h : n.isAlias = true) :
    atom filename d (depth + 1) n = atom filename d depth (d.resolve n) := by
  match n with
  | .alias info name target => rfl
  | .scalar info text => cases h
  | .sequence info items => cases h
  | .mapping info entries => cases h

theorem atom_sequence {info : NodeInfo} {items : List Node} :
    atom filename d (depth + 1) (.sequence info items) =
      valued filename d depth (.sequence info items) .seq :=
  rfl

theorem atom_entry {info : NodeInfo} {key : Node} :
    atom filename d (depth + 1) (.mapping info [(key, v)]) =
      match Kind.ofName? key.text with
      | some kind => valued filename d depth v kind
      | none =>
        .error (errorAt filename key .unknownKey (GrammarError.unknownKeyText key.text)) := by
  rw [atom, Kind.ofName?]
  split
  · rfl
  · split
    · rfl
    · split <;> rfl

theorem atom_of_length_ne_one {info : NodeInfo} {entries : List (Node × Node)}
    (h : entries.length ≠ 1) :
    atom filename d (depth + 1) (.mapping info entries) =
      .error (errorAt filename (.mapping info entries) .ambiguousMapping
        (Bytes.cat ["atom mapping must have exactly one key, got ",
          Bytes.decimalNat entries.length])) := by
  rcases entries with _ | ⟨e, _ | ⟨e', rest⟩⟩
  · rfl
  · exact absurd rfl h
  · rfl

/-! ### Levels that are enough -/

/-- A result that says that a node was met for which no level is left. -/
def ReachesLimit {α : Type} (r : Except GrammarError α) : Prop :=
  ∃ filename n, r = .error (depthError filename n)

theorem not_reachesLimit_ok {α : Type} (a : α) :
    ¬ ReachesLimit (.ok a : Except GrammarError α) := by
  rintro ⟨filename, n, h⟩
  cases h

theorem reachesLimit_map {α β : Type} {r : Except GrammarError α} {f : α → β} :
    ReachesLimit (r.map f) ↔ ReachesLimit r := by
  cases r with
  | error e => simp [ReachesLimit, Except.map]
  | ok a => simp [ReachesLimit, Except.map]

-- A mapping over a list is kept where each result is that does not say that the limit is reached.
private theorem mapM_eq_of_not_reachesLimit {α β : Type} {f g : α → Except GrammarError β}
    {xs : List α} (hfg : ∀ x, ¬ ReachesLimit (f x) → g x = f x)
    (h : ¬ ReachesLimit (xs.mapM f)) : xs.mapM g = xs.mapM f := by
  induction xs with
  | nil => rfl
  | cons x rest ih =>
    rw [List.mapM_cons] at h
    rw [List.mapM_cons, List.mapM_cons]
    cases hx : f x with
    | error e =>
      rw [hx] at h
      rw [hfg x (by rw [hx]; rintro ⟨name, n, he⟩; exact h ⟨name, n, by cases he; rfl⟩), hx]
      rfl
    | ok y =>
      have hrest : ¬ ReachesLimit (rest.mapM f) := by
        rw [hx] at h
        rintro ⟨name, n, he⟩
        rw [he] at h
        exact h ⟨name, n, rfl⟩
      rw [hfg x (by rw [hx]; exact not_reachesLimit_ok y), hx, ih hrest]

private theorem valued_succ {kind : Kind}
    (hatom : ∀ n, ¬ ReachesLimit (atom filename d depth n) →
      atom filename d (depth + 1) n = atom filename d depth n)
    (h : ¬ ReachesLimit (valued filename d depth v kind)) :
    valued filename d (depth + 1) v kind = valued filename d depth v kind := by
  have hlist (hl : ¬ ReachesLimit (list filename d depth v)) :
      list filename d (depth + 1) v = list filename d depth v := by
    unfold list at hl ⊢
    split
    · next info items hv =>
      rw [hv] at hl
      exact mapM_eq_of_not_reachesLimit hatom hl
    · rfl
  cases kind with
  | str => rfl
  | seq =>
    rw [valued, reachesLimit_map] at h
    rw [valued, valued, hlist h]
  | alt =>
    rw [valued, reachesLimit_map] at h
    rw [valued, valued, hlist h]

/-- A result that does not say that the limit is reached stays the same if more levels are
followed. -/
theorem atom_succ_of_not_reachesLimit (h : ¬ ReachesLimit (atom filename d depth n)) :
    atom filename d (depth + 1) n = atom filename d depth n := by
  induction depth generalizing n with
  | zero => exact absurd ⟨filename, n, rfl⟩ h
  | succ depth ih =>
    match n with
    | .alias info name target => exact ih h
    | .scalar info text => rfl
    | .sequence info items =>
      rw [atom_sequence] at h
      rw [atom_sequence, atom_sequence]
      exact valued_succ (fun n ↦ ih) h
    | .mapping info [] => rfl
    | .mapping info (_ :: _ :: _) => rfl
    | .mapping info [(key, value)] =>
      rw [atom_entry] at h
      rw [atom_entry, atom_entry]
      cases hkind : Kind.ofName? key.text with
      | none => rfl
      | some kind =>
        rw [hkind] at h
        exact valued_succ (fun n ↦ ih) h

theorem atom_of_le_of_not_reachesLimit {depth' : Nat} (hle : depth ≤ depth')
    (h : ¬ ReachesLimit (atom filename d depth n)) :
    atom filename d depth' n = atom filename d depth n := by
  induction hle with
  | refl => rfl
  | step _ ih =>
    rw [atom_succ_of_not_reachesLimit (ih ▸ h), ih]

/-! ### Copies in the place of aliases -/

/-- A result with no more of an error than its code. -/
def verdict {α : Type} (r : Except GrammarError α) : Except ErrorCode α :=
  r.mapError GrammarError.code

theorem verdict_of_reachesLimit {α : Type} {r : Except GrammarError α} (h : ReachesLimit r) :
    verdict r = .error .invalidValue := by
  obtain ⟨filename, n, rfl⟩ := h
  rfl

theorem verdict_map {α β : Type} {r s : Except GrammarError α} (f : α → β)
    (h : verdict r = verdict s) : verdict (r.map f) = verdict (s.map f) := by
  have hcomm (r : Except GrammarError α) : verdict (r.map f) = (verdict r).map f := by
    cases r <;> rfl
  rw [hcomm, hcomm, h]

private theorem verdict_mapM {α β γ : Type} {f : α → Except GrammarError γ}
    {g : β → Except GrammarError γ} {xs : List α} {ys : List β}
    (h : List.Forall₂ (fun x y ↦ verdict (f x) = verdict (g y)) xs ys) :
    verdict (xs.mapM f) = verdict (ys.mapM g) := by
  induction h with
  | nil => rfl
  | @cons x y xs ys hxy _ ih =>
    have hcons {δ : Type} (p : δ → Except GrammarError γ) (z : δ) (zs : List δ) :
        verdict ((z :: zs).mapM p) = do
          let first ← verdict (p z)
          let rest ← verdict (zs.mapM p)
          return first :: rest := by
      rw [List.mapM_cons]
      cases p z with
      | error e => rfl
      | ok first => cases zs.mapM p <;> rfl
    rw [hcons, hcons, hxy, ih]

/-- A literal has the verdict of its expansion. -/
theorem verdict_literal (hd : d.Direct) (h : d.expand? keys depth v = some v') :
    verdict (literal filename d v) = verdict (literal filename d' v') := by
  unfold literal
  obtain ⟨info, text, hv, rfl⟩ | ⟨info, items, items', hv, rfl, -⟩ |
    ⟨info, entries, entries', hv, rfl⟩ := hd.expand?_cases (Document.expand?_succ h)
  · rw [hv]
    rfl
  · rw [hv]
    rfl
  · rw [hv]
    rfl

/-- A list has the verdict of its expansion, if its items have. -/
theorem verdict_list (hd : d.Direct) {i j : Nat} (h : d.expand? keys (depth + 1) v = some v')
    (hitems : ∀ x y, d.Reaches false v x → d.expand? keys depth x = some y →
      verdict (atom filename d i x) = verdict (atom filename d' j y)) :
    verdict (list filename d i v) = verdict (list filename d' j v') := by
  unfold list
  obtain ⟨info, text, hv, rfl⟩ | ⟨info, items, items', hv, rfl, hall⟩ |
    ⟨info, entries, entries', hv, rfl⟩ := hd.expand?_cases h
  · rw [hv]
    rfl
  · rw [hv]
    have hreached (x : Node) (hx : x ∈ items) : d.Reaches false v x := Document.reaches_item hv hx
    have hboth := (List.forall₂_and_left items items').mpr ⟨hreached, hall⟩
    exact verdict_mapM (hboth.imp fun x y hxy ↦ hitems x y hxy.1 hxy.2)
  · rw [hv]
    rfl

/-- An atom of any kind has the verdict of the one with the expansion of its value. -/
theorem verdict_valued (hd : d.Direct) {i j : Nat} (h : d.expand? keys (depth + 1) v = some v')
    (hitems : ∀ x y, d.Reaches false v x → d.expand? keys depth x = some y →
      verdict (atom filename d i x) = verdict (atom filename d' j y)) (kind : Kind) :
    verdict (valued filename d i v kind) = verdict (valued filename d' j v' kind) := by
  cases kind with
  | str => exact verdict_literal hd h
  | seq => exact verdict_map _ (verdict_list hd h hitems)
  | alt => exact verdict_map _ (verdict_list hd h hitems)

/-- Followed through as many levels as the expansion has steps, a node has the verdict of its
expansion. -/
theorem verdict_atom (hd : d.Direct) {i j : Nat} {m : Node}
    (hkeys : keys = true → d.KeysRead n) (h : d.expand? keys depth n = some m) (hi : depth ≤ i)
    (hj : depth ≤ j) : verdict (atom filename d i n) = verdict (atom filename d' j m) := by
  induction depth generalizing n m i j with
  | zero => cases h
  | succ depth ih =>
    obtain ⟨i, rfl⟩ : ∃ k, i = k + 1 := ⟨i - 1, by omega⟩
    obtain ⟨j, rfl⟩ : ∃ k, j = k + 1 := ⟨j - 1, by omega⟩
    have hitems (v : Node) (hv : d.Reaches false n v) (x y : Node) (hx : d.Reaches false v x)
        (hxy : d.expand? keys depth x = some y) :
        verdict (atom filename d i x) = verdict (atom filename d' j y) :=
      ih (fun hk ↦ (hkeys hk).of_reaches (hv.trans hx)) hxy (by omega) (by omega)
    match n with
    | .alias info name target =>
      rw [atom_of_isAlias rfl]
      rw [Document.expand?_of_isAlias rfl] at h
      have hresolve := d.reaches_resolve false (.alias info name target)
      exact ih (fun hk ↦ (hkeys hk).of_reaches hresolve) h (by omega) (by omega)
    | .scalar info text =>
      obtain rfl := Option.some.inj h
      exact verdict_literal hd h
    | .sequence info items =>
      obtain ⟨items', -, rfl⟩ := Document.expand?_sequence.mp h
      exact verdict_valued hd h (hitems _ .refl) .seq
    | .mapping info entries =>
      obtain ⟨entries', hentries, rfl⟩ := Document.expand?_mapping.mp h
      match entries, entries', hentries with
      | [], _, .nil => rfl
      | _ :: _ :: _, _, .cons _ (.cons _ _) => rfl
      | [(key, value)], _, .cons (b := (key', value')) ⟨hkey, hvalue⟩ .nil =>
        have hname := hd.ofName?_expandKey? hkey fun hk ↦
          of_decide_eq_true (hkeys hk _ .refl)
        rw [atom_entry, atom_entry, hname]
        cases Kind.ofName? key.text with
        | none => rfl
        | some kind =>
          have hreaches : d.Reaches false (.mapping info [(key, value)]) value :=
            .single Document.leads_value
          exact verdict_valued hd (Document.expand?_succ hvalue) (hitems _ hreaches) kind

/-- If no node that can be reached leads back to itself, then copies can be put in the place of the
aliases, and the tree that the node gives, or the code of the error, stays the same in whatever
document, unless one of the two forms is too deep. This goes for all aliases but the keys; it goes
for the keys as well, and then no alias is left, if every key is read as what it stands for. -/
theorem verdict_atom_eq_expansion (filename : Bytes) (d : Document) (hd : d.Direct) (keys : Bool)
    (n : Node) (hn : d.Acyclic keys n) (hkeys : keys = true → d.KeysRead n) :
    ∃ m, d.Expands keys n m ∧ (keys = true → m.aliasFree = true) ∧
      ∀ d', ¬ ReachesLimit (atom filename d maxDepth n) →
        ¬ ReachesLimit (atom filename d' maxDepth m) →
        verdict (atom filename d' maxDepth m) = verdict (atom filename d maxDepth n) := by
  obtain ⟨m, depth, hm⟩ := Document.exists_expands_iff_acyclic.mpr hn
  refine ⟨m, ⟨depth, hm⟩, ?_, ?_⟩
  · rintro rfl
    exact Document.aliasFree_of_expand? hm
  · intro d' hlimit hlimit'
    -- Both forms are followed as deep as the expansion goes, which changes neither result.
    rw [← atom_of_le_of_not_reachesLimit (Nat.le_max_left maxDepth depth) hlimit,
      ← atom_of_le_of_not_reachesLimit (Nat.le_max_left maxDepth depth) hlimit']
    exact (verdict_atom hd hkeys hm (Nat.le_max_right _ _) (Nat.le_max_right _ _)).symm

/-- Aliases as an item, as the value of each kind, and as a key that has the name it stands for. -/
theorem verdict_atom_eq_expansion_everywhere :
    let items : Node := .sequence {} [.alias {} "a" 1, .scalar {} "b"]
    let root : Node := .sequence {} [.mapping {} [(.scalar {} "str", .alias {} "a" 1)],
      .mapping {} [(.scalar {} "alt", .alias {} "both" 2)],
      .mapping {} [(.alias {} "seq" 0, .alias {} "both" 2)], .alias {} "both" 2]
    let d : Document := ⟨root, #[.scalar {} "seq", .scalar {} "a", items]⟩
    let items' : Node := .sequence {} [.scalar {} "a", .scalar {} "b"]
    let root' : Node := .sequence {} [.mapping {} [(.scalar {} "str", .scalar {} "a")],
      .mapping {} [(.scalar {} "alt", items')], .mapping {} [(.scalar {} "seq", items')], items']
    let both : List Atom := [.literal "a", .literal "b"]
    d.Direct ∧ d.Acyclic true root ∧ d.keysReadWithin 6 root = true ∧
      d.Expands true root root' ∧
      verdict (atom [] d maxDepth root) =
        .ok (.sequence [.literal "a", .choice both, .sequence both, .sequence both]) ∧
      verdict (atom [] ⟨root', #[]⟩ maxDepth root') = verdict (atom [] d maxDepth root) := by
  intro items root d items' root' both
  have hd : d.Direct := by decide
  have hroot : d.Expands true root root' := ⟨6, rfl⟩
  have hn : d.Acyclic true root := Document.exists_expands_iff_acyclic.mp ⟨root', hroot⟩
  have hwithin : d.keysReadWithin 6 root = true := by decide
  have hvalue : atom [] d maxDepth root =
      .ok (.sequence [.literal "a", .choice both, .sequence both, .sequence both]) := rfl
  obtain ⟨m, hm, -, hsame⟩ := verdict_atom_eq_expansion [] d hd true root hn fun _ ↦
    Document.keysRead_of_keysReadWithin hwithin
  obtain rfl := hm.unique hroot
  have hlimit : ¬ ReachesLimit (atom [] d maxDepth root) := hvalue ▸ not_reachesLimit_ok _
  have hlimit' : ¬ ReachesLimit (atom [] ⟨root', #[]⟩ maxDepth root') := not_reachesLimit_ok _
  exact ⟨hd, hn, hwithin, hroot, congrArg verdict hvalue, hsame ⟨root', #[]⟩ hlimit hlimit'⟩

/-- A key that is an alias of the name of a kind, under another name: the key is unknown, but a copy
of the name in its place gives a literal. -/
theorem verdict_atom_ne_alias_key :
    let root : Node := .sequence {} [.scalar {} "str",
      .mapping {} [(.alias {} "plus" 0, .scalar {} "b")]]
    let d : Document := ⟨root, #[.scalar {} "str"]⟩
    let root' : Node := .sequence {} [.scalar {} "str",
      .mapping {} [(.scalar {} "str", .scalar {} "b")]]
    d.Direct ∧ d.Acyclic true root ∧ d.Expands true root root' ∧
      ¬ ReachesLimit (atom [] d maxDepth root) ∧
      ¬ ReachesLimit (atom [] ⟨root', #[]⟩ maxDepth root') ∧
      verdict (atom [] d maxDepth root) = .error ⟨"E1002"⟩ ∧
      verdict (atom [] ⟨root', #[]⟩ maxDepth root') =
        .ok (.sequence [.literal "str", .literal "b"]) := by
  intro root d root'
  have hroot : d.Expands true root root' := ⟨4, rfl⟩
  have herror : verdict (atom [] d maxDepth root) = .error ⟨"E1002"⟩ := rfl
  refine ⟨by decide, Document.exists_expands_iff_acyclic.mp ⟨root', hroot⟩, hroot, ?_,
    not_reachesLimit_ok _, herror, rfl⟩
  intro hlimit
  rw [verdict_of_reachesLimit hlimit] at herror
  exact absurd (Except.error.inj herror) (by decide)

end Grammar

end GrammarCode
