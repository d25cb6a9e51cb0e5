import GrammarCode.Proofs.AliasTransparency

/-!
# Decoding comes to an end

The rules of decoding, with the levels counted from the root on. A level is counted for every atom
that is asked for, also through an alias; where a literal or a list is asked for, aliases are
followed without counting. If no alias refers to an alias, the rules give one result for every node,
wherever that may lead back to. An atom is always the tree that the expansion of the node spells, so
that a node without one is refused. Keys are taken by their own names here as well: a node that
leads back to itself through keys alone can give an atom.
-/

namespace GrammarCode

theorem Kind.ofName?_eq_some_iff {name : Bytes} {kind : Kind} :
    Kind.ofName? name = some kind ↔ name = (kind.name : Bytes) := by
  constructor
  · intro h
    unfold Kind.ofName? at h
    split at h
    · next hname => exact Option.some.inj h ▸ hname
    · split at h
      · next hname => exact Option.some.inj h ▸ hname
      · split at h
        · next hname => exact Option.some.inj h ▸ hname
        · cases h
  · rintro rfl
    cases kind <;> decide

theorem Kind.name_ne_nil (kind : Kind) : (kind.name : Bytes) ≠ [] := by
  cases kind <;> decide

namespace Yaml.Document

variable {d : Document} {keys : Bool} {depth : Nat}

theorem Direct.resolve_resolve (hd : d.Direct) (n : Node) :
    d.resolve (d.resolve n) = d.resolve n :=
  d.resolve_of_isAlias_eq_false (hd.isAlias_resolve n)

/-- A key that names a kind, and is read as what it stands for if keys are expanded, becomes a
scalar of that name. -/
theorem Direct.exists_expandKey? (hd : d.Direct) {key : Node} {kind : Kind}
    (hkey : key.text = (kind.name : Bytes))
    (hread : keys = true → Kind.ofName? key.text = Kind.ofName? (d.resolve key).text) :
    ∃ info, d.expandKey? keys (depth + 2) key = some (.scalar info (kind.name : Bytes)) := by
  have hname : key.text ≠ [] := hkey ▸ kind.name_ne_nil
  cases keys with
  | false =>
    match key with
    | .scalar info text => exact ⟨info, congrArg (some ∘ Node.scalar info) hkey⟩
    | .alias info name target => exact ⟨info, congrArg (some ∘ Node.scalar info) hkey⟩
    | .sequence info items => exact absurd rfl hname
    | .mapping info entries => exact absurd rfl hname
  | true =>
    have htarget : (d.resolve key).text = (kind.name : Bytes) := by
      rw [← Kind.ofName?_eq_some_iff, ← hread rfl, Kind.ofName?_eq_some_iff]
      exact hkey
    obtain ⟨info, text, hk⟩ | ⟨info, items, hk⟩ | ⟨info, entries, hk⟩ := hd.resolve_cases key
    · rw [hk] at htarget
      refine ⟨info, expand?_of_resolve ?_⟩
      rw [hk]
      exact congrArg (some ∘ Node.scalar info) htarget
    · rw [hk] at htarget
      exact absurd htarget.symm kind.name_ne_nil
    · rw [hk] at htarget
      exact absurd htarget.symm kind.name_ne_nil

end Yaml.Document

namespace Grammar

open Yaml (Node NodeInfo Document)

/-! ### Rules -/

section Rules

variable (filename : Bytes) (d : Document)

/-- What a node gives where a literal is asked for. -/
inductive DecodesLiteral : Node → Except GrammarError Atom → Prop
  | follow {n : Node} {r : Except GrammarError Atom} (halias : n.isAlias = true)
    (h : DecodesLiteral (d.resolve n) r) : DecodesLiteral n r
  | scalar {info : NodeInfo} {text : Bytes} (htag : info.tag ≠ Yaml.standardTag "null") :
    DecodesLiteral (.scalar info text) (.ok (.literal text))
  | null {info : NodeInfo} {text : Bytes} (htag : info.tag = Yaml.standardTag "null") :
    DecodesLiteral (.scalar info text) (.error (errorAt filename (.scalar info text) .invalidValue
      "literal pattern must not be null"))
  | sequence {info : NodeInfo} {items : List Node} :
    DecodesLiteral (.sequence info items) (.error (errorAt filename (.sequence info items)
      .invalidValue "literal pattern must be a scalar"))
  | mapping {info : NodeInfo} {entries : List (Node × Node)} :
    DecodesLiteral (.mapping info entries) (.error (errorAt filename (.mapping info entries)
      .invalidValue "literal pattern must be a scalar"))

mutual

/-- What a node gives where an atom is asked for on a level. -/
inductive Decodes : Nat → Node → Except GrammarError Atom → Prop
  | deep {level : Nat} {n : Node} (hlevel : maxDepth < level) :
    Decodes level n (.error (depthError filename n))
  | follow {level : Nat} {n : Node} {r : Except GrammarError Atom} (hlevel : level ≤ maxDepth)
    (halias : n.isAlias = true) (h : Decodes (level + 1) (d.resolve n) r) : Decodes level n r
  | scalar {level : Nat} {info : NodeInfo} {text : Bytes} {r : Except GrammarError Atom}
    (hlevel : level ≤ maxDepth) (h : DecodesLiteral filename d (.scalar info text) r) :
    Decodes level (.scalar info text) r
  | sequence {level : Nat} {info : NodeInfo} {items : List Node}
    {r : Except GrammarError (List Atom)} (hlevel : level ≤ maxDepth)
    (h : DecodesList level (.sequence info items) r) :
    Decodes level (.sequence info items) (r.map Atom.sequence)
  | str {level : Nat} {info : NodeInfo} {key value : Node} {r : Except GrammarError Atom}
    (hlevel : level ≤ maxDepth) (hkey : Kind.ofName? key.text = some .str)
    (h : DecodesLiteral filename d value r) : Decodes level (.mapping info [(key, value)]) r
  | seq {level : Nat} {info : NodeInfo} {key value : Node} {r : Except GrammarError (List Atom)}
    (hlevel : level ≤ maxDepth) (hkey : Kind.ofName? key.text = some .seq)
    (h : DecodesList level value r) :
    Decodes level (.mapping info [(key, value)]) (r.map Atom.sequence)
  | alt {level : Nat} {info : NodeInfo} {key value : Node} {r : Except GrammarError (List Atom)}
    (hlevel : level ≤ maxDepth) (hkey : Kind.ofName? key.text = some .alt)
    (h : DecodesList level value r) :
    Decodes level (.mapping info [(key, value)]) (r.map Atom.choice)
  | unknown {level : Nat} {info : NodeInfo} {key value : Node} (hlevel : level ≤ maxDepth)
    (hkey : Kind.ofName? key.text = none) :
    Decodes level (.mapping info [(key, value)])
      (.error (errorAt filename key .unknownKey (GrammarError.unknownKeyText key.text)))
  | ambiguous {level : Nat} {info : NodeInfo} {entries : List (Node × Node)}
    (hlevel : level ≤ maxDepth) (hlength : entries.length ≠ 1) :
    Decodes level (.mapping info entries)
      (.error (errorAt filename (.mapping info entries) .ambiguousMapping
        (Bytes.cat ["atom mapping must have exactly one key, got ",
          Bytes.decimalNat entries.length])))

/-- What a node gives where a list of atoms is asked for by an atom on a level. -/
inductive DecodesList : Nat → Node → Except GrammarError (List Atom) → Prop
  | follow {level : Nat} {n : Node} {r : Except GrammarError (List Atom)}
    (halias : n.isAlias = true) (h : DecodesList level (d.resolve n) r) : DecodesList level n r
  | sequence {level : Nat} {info : NodeInfo} {items : List Node}
    {r : Except GrammarError (List Atom)} (h : DecodesItems level items r) :
    DecodesList level (.sequence info items) r
  | scalar {level : Nat} {info : NodeInfo} {text : Bytes} :
    DecodesList level (.scalar info text) (.error (errorAt filename (.scalar info text)
      .invalidValue "expected a list of atoms"))
  | mapping {level : Nat} {info : NodeInfo} {entries : List (Node × Node)} :
    DecodesList level (.mapping info entries) (.error (errorAt filename (.mapping info entries)
      .invalidValue "expected a list of atoms"))

/-- What the items of a list give, each of them on the next level; the first error ends it. -/
inductive DecodesItems : Nat → List Node → Except GrammarError (List Atom) → Prop
  | nil {level : Nat} : DecodesItems level [] (.ok [])
  | fault {level : Nat} {n : Node} {rest : List Node} {e : GrammarError}
    (h : Decodes (level + 1) n (.error e)) : DecodesItems level (n :: rest) (.error e)
  | cons {level : Nat} {n : Node} {rest : List Node} {a : Atom}
    {r : Except GrammarError (List Atom)} (h : Decodes (level + 1) n (.ok a))
    (hrest : DecodesItems level rest r) : DecodesItems level (n :: rest) (r.map (a :: ·))

end

end Rules

/-! ### The rules give one result -/

variable {filename : Bytes} {d : Document} {keys : Bool} {depth level : Nat} {n v : Node} {a : Atom}

theorem decodesLiteral_iff (hd : d.Direct) {r : Except GrammarError Atom} :
    DecodesLiteral filename d n r ↔ r = literal filename d n := by
  constructor
  · intro h
    induction h with
    | follow halias h ih =>
      rw [ih, literal, literal, hd.resolve_resolve]
    | scalar htag => simp [literal, Document.resolve, htag]
    | null htag => simp [literal, Document.resolve, htag]
    | sequence => rfl
    | mapping => rfl
  · rintro rfl
    have hresolved : DecodesLiteral filename d (d.resolve n) (literal filename d n) := by
      unfold literal
      obtain ⟨info, text, hn⟩ | ⟨info, items, hn⟩ | ⟨info, entries, hn⟩ := hd.resolve_cases n
      · rw [hn]
        dsimp only
        split
        · next htag => exact .null htag
        · next htag => exact .scalar htag
      · rw [hn]
        exact .sequence
      · rw [hn]
        exact .mapping
    cases halias : n.isAlias with
    | true => exact .follow halias hresolved
    | false => rwa [d.resolve_of_isAlias_eq_false halias] at hresolved

-- The items of a list give what mapping over them gives, if that goes for each of them.
private theorem decodesItems_iff {items : List Node} {r : Except GrammarError (List Atom)}
    (hatom : ∀ n r, Decodes filename d (level + 1) n r ↔ r = atom filename d depth n) :
    DecodesItems filename d level items r ↔ r = items.mapM (atom filename d depth) := by
  induction items generalizing r with
  | nil =>
    constructor
    · rintro ⟨⟩
      rfl
    · rintro rfl
      exact .nil
  | cons n rest ih =>
    rw [List.mapM_cons]
    constructor
    · intro h
      cases h with
      | fault h =>
        rw [← (hatom n _).mp h]
        rfl
      | @cons _ _ _ a r h hrest =>
        rw [← (hatom n _).mp h, ← ih.mp hrest]
        cases r <;> rfl
    · rintro rfl
      cases hn : atom filename d depth n with
      | error e => exact .fault ((hatom n _).mpr hn.symm)
      | ok a =>
        have hcons := DecodesItems.cons ((hatom n _).mpr hn.symm) (ih.mpr rfl)
        cases hrest : rest.mapM (atom filename d depth) with
        | error e =>
          rw [hrest] at hcons
          exact hcons
        | ok parts =>
          rw [hrest] at hcons
          exact hcons

private theorem decodesList_iff (hd : d.Direct) {r : Except GrammarError (List Atom)}
    (hatom : ∀ n r, Decodes filename d (level + 1) n r ↔ r = atom filename d depth n) :
    DecodesList filename d level v r ↔ r = list filename d depth v := by
  -- What an alias stands for is no alias, so one step is followed at most.
  have hresolved : DecodesList filename d level (d.resolve v) r ↔ r = list filename d depth v := by
    unfold list
    obtain ⟨info, text, hv⟩ | ⟨info, items, hv⟩ | ⟨info, entries, hv⟩ := hd.resolve_cases v
    · rw [hv]
      constructor
      · rintro (⟨⟨⟩⟩ | _)
        rfl
      · rintro rfl
        exact .scalar
    · rw [hv, ← decodesItems_iff hatom]
      constructor
      · rintro (⟨⟨⟩⟩ | h)
        exact h
      · exact .sequence
    · rw [hv]
      constructor
      · rintro (⟨⟨⟩⟩ | _)
        rfl
      · rintro rfl
        exact .mapping
  rw [← hresolved]
  cases halias : v.isAlias with
  | false => rw [d.resolve_of_isAlias_eq_false halias]
  | true =>
    constructor
    · intro h
      cases h with
      | follow _ h => exact h
      | sequence _ => cases halias
      | scalar => cases halias
      | mapping => cases halias
    · exact .follow halias

-- One level of the rules, if the next one agrees with what is computed.
private theorem Decodes.eq_atom (hd : d.Direct) {r : Except GrammarError Atom}
    (hle : level ≤ maxDepth)
    (hatom : ∀ n r, Decodes filename d (level + 1) n r ↔ r = atom filename d depth n)
    (h : Decodes filename d level n r) : r = atom filename d (depth + 1) n := by
  cases h with
  | deep hdeep => omega
  | follow _ halias h => rw [atom_of_isAlias halias, (hatom _ _).mp h]
  | scalar _ h => exact (decodesLiteral_iff hd).mp h
  | sequence _ h => rw [atom_sequence, valued, (decodesList_iff hd hatom).mp h]
  | str _ hkey h =>
    rw [atom_entry, hkey, (decodesLiteral_iff hd).mp h]
    rfl
  | seq _ hkey h =>
    rw [atom_entry, hkey, (decodesList_iff hd hatom).mp h]
    rfl
  | alt _ hkey h =>
    rw [atom_entry, hkey, (decodesList_iff hd hatom).mp h]
    rfl
  | unknown _ hkey => rw [atom_entry, hkey]
  | ambiguous _ hlength => rw [atom_of_length_ne_one hlength]

private theorem decodes_atom (hd : d.Direct) (hle : level ≤ maxDepth)
    (hatom : ∀ n r, Decodes filename d (level + 1) n r ↔ r = atom filename d depth n) (n : Node) :
    Decodes filename d level n (atom filename d (depth + 1) n) := by
  have hlist (v : Node) : DecodesList filename d level v (list filename d depth v) :=
    (decodesList_iff hd hatom).mpr rfl
  have hliteral (v : Node) : DecodesLiteral filename d v (literal filename d v) :=
    (decodesLiteral_iff hd).mpr rfl
  rcases n with ⟨info, text⟩ | ⟨info, items⟩ | ⟨info, entries⟩ | ⟨info, name, target⟩
  · exact .scalar hle (hliteral _)
  · exact .sequence hle (hlist _)
  · by_cases hlength : entries.length = 1
    · obtain ⟨⟨key, value⟩, rfl⟩ := List.length_eq_one_iff.mp hlength
      rw [atom_entry]
      cases hkey : Kind.ofName? key.text with
      | none => exact .unknown hle hkey
      | some kind =>
        cases kind with
        | str => exact .str hle hkey (hliteral value)
        | seq => exact .seq hle hkey (hlist value)
        | alt => exact .alt hle hkey (hlist value)
    · rw [atom_of_length_ne_one hlength]
      exact .ambiguous hle hlength
  · exact .follow hle rfl ((hatom _ _).mpr rfl)

/-- By the rules a node gives, on every level, what it gives if it is followed through the levels
that are left. -/
theorem decodes_iff (hd : d.Direct) {r : Except GrammarError Atom}
    (hlevel : level + depth = maxDepth + 1) :
    Decodes filename d level n r ↔ r = atom filename d depth n := by
  induction depth generalizing level n r with
  | zero =>
    constructor
    · intro h
      cases h with
      | deep _ => rfl
      | _ => omega
    · rintro rfl
      exact .deep (by omega)
  | succ depth ih =>
    have hle : level ≤ maxDepth := by omega
    have hatom (n : Node) (r : Except GrammarError Atom) :
        Decodes filename d (level + 1) n r ↔ r = atom filename d depth n := ih (by omega)
    constructor
    · exact Decodes.eq_atom hd hle hatom
    · rintro rfl
      exact decodes_atom hd hle hatom n

/-! ### Atoms are spelled by the expansion -/

theorem Gives.reaches {kind : Kind} (h : Gives n kind v) : d.Reaches false n v := by
  cases h with
  | scalar info text => exact .refl
  | sequence info items => exact .refl
  | entry info value hkey => exact .single Document.leads_value

/-- The expansion of a node gives that of the value. -/
theorem Gives.exists_expand? (hd : d.Direct) {kind : Kind} {v' : Node} (h : Gives n kind v)
    (hread : keys = true → d.keyRead n = true) (hv : d.expand? keys (depth + 2) v = some v') :
    ∃ m, d.expand? keys (depth + 3) n = some m ∧
      (m = v' ∧ (kind = .str ∨ kind = .seq) ∨
        ∃ outer key, m = .mapping outer [(.scalar key (kind.name : Bytes), v')]) := by
  cases h with
  | scalar info text => exact ⟨v', Document.expand?_succ hv, Or.inl ⟨rfl, Or.inl rfl⟩⟩
  | sequence info items => exact ⟨v', Document.expand?_succ hv, Or.inl ⟨rfl, Or.inr rfl⟩⟩
  | entry outer value hkey =>
    obtain ⟨key', hkey'⟩ := hd.exists_expandKey? hkey fun hk ↦ of_decide_eq_true (hread hk)
    refine ⟨.mapping outer [(.scalar key' (kind.name : Bytes), v')], ?_, Or.inr ⟨outer, key', rfl⟩⟩
    exact Document.expand?_mapping.mpr ⟨_, .cons ⟨hkey', hv⟩ .nil, rfl⟩

private theorem exists_between {α β γ : Type} {R : α → β → Prop} {S : β → γ → Prop} {xs : List α}
    {zs : List γ} (h : List.Forall₂ (fun x z ↦ ∃ y, R x y ∧ S y z) xs zs) :
    ∃ ys, List.Forall₂ R xs ys ∧ List.Forall₂ S ys zs := by
  induction h with
  | nil => exact ⟨[], .nil, .nil⟩
  | cons hxz _ ih =>
    obtain ⟨y, hxy, hyz⟩ := hxz
    obtain ⟨ys, hxs, hzs⟩ := ih
    exact ⟨y :: ys, .cons hxy hxs, .cons hyz hzs⟩

/-- A node that gives an atom has an expansion, and that spells the atom. Each level takes three
steps at most: a mapping, an alias of the value, and the value. -/
theorem exists_expand?_of_atom (hd : d.Direct) (hkeys : keys = true → d.KeysRead n)
    (h : atom filename d depth n = .ok a) :
    ∃ m, d.expand? keys (3 * depth) n = some m ∧ Spells m a := by
  induction depth generalizing n a with
  | zero => cases h
  | succ depth ih =>
    rcases atom_succ_eq_ok_iff.mp h with ⟨_, _, _, -, h⟩ |
      ⟨v, info, text, hgives, hr, htag, rfl⟩ | ⟨v, info, items, parts, hr, hall, hgroup⟩
    · have hresolve := d.reaches_resolve false n
      obtain ⟨m, hm, hspells⟩ := ih (fun hk ↦ (hkeys hk).of_reaches hresolve) h
      exact ⟨m, Document.expand?_mono (Document.expand?_of_resolve hm) (by omega), hspells⟩
    · have hv : d.expand? keys (3 * depth + 2) v = some (.scalar info text) :=
        Document.expand?_of_resolve (by rw [hr]; rfl)
      obtain ⟨m, hm, hspells⟩ := hgives.exists_expand? hd (fun hk ↦ hkeys hk n .refl) hv
      refine ⟨m, hm, ?_⟩
      rcases hspells with ⟨rfl, -⟩ | ⟨outer, key, rfl⟩
      · exact .scalar htag
      · exact .str htag
    · have hv (hvalue : d.Reaches false n v) : ∃ items', List.Forall₂ Spells items' parts ∧
          d.expand? keys (3 * depth + 2) v = some (.sequence info items') := by
        have hitem (x : Node) (hx : x ∈ items) : d.Reaches false n x :=
          hvalue.trans (Document.reaches_item hr hx)
        have hboth := (List.forall₂_and_left items parts).mpr ⟨hitem, hall⟩
        have hparts : List.Forall₂ (fun x b ↦ ∃ y, d.expand? keys (3 * depth) x = some y ∧
            Spells y b) items parts :=
          hboth.imp fun x b hx ↦ ih (fun hk ↦ (hkeys hk).of_reaches hx.1) hx.2
        obtain ⟨items', hitems, hspells⟩ := exists_between hparts
        refine ⟨items', hspells, Document.expand?_of_resolve ?_⟩
        rw [hr]
        exact Document.expand?_sequence.mpr ⟨items', hitems, rfl⟩
      rcases hgroup with ⟨hgives, rfl⟩ | ⟨hgives, rfl⟩
      · obtain ⟨items', hparts, hv⟩ := hv hgives.reaches
        obtain ⟨m, hm, hspells⟩ := hgives.exists_expand? hd (fun hk ↦ hkeys hk n .refl) hv
        refine ⟨m, hm, ?_⟩
        rcases hspells with ⟨rfl, -⟩ | ⟨outer, key, rfl⟩
        · exact .list hparts
        · exact .seq hparts
      · obtain ⟨items', hparts, hv⟩ := hv hgives.reaches
        obtain ⟨m, hm, hspells⟩ := hgives.exists_expand? hd (fun hk ↦ hkeys hk n .refl) hv
        refine ⟨m, hm, ?_⟩
        rcases hspells with ⟨-, hkind⟩ | ⟨outer, key, rfl⟩
        · simp at hkind
        · exact .alt hparts

/-- By the rules every node gives one result, an atom or an error, and this is the one that is
computed. An atom has at most ten thousand levels, and the expansion of the node spells it; a node
that leads back to itself has none, so it gives an error. This goes for nodes whose keys are taken
by their own names, and for nodes whose keys are expanded too if every key is read as what it stands
for. It is what becomes of a text whose document is read as this one; no alias refers to an alias in
the documents that are read here. -/
theorem decodes_once_as_spelled (filename : Bytes) (d : Document) (hd : d.Direct) (n : Node) :
    (∃! r, Decodes filename d 1 n r) ∧ Decodes filename d 1 n (atom filename d maxDepth n) ∧
    (∀ keys, (keys = true → d.KeysRead n) →
      (∀ a, atom filename d maxDepth n = .ok a →
        a.levels ≤ 10000 ∧ ∃ m, d.Expands keys n m ∧ Spells m a) ∧
      (¬ d.Acyclic keys n → ∃ e, atom filename d maxDepth n = .error e)) ∧
    (∀ (reader : Yaml.Reader) text, reader text = .ok (some d) →
      decode filename text reader = atom filename d maxDepth d.root) ∧
    ∀ text d', Yaml.parse text = .ok (some d') →
      d'.Direct ∧ decode filename text = atom filename d' maxDepth d'.root := by
  have hrules (r : Except GrammarError Atom) :
      Decodes filename d 1 n r ↔ r = atom filename d maxDepth n :=
    decodes_iff hd (Nat.add_comm 1 maxDepth)
  have hdecode (reader : Yaml.Reader) {text : Bytes} {d' : Document}
      (hread : reader text = .ok (some d')) :
      decode filename text reader = atom filename d' maxDepth d'.root := by
    rw [decode, hread]
  refine ⟨⟨_, (hrules _).mpr rfl, fun r hr ↦ (hrules r).mp hr⟩, (hrules _).mpr rfl, ?_,
    fun reader _ ↦ hdecode reader, ?_⟩
  · intro keys hkeys
    have hspelled (a : Atom) (h : atom filename d maxDepth n = .ok a) :
        ∃ m, d.Expands keys n m ∧ Spells m a := by
      obtain ⟨m, hm, hspells⟩ := exists_expand?_of_atom hd hkeys h
      exact ⟨m, ⟨_, hm⟩, hspells⟩
    refine ⟨fun a h ↦ ⟨(plain_and_levels_le h).2, hspelled a h⟩, fun hcycle ↦ ?_⟩
    cases h : atom filename d maxDepth n with
    | error e => exact ⟨e, rfl⟩
    | ok a =>
      obtain ⟨m, hm, -⟩ := hspelled a h
      exact absurd (Document.exists_expands_iff_acyclic.mp ⟨m, hm⟩) hcycle
  · intro text d' hparse
    exact ⟨Document.direct_of_parse hparse, hdecode Yaml.parse hparse⟩

/-- A list with itself as the value of one of its items, and a list of two aliases of a literal. -/
theorem decodes_once_as_spelled_cyclic :
    let around : Node := .sequence {} [.scalar {} "a",
      .mapping {} [(.scalar {} "alt", .alias {} "x" 0)]]
    let d : Document := ⟨around, #[around]⟩
    let twice : Node := .sequence {} [.alias {} "x" 0, .alias {} "x" 0]
    let d' : Document := ⟨twice, #[.scalar {} "a"]⟩
    d.Direct ∧ ¬ d.Acyclic false around ∧ (∃ e, atom [] d maxDepth around = .error e) ∧
      d'.Direct ∧ d'.keysReadWithin 3 twice = true ∧
      ∃ m, d'.Expands true twice m ∧ Spells m (.sequence [.literal "a", .literal "a"]) := by
  intro around d twice d'
  have hd : d.Direct := by decide
  have hd' : d'.Direct := by decide
  have hcycle : Relation.TransGen (d.Leads false) around around := by
    refine .head (b := .mapping {} [(.scalar {} "alt", .alias {} "x" 0)]) ?_ (.head
      Document.leads_value (.single ?_))
    · exact Document.leads_item (by simp)
    · exact List.mem_singleton_self _
  have hacyclic : ¬ d.Acyclic false around := fun h ↦ h around .refl hcycle
  have hread : d'.keysReadWithin 3 twice = true := by decide
  have herror := ((decodes_once_as_spelled [] d hd around).2.2.1 false (by simp)).2 hacyclic
  have hatom : atom [] d' maxDepth twice = .ok (.sequence [.literal "a", .literal "a"]) := rfl
  have hspelled := ((decodes_once_as_spelled [] d' hd' twice).2.2.1 true fun _ ↦
    Document.keysRead_of_keysReadWithin hread).1 _ hatom
  exact ⟨hd, hacyclic, herror, hd', hread, hspelled.2⟩

/-- A mapping that is its own key, under the name of a kind: it cannot be written out, and yet it
gives a literal. -/
theorem atom_of_cyclic_key :
    let root : Node := .mapping {} [(.alias {} "str" 0, .scalar {} "a")]
    let d : Document := ⟨root, #[root]⟩
    d.Direct ∧ ¬ d.Acyclic true root ∧ (∀ m, ¬ d.Expands true root m) ∧
      atom [] d maxDepth root = .ok (.literal "a") := by
  intro root d
  have hcycle : Relation.TransGen (d.Leads true) root root := by
    refine .head (b := .alias {} "str" 0) ?_ (.single ?_)
    · exact List.mem_cons_self
    · exact List.mem_singleton_self _
  have hacyclic : ¬ d.Acyclic true root := fun h ↦ h root .refl hcycle
  refine ⟨by decide, hacyclic, fun m hm ↦ ?_, rfl⟩
  exact hacyclic (Document.exists_expands_iff_acyclic.mp ⟨m, hm⟩)

end Grammar

end GrammarCode
