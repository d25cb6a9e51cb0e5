import Mathlib.Data.Fintype.Card
import Mathlib.Data.List.Forall2
import Mathlib.Data.Set.Finite.Lattice
import Mathlib.Logic.Relation
import GrammarCode.Proofs.Spelling

/-!
# Documents as graphs

A node leads to its parts, and an alias to the node that it refers to. A document is finite, but a
node may lead back to itself through an alias, and then it cannot be written out: it has a finite
expansion exactly if nothing that can be reached from it leads back to itself. Keys may be expanded
like all other nodes, or an alias among them may be taken by its own name.
-/

namespace GrammarCode.Yaml

namespace Node

/-- Whether a node is an alias. -/
def isAlias : Node → Bool
  | .alias _ _ _ => true
  | .scalar _ _ => false
  | .sequence _ _ => false
  | .mapping _ _ => false

/-- A key by its own text: an alias as a scalar of its name, any other node as it is. -/
def named : Node → Node
  | .alias info name _ => .scalar info name
  | n => n

/-- The nodes that a node consists of, with the keys or without. -/
def parts (keys : Bool) : Node → List Node
  | .sequence _ items => items
  | .mapping _ entries => entries.flatMap fun (key, value) ↦ if keys then [key, value] else [value]
  | .scalar _ _ => []
  | .alias _ _ _ => []

theorem aliasFreeEntries_iff {entries : List (Node × Node)} :
    aliasFreeEntries entries = true ↔
      ∀ e ∈ entries, e.1.aliasFree = true ∧ e.2.aliasFree = true := by
  induction entries with
  | nil => simp [aliasFreeEntries]
  | cons e rest ih =>
    rw [aliasFreeEntries, Bool.and_eq_true, Bool.and_eq_true, ih, List.forall_mem_cons]

end Node

namespace Document

/-- The nodes that a node leads to. -/
def next (d : Document) (keys : Bool) (n : Node) : List Node :=
  if n.isAlias then [d.resolve n] else n.parts keys

/-- A node leads to another one. -/
def Leads (d : Document) (keys : Bool) (n m : Node) : Prop := m ∈ d.next keys n

/-- A node can be reached from another one. -/
abbrev Reaches (d : Document) (keys : Bool) : Node → Node → Prop :=
  Relation.ReflTransGen (d.Leads keys)

/-- No node that can be reached leads back to itself. -/
def Acyclic (d : Document) (keys : Bool) (n : Node) : Prop :=
  ∀ m, d.Reaches keys n m → ¬ Relation.TransGen (d.Leads keys) m m

/-- No anchored node is an alias, so that one step leads from an alias to what it stands for. -/
def Direct (d : Document) : Prop := ∀ n ∈ d.anchored, n.isAlias = false

instance (d : Document) : Decidable d.Direct :=
  inferInstanceAs (Decidable (∀ n ∈ d.anchored, n.isAlias = false))

/-- The node with a copy of what it refers to in the place of every alias, if that ends within
`depth` steps. With `keys`, this goes for keys as well; else an alias that is a key is replaced by
its own name. -/
def expand? (d : Document) (keys : Bool) : Nat → Node → Option Node
  | 0, _ => none
  | depth + 1, n =>
    match n with
    | .scalar _ _ => some n
    | .sequence info items => (items.mapM (d.expand? keys depth)).map (Node.sequence info)
    | .mapping info entries =>
      let ofKey (key : Node) := if keys then d.expand? keys depth key else some key.named
      let entry (e : Node × Node) : Option (Node × Node) := do
        return (← ofKey e.1, ← d.expand? keys depth e.2)
      (entries.mapM entry).map (Node.mapping info)
    | .alias _ _ _ => d.expand? keys depth (d.resolve n)

/-- A node has a finite expansion. -/
def Expands (d : Document) (keys : Bool) (n m : Node) : Prop :=
  ∃ depth, d.expand? keys depth n = some m

end Document

/-! ### Aliases -/

namespace Document

variable {d : Document} {keys : Bool} {depth : Nat} {n m : Node}

/-- What an alias stands for is no alias. -/
theorem Direct.isAlias_resolve (hd : d.Direct) (n : Node) : (d.resolve n).isAlias = false := by
  match n with
  | .alias info name target =>
    rw [resolve, Array.getD_eq_getD_getElem?]
    cases hget : d.anchored[target]? with
    | none => rfl
    | some m => exact hd m (Array.mem_of_getElem? hget)
  | .scalar info text => rfl
  | .sequence info items => rfl
  | .mapping info entries => rfl

theorem resolve_of_isAlias_eq_false (d : Document) (h : n.isAlias = false) : d.resolve n = n := by
  match n with
  | .alias info name target => cases h
  | .scalar info text => rfl
  | .sequence info items => rfl
  | .mapping info entries => rfl

/-- A node stands for a scalar, a sequence or a mapping. -/
theorem Direct.resolve_cases (hd : d.Direct) (n : Node) :
    (∃ info text, d.resolve n = .scalar info text) ∨
      (∃ info items, d.resolve n = .sequence info items) ∨
      ∃ info entries, d.resolve n = .mapping info entries := by
  have hdirect := hd.isAlias_resolve n
  match hn : d.resolve n with
  | .scalar info text => exact Or.inl ⟨info, text, rfl⟩
  | .sequence info items => exact Or.inr (Or.inl ⟨info, items, rfl⟩)
  | .mapping info entries => exact Or.inr (Or.inr ⟨info, entries, rfl⟩)
  | .alias info name target =>
    rw [hn] at hdirect
    cases hdirect

theorem reaches_resolve (d : Document) (keys : Bool) (n : Node) :
    d.Reaches keys n (d.resolve n) := by
  cases h : n.isAlias with
  | true =>
    refine Relation.ReflTransGen.single ?_
    rw [Leads, next, if_pos h]
    exact List.mem_singleton_self _
  | false =>
    rw [d.resolve_of_isAlias_eq_false h]

theorem leads_item {info : NodeInfo} {items : List Node} (h : m ∈ items) :
    d.Leads keys (.sequence info items) m := h

/-- The items of the sequence that a node stands for can be reached from it. -/
theorem reaches_item {info : NodeInfo} {items : List Node} (h : d.resolve n = .sequence info items)
    (hm : m ∈ items) : d.Reaches keys n m := by
  have hresolve := d.reaches_resolve keys n
  rw [h] at hresolve
  exact hresolve.tail (leads_item hm)

theorem leads_value {info : NodeInfo} {key : Node} :
    d.Leads keys (.mapping info [(key, m)]) m := by
  cases keys <;> simp [Leads, next, Node.isAlias, Node.parts]

namespace Builder

-- All that is anchored so far is no alias.
private def Direct (b : Builder) : Prop := ∀ n ∈ b.anchored, n.isAlias = false

private theorem Direct.anchor {b : Builder} (h : b.Direct) (name : Bytes) :
    (b.anchor name).1.Direct := by
  unfold Builder.anchor
  split
  · exact h
  · intro n hn
    rcases Array.mem_push.mp hn with hn | rfl
    · exact h n hn
    · rfl

private theorem Direct.place {b : Builder} (h : b.Direct) (number : Option Nat) {n : Node}
    (hn : number.isSome = true → n.isAlias = false) : (b.place number n).Direct := by
  unfold Builder.place
  cases number with
  | none =>
    dsimp only
    split <;> exact h
  | some k =>
    have hset : ∀ m ∈ b.anchored.setIfInBounds k n, m.isAlias = false := by
      intro m hm
      rcases Array.mem_or_eq_of_mem_setIfInBounds hm with hm | rfl
      · exact h m hm
      · exact hn rfl
    dsimp only
    split <;> exact hset

private theorem isAlias_node (f : Frame) : f.node.isAlias = false := by
  unfold Frame.node
  split <;> rfl

private theorem Direct.leave {b : Builder} (h : b.Direct) : b.leave.Direct := by
  unfold Builder.leave
  split
  · next f outer _ =>
    exact Direct.place (b := { b with frames := outer }) h _ fun _ ↦ isAlias_node f
  · exact h

private theorem Direct.step {b : Builder} (h : b.Direct) (e : Event) : (b.step e).Direct := by
  unfold Builder.step
  dsimp only
  split
  · exact h.place none (by simp)
  · exact (h.anchor _).place _ fun _ ↦ rfl
  · exact h.anchor _
  · exact h.anchor _
  · exact h.leave
  · exact h.leave

end Builder

/-- In a document that was read, no anchored node is an alias. -/
theorem direct_of_parse {text : Bytes} (h : parse text = .ok (some d)) : d.Direct := by
  have hfold (events : List Event) (b : Builder) (hb : b.Direct) :
      (events.foldl Builder.step b).Direct := by
    induction events generalizing b with
    | nil => exact hb
    | cons e rest ih => exact ih (b.step e) (hb.step e)
  unfold parse at h
  split at h
  · next found _ =>
    obtain ⟨events, -, rfl⟩ := Option.map_eq_some_iff.mp (Except.ok.inj h)
    intro n hn
    unfold ofEvents at hn
    rw [← Array.foldl_toList] at hn
    exact hfold events.toList {} (by simp [Builder.Direct]) n hn
  · cases h

/-! ### Expansion -/

private theorem mapM_eq_some_iff {α β : Type} {f : α → Option β} {xs : List α} {ys : List β} :
    xs.mapM f = some ys ↔ List.Forall₂ (fun x y ↦ f x = some y) xs ys :=
  mapM_eq_pure_iff Option.some.inj Option.bind_eq_some_iff

private theorem exists_forall₂_iff {α β : Type} {R : α → β → Prop} {xs : List α} :
    (∃ ys, List.Forall₂ R xs ys) ↔ ∀ x ∈ xs, ∃ y, R x y := by
  induction xs with
  | nil => simp
  | cons x rest ih =>
    rw [List.forall_mem_cons, ← ih]
    constructor
    · rintro ⟨_, hxy | ⟨hxy, hrest⟩⟩
      exact ⟨⟨_, hxy⟩, _, hrest⟩
    · rintro ⟨⟨y, hxy⟩, ys, hrest⟩
      exact ⟨y :: ys, .cons hxy hrest⟩

/-- What becomes of a key. -/
def expandKey? (d : Document) (keys : Bool) (depth : Nat) (key : Node) : Option Node :=
  if keys then d.expand? keys depth key else some key.named

theorem expand?_sequence {info : NodeInfo} {items : List Node} :
    d.expand? keys (depth + 1) (.sequence info items) = some m ↔
      ∃ items', List.Forall₂ (fun x y ↦ d.expand? keys depth x = some y) items items' ∧
        .sequence info items' = m := by
  rw [expand?, Option.map_eq_some_iff]
  simp only [mapM_eq_some_iff]

theorem expand?_mapping {info : NodeInfo} {entries : List (Node × Node)} :
    d.expand? keys (depth + 1) (.mapping info entries) = some m ↔
      ∃ entries', List.Forall₂ (fun e e' ↦ d.expandKey? keys depth e.1 = some e'.1 ∧
        d.expand? keys depth e.2 = some e'.2) entries entries' ∧ .mapping info entries' = m := by
  rw [expand?, Option.map_eq_some_iff]
  refine exists_congr fun entries' ↦ and_congr_left fun _ ↦ ?_
  rw [mapM_eq_some_iff]
  refine iff_of_eq (congrArg (List.Forall₂ · entries entries') ?_)
  funext e e'
  change ((do return (← d.expandKey? keys depth e.1, ← d.expand? keys depth e.2) : Option _) =
    some e') = _
  simp [Option.bind_eq_some_iff, Prod.ext_iff]

theorem expand?_of_isAlias (h : n.isAlias = true) :
    d.expand? keys (depth + 1) n = d.expand? keys depth (d.resolve n) := by
  match n with
  | .alias info name target => rfl
  | .scalar info text => cases h
  | .sequence info items => cases h
  | .mapping info entries => cases h

/-- More steps give the same expansion. -/
theorem expand?_succ (h : d.expand? keys depth n = some m) :
    d.expand? keys (depth + 1) n = some m := by
  induction depth generalizing n m with
  | zero => cases h
  | succ depth ih =>
    match n with
    | .scalar info text => exact h
    | .alias info name target => exact ih h
    | .sequence info items =>
      obtain ⟨items', hitems, rfl⟩ := expand?_sequence.mp h
      exact expand?_sequence.mpr ⟨items', hitems.imp fun _ _ ↦ ih, rfl⟩
    | .mapping info entries =>
      obtain ⟨entries', hentries, rfl⟩ := expand?_mapping.mp h
      refine expand?_mapping.mpr ⟨entries', hentries.imp fun e e' he ↦ ⟨?_, ih he.2⟩, rfl⟩
      have hkey := he.1
      unfold expandKey? at hkey ⊢
      split
      · next hkeys =>
        rw [if_pos hkeys] at hkey
        exact ih hkey
      · next hkeys =>
        rw [if_neg hkeys] at hkey
        exact hkey

theorem expand?_mono {depth' : Nat} (h : d.expand? keys depth n = some m) (hle : depth ≤ depth') :
    d.expand? keys depth' n = some m := by
  induction hle with
  | refl => exact h
  | step _ ih => exact expand?_succ ih

/-- A node is expanded in one step more than what it stands for. -/
theorem expand?_of_resolve (h : d.expand? keys depth (d.resolve n) = some m) :
    d.expand? keys (depth + 1) n = some m := by
  cases halias : n.isAlias with
  | true => rwa [expand?_of_isAlias halias]
  | false =>
    rw [d.resolve_of_isAlias_eq_false halias] at h
    exact expand?_succ h

theorem expand?_resolve (h : d.expand? keys depth n = some m) :
    d.expand? keys depth (d.resolve n) = some m := by
  cases halias : n.isAlias with
  | false => rwa [d.resolve_of_isAlias_eq_false halias]
  | true =>
    cases depth with
    | zero => cases h
    | succ depth =>
      rw [expand?_of_isAlias halias] at h
      exact expand?_succ h

/-- What a node stands for and its expansion are of one form. -/
theorem Direct.expand?_cases (hd : d.Direct) (h : d.expand? keys (depth + 1) n = some m) :
    (∃ info text, d.resolve n = .scalar info text ∧ m = .scalar info text) ∨
    (∃ info items items', d.resolve n = .sequence info items ∧ m = .sequence info items' ∧
      List.Forall₂ (fun x y ↦ d.expand? keys depth x = some y) items items') ∨
    ∃ info entries entries', d.resolve n = .mapping info entries ∧ m = .mapping info entries' := by
  have hresolve := expand?_resolve h
  obtain ⟨info, text, hn⟩ | ⟨info, items, hn⟩ | ⟨info, entries, hn⟩ := hd.resolve_cases n
  · rw [hn] at hresolve
    exact Or.inl ⟨info, text, hn, (Option.some.inj hresolve).symm⟩
  · rw [hn] at hresolve
    obtain ⟨items', hitems, rfl⟩ := expand?_sequence.mp hresolve
    exact Or.inr (Or.inl ⟨info, items, items', hn, rfl, hitems⟩)
  · rw [hn] at hresolve
    obtain ⟨entries', -, rfl⟩ := expand?_mapping.mp hresolve
    exact Or.inr (Or.inr ⟨info, entries, entries', hn, rfl⟩)

/-- The expansion of a node has the text of what the node stands for. -/
theorem Direct.text_expand? (hd : d.Direct) (h : d.expand? keys depth n = some m) :
    m.text = (d.resolve n).text := by
  obtain ⟨info, text, hn, rfl⟩ | ⟨info, items, items', hn, rfl, -⟩ |
    ⟨info, entries, entries', hn, rfl⟩ := hd.expand?_cases (expand?_succ h)
  · rw [hn]
  · rw [hn]
    rfl
  · rw [hn]
    rfl

/-- A node has at most one expansion. -/
theorem Expands.unique {m' : Node} (h : d.Expands keys n m) (h' : d.Expands keys n m') :
    m = m' := by
  obtain ⟨depth, h⟩ := h
  obtain ⟨depth', h'⟩ := h'
  have hboth := (expand?_mono h (Nat.le_max_left depth depth')).symm.trans
    (expand?_mono h' (Nat.le_max_right depth depth'))
  exact Option.some.inj hboth

/-- If keys are expanded too, no alias is left. -/
theorem aliasFree_of_expand? (h : d.expand? true depth n = some m) : m.aliasFree = true := by
  induction depth generalizing n m with
  | zero => cases h
  | succ depth ih =>
    match n with
    | .scalar info text =>
      obtain rfl := Option.some.inj h
      rfl
    | .alias info name target => exact ih h
    | .sequence info items =>
      obtain ⟨items', hitems, rfl⟩ := expand?_sequence.mp h
      exact Node.aliasFreeItems_iff.mpr (forall_of_forall₂ hitems fun _ _ ↦ ih)
    | .mapping info entries =>
      obtain ⟨entries', hentries, rfl⟩ := expand?_mapping.mp h
      exact Node.aliasFreeEntries_iff.mpr
        (forall_of_forall₂ hentries fun _ _ he ↦ ⟨ih he.1, ih he.2⟩)

/-- A node is expanded in one step more than what it leads to. -/
theorem exists_expand?_succ_iff :
    (∃ m, d.expand? keys (depth + 1) n = some m) ↔
      ∀ p ∈ d.next keys n, ∃ m, d.expand? keys depth p = some m := by
  match n with
  | .scalar info text => simp [expand?, next, Node.isAlias, Node.parts]
  | .alias info name target => simp [expand?, next, Node.isAlias]
  | .sequence info items =>
    simp only [expand?_sequence, next, Node.isAlias, Node.parts, Bool.false_eq_true, if_false]
    rw [← exists_forall₂_iff]
    constructor
    · rintro ⟨_, items', hitems, rfl⟩
      exact ⟨items', hitems⟩
    · rintro ⟨items', hitems⟩
      exact ⟨_, items', hitems, rfl⟩
  | .mapping info entries =>
    have hentry (e : Node × Node) : (∃ e' : Node × Node,
        d.expandKey? keys depth e.1 = some e'.1 ∧ d.expand? keys depth e.2 = some e'.2) ↔
        ∀ p ∈ (if keys then [e.1, e.2] else [e.2]), ∃ m, d.expand? keys depth p = some m := by
      cases keys <;> simp [expandKey?]
    simp only [expand?_mapping, next, Node.isAlias, Node.parts, Bool.false_eq_true, if_false,
      List.forall_mem_flatMap]
    simp only [← hentry]
    rw [← exists_forall₂_iff]
    constructor
    · rintro ⟨_, entries', hentries, rfl⟩
      exact ⟨entries', hentries⟩
    · rintro ⟨entries', hentries⟩
      exact ⟨_, entries', hentries, rfl⟩

/-! ### Finite graphs -/

private theorem size_le_sizeItems {items : List Node} (h : n ∈ items) :
    n.size ≤ Node.sizeItems items := by
  induction items with
  | nil => cases h
  | cons x rest ih =>
    rw [Node.sizeItems]
    rcases List.mem_cons.mp h with rfl | h
    · omega
    · have := ih h
      omega

private theorem size_le_sizeEntries {entries : List (Node × Node)} {e : Node × Node}
    (h : e ∈ entries) : e.1.size + e.2.size ≤ Node.sizeEntries entries := by
  induction entries with
  | nil => cases h
  | cons x rest ih =>
    obtain ⟨key, value⟩ := x
    rw [Node.sizeEntries]
    rcases List.mem_cons.mp h with rfl | h
    · dsimp only
      omega
    · have := ih h
      omega

private theorem size_pos (n : Node) : 0 < n.size := by
  cases n <;> simp [Node.size]

/-- A part is smaller than the node. -/
theorem size_lt_of_mem_parts (h : m ∈ n.parts keys) : m.size < n.size := by
  match n with
  | .scalar info text => cases h
  | .alias info name target => cases h
  | .sequence info items =>
    rw [Node.size]
    exact Nat.lt_succ_of_le (size_le_sizeItems h)
  | .mapping info entries =>
    obtain ⟨e, he, hm⟩ := List.mem_flatMap.mp h
    have hsize := size_le_sizeEntries he
    have hkey := size_pos e.1
    have hvalue := size_pos e.2
    have hm : m = e.1 ∨ m = e.2 := by
      cases keys <;> simp at hm
      · exact Or.inr hm
      · exact hm
    rw [Node.size]
    rcases hm with rfl | rfl <;> omega

-- The nodes that a node is built of, itself included.
private def within (keys : Bool) (n : Node) : Set Node :=
  {m | Relation.ReflTransGen (fun a b : Node ↦ b ∈ a.parts keys) n m}

private theorem finite_within (keys : Bool) (n : Node) : (within keys n).Finite := by
  induction hsize : n.size using Nat.strong_induction_on generalizing n with
  | _ size ih =>
    have hparts : (⋃ p ∈ {p | p ∈ n.parts keys}, within keys p).Finite := by
      refine Set.Finite.biUnion (List.finite_toSet _) fun p hp ↦ ih p.size ?_ p rfl
      exact hsize ▸ size_lt_of_mem_parts hp
    refine (hparts.insert n).subset fun m hm ↦ ?_
    rcases Relation.ReflTransGen.cases_head hm with rfl | ⟨p, hp, hm⟩
    · exact Set.mem_insert _ _
    · exact Set.mem_insert_of_mem _ (Set.mem_biUnion hp hm)

theorem resolve_mem (d : Document) (h : n.isAlias = true) :
    d.resolve n ∈ default :: d.anchored.toList := by
  match n with
  | .alias info name target =>
    rw [resolve, Array.getD_eq_getD_getElem?]
    cases hget : d.anchored[target]? with
    | none => exact List.mem_cons_self
    | some m => exact List.mem_cons_of_mem _ (Array.mem_toList_iff.mpr (Array.mem_of_getElem? hget))
  | .scalar info text => cases h
  | .sequence info items => cases h
  | .mapping info entries => cases h

/-- From a node only finitely many nodes can be reached: the parts of the node and those of the
anchored nodes. -/
theorem finite_reaches (d : Document) (keys : Bool) (n : Node) :
    {m | d.Reaches keys n m}.Finite := by
  let roots : List Node := n :: default :: d.anchored.toList
  have hroots : (⋃ r ∈ {r | r ∈ roots}, within keys r).Finite :=
    Set.Finite.biUnion (List.finite_toSet roots) fun r _ ↦ finite_within keys r
  refine hroots.subset fun m hm ↦ ?_
  simp only [Set.mem_iUnion₂]
  induction hm with
  | refl => exact ⟨n, List.mem_cons_self, Relation.ReflTransGen.refl⟩
  | @tail a b _ hlead ih =>
    unfold Leads next at hlead
    split at hlead
    · next ha =>
      obtain rfl := List.mem_singleton.mp hlead
      exact ⟨_, List.mem_cons_of_mem n (d.resolve_mem ha), Relation.ReflTransGen.refl⟩
    · obtain ⟨r, hr, hwithin⟩ := ih
      exact ⟨r, hr, hwithin.tail hlead⟩

/-! ### Which nodes have an expansion -/

/-- What a node leads to, step by step, is expanded in no more steps. -/
theorem exists_expand?_of_reaches (h : d.Reaches keys n m)
    (hn : ∃ n', d.expand? keys depth n = some n') : ∃ m', d.expand? keys depth m = some m' := by
  induction h with
  | refl => exact hn
  | @tail a b _ hlead ih =>
    cases depth with
    | zero => exact absurd ih (by simp [expand?])
    | succ depth =>
      obtain ⟨b', hb⟩ := exists_expand?_succ_iff.mp ih b hlead
      exact ⟨b', expand?_succ hb⟩

/-- A node that leads back to itself has no expansion. -/
theorem expand?_eq_none_of_cycle (h : Relation.TransGen (d.Leads keys) n n) :
    d.expand? keys depth n = none := by
  induction depth with
  | zero => rfl
  | succ depth ih =>
    cases hn : d.expand? keys (depth + 1) n with
    | none => rfl
    | some n' =>
      -- The next node on the way back is expanded one step earlier, and so is the node itself.
      obtain ⟨p, hlead, hback⟩ := Relation.TransGen.head'_iff.mp h
      have hp := exists_expand?_succ_iff.mp ⟨n', hn⟩ p hlead
      obtain ⟨m, hm⟩ := exists_expand?_of_reaches hback hp
      rw [ih] at hm
      cases hm

/-- If no node that can be reached leads back to itself, every way ends. -/
theorem Acyclic.acc (h : d.Acyclic keys n) : Acc (fun a b ↦ d.Leads keys b a) n := by
  let after (a b : {m | d.Reaches keys n m}) : Prop := Relation.TransGen (d.Leads keys) b a
  have : Finite {m | d.Reaches keys n m} := d.finite_reaches keys n
  have : IsTrans _ after := ⟨fun a b c hab hbc ↦ hbc.trans hab⟩
  have : Std.Irrefl after := ⟨fun a ↦ h a a.2⟩
  have hwf : WellFounded after := Finite.wellFounded_of_trans_of_irrefl after
  have hall (a : {m | d.Reaches keys n m}) : Acc (fun a b ↦ d.Leads keys b a) a.1 := by
    induction a using hwf.induction with
    | _ a ih =>
      refine ⟨_, fun b hb ↦ ?_⟩
      exact ih ⟨b, Relation.ReflTransGen.tail a.2 hb⟩ (Relation.TransGen.single hb)
  exact hall ⟨n, Relation.ReflTransGen.refl⟩

private theorem exists_depth (ps : List Node)
    (h : ∀ p ∈ ps, ∃ m, d.Expands keys p m) :
    ∃ depth, ∀ p ∈ ps, ∃ m, d.expand? keys depth p = some m := by
  induction ps with
  | nil => exact ⟨0, by simp⟩
  | cons p rest ih =>
    obtain ⟨⟨m, depth, hm⟩, hrest⟩ := List.forall_mem_cons.mp h
    obtain ⟨depth', hdepth'⟩ := ih hrest
    refine ⟨max depth depth', List.forall_mem_cons.mpr ⟨?_, fun q hq ↦ ?_⟩⟩
    · exact ⟨m, expand?_mono hm (Nat.le_max_left _ _)⟩
    · obtain ⟨m', hm'⟩ := hdepth' q hq
      exact ⟨m', expand?_mono hm' (Nat.le_max_right _ _)⟩

/-- A node has a finite expansion exactly if nothing that can be reached from it leads back to
itself. -/
theorem exists_expands_iff_acyclic : (∃ m, d.Expands keys n m) ↔ d.Acyclic keys n := by
  constructor
  · rintro ⟨n', depth, hn⟩ m hm hcycle
    obtain ⟨m', hm'⟩ := exists_expand?_of_reaches hm ⟨n', hn⟩
    rw [expand?_eq_none_of_cycle hcycle] at hm'
    cases hm'
  · intro h
    induction h.acc with
    | intro n _ ih =>
      have hnext : ∀ p ∈ d.next keys n, ∃ m, d.Expands keys p m := fun p hp ↦
        ih p hp fun m hm ↦ h m (Relation.ReflTransGen.head hp hm)
      obtain ⟨depth, hdepth⟩ := exists_depth _ hnext
      obtain ⟨m, hm⟩ := exists_expand?_succ_iff.mpr hdepth
      exact ⟨m, depth + 1, hm⟩

end Document

end GrammarCode.Yaml
