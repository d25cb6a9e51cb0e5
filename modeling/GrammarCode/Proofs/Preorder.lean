import GrammarCode.Atom.Walk
import GrammarCode.Proofs.Places
import Mathlib.Data.List.Basic

/-!
# Walks in preorder

A walk goes to a place exactly if the visitors on the way to it lead there: at each atom above the
place the visitor may be replaced, or may refuse the parts. What it visits are therefore the atoms
of the tree in preorder without those that are missing or not arrived at, each place once. Where
the visitor only asks a predicate, the atoms below those that the predicate rejects are left out;
where it counts, the atoms below a depth.
-/

namespace GrammarCode

namespace Path

/-- The indices of the steps of a path, from the root down. -/
def indices (p : Path) : List Nat := p.reverse.map Step.index

/-- Whether a path is that of a proper ancestor of the place with another path. -/
def isAbove (q p : Path) : Bool := q.isSuffixOf p && q != p

end Path

namespace Atom

/-- Whether a walk can enter an atom: a sequence or a choice without content has no parts to go
through. -/
def isEnterable : Atom → Bool
  | .hollow .seq => false
  | .hollow .alt => false
  | _ => true

/-- The atoms of a tree that are not missing, in preorder and with their paths. -/
def occurrences (a : Atom) : List (Path × Atom) := (a.places []).filter fun x ↦ !x.2.isNothing

/-- The atoms above the one that steps lead to, from the root down. -/
def ancestors : List Step → Atom → List Atom
  | [], _ => []
  | s :: rest, a =>
    a :: match a.part? s with
      | some b => ancestors rest b
      | none => []

/-! ### The order of places -/

private theorem placesAll_append {kind : Kind} {path below : Path} {index : Nat}
    {parts : List Atom}
    (ih : ∀ a ∈ parts, ∀ path,
      a.places (path ++ below) = (a.places path).map fun x ↦ (x.1 ++ below, x.2)) :
    placesAll kind (path ++ below) index parts =
      (placesAll kind path index parts).map fun x ↦ (x.1 ++ below, x.2) := by
  induction parts generalizing index with
  | nil => rfl
  | cons a rest ihr =>
    rw [List.forall_mem_cons] at ih
    rw [placesAll, placesAll, List.map_append, ihr ih.2, ← ih.1 (⟨kind, index⟩ :: path),
      List.cons_append]

/-- The places of a tree that itself stands at a place go through that place. -/
theorem places_append (path below : Path) (a : Atom) :
    a.places (path ++ below) = (a.places path).map fun x ↦ (x.1 ++ below, x.2) := by
  induction a generalizing path with
  | literal _ => rfl
  | nothing => rfl
  | hollow _ => rfl
  | foreign _ _ => rfl
  | sequence parts ih => rw [places, places, List.map_cons, placesAll_append ih]
  | choice parts ih => rw [places, places, List.map_cons, placesAll_append ih]

/-- Places stand in preorder if the indices on the way down to them increase in the order of words:
a place comes before those below it, and an earlier part with all below it before a later one. -/
def InPreorder (xs : List (Path × Atom)) : Prop := xs.Pairwise fun x y ↦ x.1.indices < y.1.indices

-- Every place among parts goes through the index of one of them.
private theorem indices_of_mem_placesAll {kind : Kind} {index : Nat} {parts : List Atom}
    {x : Path × Atom} (h : x ∈ placesAll kind [] index parts) :
    ∃ i more, x.1.indices = (index + i) :: more := by
  obtain ⟨path, b⟩ := x
  obtain ⟨i, a, -, hx⟩ := (mem_placesAll_iff kind [] index parts (path, b)).mp h
  obtain ⟨steps, rfl, -⟩ := (mem_places_iff _ path a b).mp hx
  exact ⟨i, steps.map Step.index, by simp [Path.indices]⟩

private theorem inPreorder_placesAll {kind : Kind} {index : Nat} {parts : List Atom}
    (ih : ∀ a ∈ parts, InPreorder (a.places [])) : InPreorder (placesAll kind [] index parts) := by
  induction parts generalizing index with
  | nil => exact .nil
  | cons a rest ihr =>
    rw [List.forall_mem_cons] at ih
    rw [placesAll, ← List.nil_append [(⟨kind, index⟩ : Step)], places_append]
    refine List.pairwise_append.mpr ⟨?_, ihr ih.2, ?_⟩
    · rw [List.pairwise_map]
      refine ih.1.imp fun {x y} hxy ↦ ?_
      simpa [Path.indices, List.cons_lt_cons_iff] using hxy
    · rintro _ hx y hy
      obtain ⟨x, -, rfl⟩ := List.mem_map.mp hx
      obtain ⟨i, more, hmore⟩ := indices_of_mem_placesAll hy
      rw [hmore]
      simp [Path.indices, List.cons_lt_cons_iff]
      omega

private theorem inPreorder_group {kind : Kind} {a : Atom} {parts : List Atom}
    (ih : ∀ b ∈ parts, InPreorder (b.places [])) :
    InPreorder (([], a) :: placesAll kind [] 0 parts) := by
  refine List.pairwise_cons.mpr ⟨fun y hy ↦ ?_, inPreorder_placesAll ih⟩
  obtain ⟨i, more, hmore⟩ := indices_of_mem_placesAll hy
  rw [hmore]
  exact List.nil_lt_cons _ _

theorem inPreorder_places (a : Atom) : InPreorder (a.places []) := by
  induction a with
  | literal _ => exact List.pairwise_singleton _ _
  | nothing => exact List.pairwise_singleton _ _
  | hollow _ => exact List.pairwise_singleton _ _
  | foreign _ _ => exact List.pairwise_singleton _ _
  | sequence parts ih => exact inPreorder_group ih
  | choice parts ih => exact inPreorder_group ih

/-- The atoms that are not missing are those that steps lead to, each at one place only. -/
theorem mem_occurrences_iff (a b : Atom) (path : Path) :
    (path, b) ∈ a.occurrences ↔ a.follow? path.reverse = some b ∧ b.isNothing = false := by
  rw [occurrences, List.mem_filter, mem_places_iff]
  constructor
  · rintro ⟨⟨steps, rfl, hs⟩, hb⟩
    exact ⟨by simpa using hs, by simpa using hb⟩
  · rintro ⟨hs, hb⟩
    exact ⟨⟨path.reverse, by simp, hs⟩, by simpa using hb⟩

/-! ### Where a walk arrives -/

section Arrival

variable {α : Type} (visit : α → Atom → Option α)

/-- The visitor with which a walk arrives at the atom that steps lead to, if it does. -/
def arrival? (v : α) : List Step → Atom → Option α
  | [], _ => some v
  | s :: rest, a => (visit v a).bind fun w ↦ (a.part? s).bind (arrival? w rest)

/-- The visit that a walk pays to a place, if it does. -/
def visit? (v : α) (a : Atom) (x : Path × Atom) : Option (α × Atom) :=
  if x.2.isNothing then none else (arrival? visit v x.1.reverse a).map (·, x.2)

variable {visit}

private theorem visit?_entered {v w : α} {a b : Atom} {s : Step} (hw : visit v a = some w)
    (hs : a.part? s = some b) (x : Path × Atom) :
    visit? visit v a (x.1 ++ [s], x.2) = visit? visit w b x := by
  simp [visit?, arrival?, hw, hs]

private theorem visit?_refused {v : α} {a : Atom} (hv : visit v a = none) (s : Step) (p : Path)
    (b : Atom) : visit? visit v a (p ++ [s], b) = none := by
  simp [visit?, arrival?, hv]

private theorem visitsAll_eq {kind : Kind} {v w : α} {a : Atom} (hw : visit v a = some w)
    (rest : List (α × Atom)) {index : Nat} {parts : List Atom}
    (hpart : ∀ i, a.part? ⟨kind, index + i⟩ = parts[i]?)
    (ih : ∀ b ∈ parts, ∀ v rest, b.isNothing = false →
      visits visit v rest b = some ((b.places []).filterMap (visit? visit v b) ++ rest)) :
    visitsAll visit w rest parts =
      some ((placesAll kind [] index parts).filterMap (visit? visit v a) ++ rest) := by
  induction parts generalizing index with
  | nil => rfl
  | cons b more ihm =>
    rw [List.forall_mem_cons] at ih
    have hmore (i : Nat) : a.part? ⟨kind, index + 1 + i⟩ = more[i]? := by
      rw [Nat.add_assoc, Nat.add_comm 1 i, hpart, List.getElem?_cons_succ]
    have hfirst : (b.places [⟨kind, index⟩]).filterMap (visit? visit v a) =
        (b.places []).filterMap (visit? visit w b) := by
      rw [← List.nil_append [(⟨kind, index⟩ : Step)], places_append, List.filterMap_map]
      congr 1
      exact funext (visit?_entered hw (hpart 0))
    rw [visitsAll, ihm hmore ih.2, placesAll, List.filterMap_append, hfirst, List.append_assoc]
    cases hb : b.isNothing with
    | true =>
      obtain rfl : b = .nothing := by
        cases b <;> first | rfl | cases hb
      rfl
    | false => exact ih.1 w _ hb

-- A sequence or a choice is visited, and then its parts unless the visitor refuses them.
private theorem visits_group {kind : Kind} {v : α} {rest : List (α × Atom)} {a : Atom}
    {parts : List Atom} (hn : a.isNothing = false)
    (hvisits : visits visit v rest a =
      (visit v a).elim (some ((v, a) :: rest))
        fun w ↦ (visitsAll visit w rest parts).map ((v, a) :: ·))
    (hpart : ∀ i, a.part? ⟨kind, i⟩ = parts[i]?)
    (ih : ∀ b ∈ parts, ∀ v rest, b.isNothing = false →
      visits visit v rest b = some ((b.places []).filterMap (visit? visit v b) ++ rest)) :
    visits visit v rest a =
      some ((([], a) :: placesAll kind [] 0 parts).filterMap (visit? visit v a) ++ rest) := by
  have hroot : visit? visit v a ([], a) = some (v, a) := by simp [visit?, hn, arrival?]
  rw [hvisits, List.filterMap_cons_some hroot, List.cons_append]
  cases hv : visit v a with
  | none =>
    have hnone : (placesAll kind [] 0 parts).filterMap (visit? visit v a) = [] := by
      rw [List.filterMap_eq_nil_iff]
      rintro ⟨path, c⟩ hx
      obtain ⟨i, b, -, hb⟩ := (mem_placesAll_iff kind [] 0 parts _).mp hx
      obtain ⟨steps, rfl, -⟩ := (mem_places_iff _ path b c).mp hb
      exact visit?_refused hv _ _ _
    rw [hnone]
    rfl
  | some w =>
    have hparts (i : Nat) : a.part? ⟨kind, 0 + i⟩ = parts[i]? := by rw [Nat.zero_add, hpart]
    rw [Option.elim_some, visitsAll_eq hv rest hparts ih]
    rfl

/-- A walk visits the places that it arrives at, in their order. -/
theorem visits_eq (v : α) (rest : List (α × Atom)) (a : Atom) (hroot : a.isNothing = false)
    (henter : ∀ x ∈ a.places [], x.2.isEnterable = true) :
    visits visit v rest a = some ((a.places []).filterMap (visit? visit v a) ++ rest) := by
  induction a generalizing v rest with
  | literal _ => rfl
  | nothing => cases hroot
  | foreign _ _ => rfl
  | hollow kind =>
    cases kind with
    | str =>
      cases hv : visit v (.hollow .str) <;>
        simp [visits, hv, places, visit?, arrival?, hroot]
    | seq => cases henter _ List.mem_cons_self
    | alt => cases henter _ List.mem_cons_self
  | sequence parts ih =>
    obtain ⟨-, hparts⟩ := (forall_places_sequence (P := fun b ↦ b.isEnterable = true)).mp henter
    exact visits_group hroot (by rw [visits]; cases visit v _ <;> rfl) (fun _ ↦ rfl)
      fun b hb v rest hn ↦ ih b hb v rest hn (hparts b hb)
  | choice parts ih =>
    obtain ⟨-, hparts⟩ := (forall_places_choice (P := fun b ↦ b.isEnterable = true)).mp henter
    exact visits_group hroot (by rw [visits]; cases visit v _ <;> rfl) (fun _ ↦ rfl)
      fun b hb v rest hn ↦ ih b hb v rest hn (hparts b hb)

/-- Where it is known at which places a walk arrives, and with which visitors, these are its
visits. -/
theorem walk_eq {v : α} {a : Atom} (hroot : a.isNothing = false)
    (henter : ∀ x ∈ a.places [], x.2.isEnterable = true) (arrives : Path × Atom → Bool)
    (visitor : Path × Atom → α)
    (h : ∀ x ∈ a.places [], arrival? visit v x.1.reverse a =
      if arrives x then some (visitor x) else none) :
    a.walk visit v = some ((a.occurrences.filter arrives).map fun x ↦ (visitor x, x.2)) := by
  have hvisit : ∀ x ∈ a.places [], visit? visit v a x =
      (Option.guard (fun x ↦ arrives x && !x.2.isNothing) x).map fun x ↦ (visitor x, x.2) := by
    intro x hx
    rw [visit?, h x hx, Option.guard]
    cases x.2.isNothing <;> cases arrives x <;> rfl
  calc a.walk visit v = some ((a.places []).filterMap (visit? visit v a)) := by
        rw [walk, visits_eq v [] a hroot henter, List.append_nil]
    _ = some ((a.occurrences.filter arrives).map fun x ↦ (visitor x, x.2)) := by
        rw [List.filterMap_congr hvisit, ← List.map_filterMap, List.filterMap_eq_filter,
          occurrences, List.filter_filter]

end Arrival

/-! ### Ancestors -/

/-- An ancestor is where a part of the steps leads to, from the root on. -/
theorem mem_ancestors_iff {steps : List Step} {a c : Atom} :
    c ∈ a.ancestors steps ↔
      ∃ front, front <+: steps ∧ front ≠ steps ∧ a.follow? front = some c := by
  induction steps generalizing a with
  | nil => simp [ancestors]
  | cons s rest ih =>
    rw [ancestors, List.mem_cons]
    constructor
    · rintro (rfl | h)
      · exact ⟨[], List.nil_prefix, by simp, rfl⟩
      · split at h
        · next b hb =>
          obtain ⟨front, hfront, hne, hc⟩ := ih.mp h
          refine ⟨s :: front, (List.prefix_cons_inj s).mpr hfront, by simpa using hne, ?_⟩
          rw [follow?_cons, hb]
          exact hc
        · cases h
    · rintro ⟨front, hfront, hne, hc⟩
      cases front with
      | nil => exact .inl (Option.some.inj hc).symm
      | cons t front =>
        obtain ⟨rfl, hrest⟩ := List.cons_prefix_cons.mp hfront
        obtain ⟨b, hb, hc⟩ := Option.bind_eq_some_iff.mp hc
        rw [hb]
        exact .inr (ih.mpr ⟨front, hrest, by simpa using hne, hc⟩)

/-- No atom is missing above another one. -/
theorem isNothing_of_mem_ancestors {steps : List Step} {a b : Atom}
    (h : a.follow? steps = some b) : ∀ c ∈ a.ancestors steps, c.isNothing = false := by
  induction steps generalizing a with
  | nil => simp [ancestors]
  | cons s rest ih =>
    obtain ⟨d, hd, h⟩ := Option.bind_eq_some_iff.mp h
    rw [ancestors, hd, List.forall_mem_cons]
    refine ⟨?_, ih h⟩
    cases a with
    | nothing => cases hd
    | literal _ | sequence _ | choice _ | hollow _ | foreign _ _ => rfl

/-- All ancestors of a place satisfy a predicate if no atom of the tree that stands above the place
fails it. -/
theorem all_ancestors_eq (p : Atom → Bool) {a : Atom} {x : Path × Atom} (hx : x ∈ a.occurrences) :
    (a.ancestors x.1.reverse).all p =
      !a.occurrences.any fun y ↦ !p y.2 && y.1.isAbove x.1 := by
  obtain ⟨hfollow, -⟩ := (mem_occurrences_iff a x.2 x.1).mp hx
  rw [Bool.eq_iff_iff, List.all_eq_true, Bool.not_eq_true', List.any_eq_false]
  constructor
  · rintro h ⟨path, c⟩ hy habove
    simp only [Path.isAbove, Bool.and_eq_true, Bool.not_eq_true', List.isSuffixOf_iff_suffix,
      bne_iff_ne] at habove
    obtain ⟨hfails, hsuffix, hne⟩ := habove
    have hc : c ∈ a.ancestors x.1.reverse := mem_ancestors_iff.mpr
      ⟨path.reverse, List.reverse_prefix.mpr hsuffix, by simpa using hne,
        ((mem_occurrences_iff a c path).mp hy).1⟩
    rw [h c hc] at hfails
    cases hfails
  · intro h c hc
    obtain ⟨front, hfront, hne, hlead⟩ := mem_ancestors_iff.mp hc
    have hy : (front.reverse, c) ∈ a.occurrences := (mem_occurrences_iff a c _).mpr
      ⟨by rwa [List.reverse_reverse], isNothing_of_mem_ancestors hfollow c hc⟩
    have habove : Path.isAbove front.reverse x.1 = true := by
      rw [Path.isAbove, Bool.and_eq_true, List.isSuffixOf_iff_suffix, bne_iff_ne]
      refine ⟨List.reverse_prefix.mp (by rwa [List.reverse_reverse]), fun he ↦ hne ?_⟩
      rw [← he, List.reverse_reverse]
    simpa [habove] using h _ hy

/-! ### Predicates and depths -/

/-- The visitor that only asks a predicate whether to go on arrives where all ancestors satisfy
it. -/
theorem arrival?_of_enter (enter : Atom → Bool) {steps : List Step} {a b : Atom}
    (h : a.follow? steps = some b) :
    arrival? (fun (_ : Unit) c ↦ if enter c then some () else none) () steps a =
      if (a.ancestors steps).all enter then some () else none := by
  induction steps generalizing a with
  | nil => rfl
  | cons s rest ih =>
    obtain ⟨d, hd, h⟩ := Option.bind_eq_some_iff.mp h
    rw [arrival?, ancestors, hd, List.all_cons]
    cases enter a with
    | true => exact ih h
    | false => rfl

/-- What is visited, unless the predicate holds back what is below an atom. -/
theorem inspect_eq (enter : Atom → Bool) {a : Atom} (hroot : a.isNothing = false)
    (henter : ∀ x ∈ a.places [], x.2.isEnterable = true) :
    a.inspect enter = some
      ((a.occurrences.filter fun x ↦ (a.ancestors x.1.reverse).all enter).map Prod.snd) := by
  rw [inspect, walk_eq hroot henter _ (fun _ ↦ ()) fun x hx ↦
    arrival?_of_enter enter (follow?_of_mem_places hx)]
  simp [Function.comp_def]

/-- The visitor that counts the atoms above and goes on as long as these are fewer than a limit. -/
def toDepth (limit depth : Nat) (_ : Atom) : Option Nat :=
  if depth < limit then some (depth + 1) else none

theorem arrival?_toDepth {limit depth : Nat} (hdepth : depth ≤ limit) {steps : List Step}
    {a b : Atom} (h : a.follow? steps = some b) :
    arrival? (toDepth limit) depth steps a =
      if depth + steps.length ≤ limit then some (depth + steps.length) else none := by
  induction steps generalizing a depth with
  | nil => exact (if_pos hdepth).symm
  | cons s rest ih =>
    obtain ⟨d, hd, h⟩ := Option.bind_eq_some_iff.mp h
    rw [arrival?, toDepth, hd, List.length_cons]
    by_cases hlt : depth < limit
    · rw [if_pos hlt, Option.bind_some, Option.bind_some, ih hlt h,
        Nat.succ_add_eq_add_succ]
    · rw [if_neg hlt, if_neg (by omega)]
      rfl

/-- A walk that asks a predicate visits every atom that is not missing and that has no rejected
ancestor, in preorder and once for each place where it stands, and no other one: the preorder of the
whole tree without what is below rejected atoms. A walk that counts to a depth visits in this order
the atoms down to that depth. -/
theorem inspect_in_preorder (a : Atom) (hroot : a.isNothing = false)
    (henter : ∀ x ∈ a.places [], x.2.isEnterable = true) :
    InPreorder a.occurrences ∧
    (∀ path b, (path, b) ∈ a.occurrences ↔
      a.follow? path.reverse = some b ∧ b.isNothing = false) ∧
    (∀ enter : Atom → Bool, ∃ visited : List (Path × Atom),
      a.inspect enter = some (visited.map Prod.snd) ∧
      InPreorder visited ∧
      (∀ path b, (path, b) ∈ visited ↔
        a.follow? path.reverse = some b ∧ b.isNothing = false ∧
          ∀ c ∈ a.ancestors path.reverse, enter c = true) ∧
      visited = a.occurrences.filter fun x ↦
        !a.occurrences.any fun y ↦ !enter y.2 && y.1.isAbove x.1) ∧
    ∀ limit, a.walk (toDepth limit) 0 =
      some ((a.occurrences.filter fun x ↦ x.1.length ≤ limit).map fun x ↦ (x.1.length, x.2)) := by
  have horder : InPreorder a.occurrences := (inPreorder_places a).filter _
  refine ⟨horder, fun path b ↦ mem_occurrences_iff a b path, fun enter ↦ ?_, fun limit ↦ ?_⟩
  · refine ⟨_, inspect_eq enter hroot henter, horder.filter _, fun path b ↦ ?_,
      List.filter_congr fun x hx ↦ all_ancestors_eq enter hx⟩
    rw [List.mem_filter, mem_occurrences_iff, List.all_eq_true, and_assoc]
  · refine walk_eq hroot henter _ _ fun x hx ↦ ?_
    rw [arrival?_toDepth (Nat.zero_le limit) (follow?_of_mem_places hx)]
    simp

/-- A choice with a missing part, a literal without content and a foreign part, which holds a
sequence that is rejected, and twice a choice: once below that sequence and once beside it. -/
theorem inspect_in_preorder_rejecting :
    let inner : Atom := .choice [.nothing, .literal "b"]
    let outer : Atom := .sequence [.literal "a", inner]
    let a : Atom := .choice [outer, .nothing, inner, .hollow .str, .foreign "kind" "text"]
    let enter : Atom → Bool := fun b ↦ b.kind? != some (Kind.seq.name : Bytes)
    a.isNothing = false ∧ (∀ x ∈ a.places [], x.2.isEnterable = true) ∧
      a.inspect enter = some [a, outer, inner, .literal "b", .hollow .str, .foreign "kind" "text"] ∧
      a.walk (toDepth 1) 0 =
        some [(0, a), (1, outer), (1, inner), (1, .hollow .str), (1, .foreign "kind" "text")] := by
  intro inner outer a enter
  have henter : ∀ x ∈ a.places [], x.2.isEnterable = true := by decide
  obtain ⟨-, -, hinspect, hwalk⟩ := inspect_in_preorder a rfl henter
  obtain ⟨visited, hvisited, -, -, rfl⟩ := hinspect enter
  exact ⟨rfl, henter, hvisited.trans rfl, (hwalk 1).trans rfl⟩

end Atom

end GrammarCode
