import GrammarCode.Proofs.Compilation

/-!
# Simplified trees

A group inside a group of its own kind says no more than its parts, and a group of one part no more
than that part. `Atom.simplify` removes both kinds of redundancy; trees that mean the same up to
these have the same simplified tree. `Atom.parted` counts how many pairs of leaves stand in
different parts of a choice, and simplifying does not change that number.
-/

namespace GrammarCode

namespace Atom

/-! ### Groups -/

/-- A sequence or a choice of parts. -/
def group : Bool → List Atom → Atom
  | true, parts => .sequence parts
  | false, parts => .choice parts

/-- Whether an atom is a sequence, or a choice. -/
def isGroup : Bool → Atom → Bool
  | true, .sequence _ => true
  | false, .choice _ => true
  | _, _ => false

/-- The parts of a group of the given kind; any other atom is its own only part. -/
def spread : Bool → Atom → List Atom
  | true, .sequence parts => parts
  | false, .choice parts => parts
  | _, a => [a]

/-- The group of parts, or the part itself if there is only one. -/
def bundle (inSequence : Bool) : List Atom → Atom
  | [a] => a
  | parts => group inSequence parts

@[simp] theorem spread_group (k : Bool) (parts : List Atom) : spread k (group k parts) = parts := by
  cases k <;> rfl

theorem isGroup_group_of_ne {k k' : Bool} (h : k' ≠ k) (parts : List Atom) :
    (group k' parts).isGroup k = false := by
  cases k <;> cases k' <;> first | rfl | exact absurd rfl h

theorem spread_of_isGroup_eq_false {k : Bool} {a : Atom} (h : a.isGroup k = false) :
    spread k a = [a] := by
  cases k <;> cases a <;> first | rfl | cases h

@[simp] theorem bundle_singleton (k : Bool) (a : Atom) : bundle k [a] = a := rfl

theorem bundle_of_length_ne_one (k : Bool) {parts : List Atom} (h : parts.length ≠ 1) :
    bundle k parts = group k parts := by
  match parts with
  | [] => rfl
  | [_] => exact absurd rfl h
  | _ :: _ :: _ => rfl

/-- Bundling parts that are no groups of the kind can be undone. -/
theorem spread_bundle {k : Bool} {parts : List Atom} (h : ∀ a ∈ parts, a.isGroup k = false) :
    spread k (bundle k parts) = parts := by
  by_cases hone : parts.length = 1
  · obtain ⟨a, rfl⟩ := List.length_eq_one_iff.mp hone
    exact spread_of_isGroup_eq_false (h a List.mem_cons_self)
  · rw [bundle_of_length_ne_one k hone, spread_group]

/-! ### Simplification -/

mutual

/-- The tree with the groups in it flattened and without groups of one part. -/
def simplify : Atom → Atom
  | .sequence parts => bundle true (simplifyAll true parts)
  | .choice parts => bundle false (simplifyAll false parts)
  | .literal pattern => .literal pattern
  | .nothing => .nothing
  | .hollow kind => .hollow kind
  | .foreign kind text => .foreign kind text

/-- The simplified parts of a group, those of groups of the same kind taken apart. -/
def simplifyAll (inSequence : Bool) : List Atom → List Atom
  | [] => []
  | a :: rest => spread inSequence a.simplify ++ simplifyAll inSequence rest

end

@[simp] theorem simplify_group (k : Bool) (parts : List Atom) :
    (group k parts).simplify = bundle k (simplifyAll k parts) := by
  cases k <;> rfl

theorem simplifyAll_append (k : Bool) (xs ys : List Atom) :
    simplifyAll k (xs ++ ys) = simplifyAll k xs ++ simplifyAll k ys := by
  induction xs with
  | nil => rfl
  | cons a rest ih => rw [List.cons_append, simplifyAll, simplifyAll, ih, List.append_assoc]

theorem simplifyAll_singleton (k : Bool) (a : Atom) :
    simplifyAll k [a] = spread k a.simplify := by
  rw [simplifyAll, simplifyAll, List.append_nil]

/-- Nothing can be simplified: no group has one part or a part of its own kind. -/
inductive Simple : Atom → Prop
  | single {a : Atom} (h : ∀ k, a.isGroup k = false) : Simple a
  | group (k : Bool) {parts : List Atom} (hlength : parts.length ≠ 1)
    (hparts : ∀ a ∈ parts, Simple a) (hkind : ∀ a ∈ parts, a.isGroup k = false) :
    Simple (.group k parts)

/-- The parts of a simple atom are simple, and no groups of its kind. -/
theorem Simple.of_mem_spread {k : Bool} {a : Atom} (h : a.Simple) :
    ∀ b ∈ spread k a, b.Simple ∧ b.isGroup k = false := by
  have hself (hk : a.isGroup k = false) : ∀ b ∈ spread k a, b.Simple ∧ b.isGroup k = false := by
    rw [spread_of_isGroup_eq_false hk]
    intro b hb
    obtain rfl := List.mem_singleton.mp hb
    exact ⟨h, hk⟩
  cases h with
  | single hnone => exact hself (hnone k)
  | group k' _ hparts hkind =>
    by_cases hk : k' = k
    · subst hk
      rw [spread_group]
      exact fun b hb ↦ ⟨hparts b hb, hkind b hb⟩
    · exact hself (isGroup_group_of_ne hk _)

/-- Taking a simple atom apart can be undone. -/
theorem Simple.bundle_spread (k : Bool) {a : Atom} (h : a.Simple) : bundle k (spread k a) = a := by
  cases h with
  | single hnone => rw [spread_of_isGroup_eq_false (hnone k), bundle_singleton]
  | group k' hlength _ _ =>
    by_cases hk : k' = k
    · subst hk
      rw [spread_group, bundle_of_length_ne_one _ hlength]
    · rw [spread_of_isGroup_eq_false (isGroup_group_of_ne hk _), bundle_singleton]

private theorem simple_of_mem_simplifyAll {k : Bool} {parts : List Atom}
    (h : ∀ a ∈ parts, a.simplify.Simple) :
    ∀ b ∈ simplifyAll k parts, b.Simple ∧ b.isGroup k = false := by
  induction parts with
  | nil => simp [simplifyAll]
  | cons a rest ih =>
    rw [List.forall_mem_cons] at h
    intro b hb
    rw [simplifyAll, List.mem_append] at hb
    rcases hb with hb | hb
    · exact h.1.of_mem_spread b hb
    · exact ih h.2 b hb

private theorem simple_bundle {k : Bool} {parts : List Atom}
    (h : ∀ b ∈ parts, b.Simple ∧ b.isGroup k = false) : (bundle k parts).Simple := by
  by_cases hone : parts.length = 1
  · obtain ⟨a, rfl⟩ := List.length_eq_one_iff.mp hone
    exact (h a List.mem_cons_self).1
  · rw [bundle_of_length_ne_one k hone]
    exact .group k hone (fun b hb ↦ (h b hb).1) fun b hb ↦ (h b hb).2

/-- Simplifying leaves nothing to simplify. -/
theorem simple_simplify (a : Atom) : a.simplify.Simple := by
  induction a with
  | literal _ | nothing | hollow _ | foreign _ _ => exact .single fun k ↦ by cases k <;> rfl
  | sequence parts ih => exact simple_bundle (simple_of_mem_simplifyAll ih)
  | choice parts ih => exact simple_bundle (simple_of_mem_simplifyAll ih)

/-- The simplified parts of a group are no groups of its kind. -/
theorem isGroup_of_mem_simplifyAll {k : Bool} {parts : List Atom} :
    ∀ b ∈ simplifyAll k parts, b.isGroup k = false :=
  fun b hb ↦ (simple_of_mem_simplifyAll (fun a _ ↦ a.simple_simplify) b hb).2

@[simp] theorem spread_simplify_group (k : Bool) (parts : List Atom) :
    spread k (group k parts).simplify = simplifyAll k parts := by
  rw [simplify_group, spread_bundle isGroup_of_mem_simplifyAll]

/-- A group of one part simplifies as that part does. -/
theorem simplify_group_singleton (k : Bool) (a : Atom) : (group k [a]).simplify = a.simplify := by
  rw [simplify_group, simplifyAll_singleton, a.simple_simplify.bundle_spread]

/-- A bundle simplifies as the group of its parts does. -/
theorem simplify_bundle (k : Bool) (parts : List Atom) :
    (bundle k parts).simplify = bundle k (simplifyAll k parts) := by
  by_cases hone : parts.length = 1
  · obtain ⟨a, rfl⟩ := List.length_eq_one_iff.mp hone
    rw [bundle_singleton, ← simplify_group, simplify_group_singleton]
  · rw [bundle_of_length_ne_one k hone, simplify_group]

/-! ### Leaves that a choice keeps apart -/

mutual

/-- How many leaves a tree has. -/
def leaves : Atom → Nat
  | .sequence parts => leavesAll parts
  | .choice parts => leavesAll parts
  | .literal _ => 1
  | .nothing => 1
  | .hollow _ => 1
  | .foreign _ _ => 1

/-- How many leaves trees have together. -/
def leavesAll : List Atom → Nat
  | [] => 0
  | a :: rest => a.leaves + leavesAll rest

end

mutual

/-- How many pairs of leaves stand in different parts of a choice. -/
def parted : Atom → Nat
  | .sequence parts => partedAll true parts
  | .choice parts => partedAll false parts
  | .literal _ => 0
  | .nothing => 0
  | .hollow _ => 0
  | .foreign _ _ => 0

/-- How many pairs of leaves are kept apart in the parts of a group, or by it if it is a choice. -/
def partedAll (inSequence : Bool) : List Atom → Nat
  | [] => 0
  | a :: rest =>
    a.parted + (if inSequence then 0 else a.leaves * leavesAll rest) + partedAll inSequence rest

end

@[simp] theorem leaves_group (k : Bool) (parts : List Atom) :
    (group k parts).leaves = leavesAll parts := by
  cases k <;> rfl

@[simp] theorem parted_group (k : Bool) (parts : List Atom) :
    (group k parts).parted = partedAll k parts := by
  cases k <;> rfl

theorem leavesAll_append (xs ys : List Atom) :
    leavesAll (xs ++ ys) = leavesAll xs + leavesAll ys := by
  induction xs with
  | nil => rw [List.nil_append, leavesAll, Nat.zero_add]
  | cons a rest ih => rw [List.cons_append, leavesAll, leavesAll, ih, Nat.add_assoc]

theorem partedAll_append (k : Bool) (xs ys : List Atom) :
    partedAll k (xs ++ ys) =
      partedAll k xs + (if k then 0 else leavesAll xs * leavesAll ys) + partedAll k ys := by
  induction xs with
  | nil => simp [partedAll, leavesAll]
  | cons a rest ih =>
    rw [List.cons_append, partedAll, partedAll, ih, leavesAll_append]
    cases k with
    | true => simp only [ite_true]; omega
    | false =>
      simp only [Bool.false_eq_true, ite_false, leavesAll, Nat.mul_add, Nat.add_mul]
      omega

@[simp] theorem leavesAll_singleton (a : Atom) : leavesAll [a] = a.leaves := by
  simp [leavesAll]

@[simp] theorem partedAll_singleton (k : Bool) (a : Atom) : partedAll k [a] = a.parted := by
  simp [partedAll, leavesAll]

theorem leavesAll_spread (k : Bool) (a : Atom) : leavesAll (spread k a) = a.leaves := by
  cases k <;> cases a <;> rfl

theorem partedAll_spread (k : Bool) (a : Atom) : partedAll k (spread k a) = a.parted := by
  cases k <;> cases a <;> rfl

@[simp] theorem leaves_bundle (k : Bool) (parts : List Atom) :
    (bundle k parts).leaves = leavesAll parts := by
  by_cases hone : parts.length = 1
  · obtain ⟨a, rfl⟩ := List.length_eq_one_iff.mp hone
    rw [bundle_singleton, leavesAll_singleton]
  · rw [bundle_of_length_ne_one k hone, leaves_group]

@[simp] theorem parted_bundle (k : Bool) (parts : List Atom) :
    (bundle k parts).parted = partedAll k parts := by
  by_cases hone : parts.length = 1
  · obtain ⟨a, rfl⟩ := List.length_eq_one_iff.mp hone
    rw [bundle_singleton, partedAll_singleton]
  · rw [bundle_of_length_ne_one k hone, parted_group]

private theorem leavesAll_simplifyAll {k : Bool} {parts : List Atom}
    (h : ∀ a ∈ parts, a.simplify.leaves = a.leaves) :
    leavesAll (simplifyAll k parts) = leavesAll parts := by
  induction parts with
  | nil => rfl
  | cons a rest ih =>
    rw [List.forall_mem_cons] at h
    rw [simplifyAll, leavesAll_append, leavesAll_spread, h.1, ih h.2, leavesAll]

/-- Simplifying keeps the leaves. -/
theorem leaves_simplify (a : Atom) : a.simplify.leaves = a.leaves := by
  induction a with
  | literal _ | nothing | hollow _ | foreign _ _ => rfl
  | sequence parts ih => exact (leaves_bundle ..).trans (leavesAll_simplifyAll ih)
  | choice parts ih => exact (leaves_bundle ..).trans (leavesAll_simplifyAll ih)

private theorem partedAll_simplifyAll {k : Bool} {parts : List Atom}
    (h : ∀ a ∈ parts, a.simplify.parted = a.parted) :
    partedAll k (simplifyAll k parts) = partedAll k parts := by
  induction parts with
  | nil => rfl
  | cons a rest ih =>
    rw [List.forall_mem_cons] at h
    rw [simplifyAll, partedAll_append, partedAll_spread, leavesAll_spread, h.1, ih h.2,
      leaves_simplify, leavesAll_simplifyAll fun b _ ↦ b.leaves_simplify, partedAll]

/-- Simplifying keeps apart what a choice keeps apart, and nothing else. -/
theorem parted_simplify (a : Atom) : a.simplify.parted = a.parted := by
  induction a with
  | literal _ | nothing | hollow _ | foreign _ _ => rfl
  | sequence parts ih => exact (parted_bundle ..).trans (partedAll_simplifyAll ih)
  | choice parts ih => exact (parted_bundle ..).trans (partedAll_simplifyAll ih)

end Atom

end GrammarCode
