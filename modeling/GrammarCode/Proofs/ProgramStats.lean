import GrammarCode.Proofs.Compilation
import GrammarCode.Proofs.Preorder
import Mathlib.Algebra.Ring.Nat

/-!
# The statistics of a program

Each atom adds a fixed number of instructions of each operation to the code: a literal matches once,
a sequence packs once, and a choice branches once for each of its parts. So the statistics of a
compiled program, which are taken from the flat code, count the atoms of the tree, and so does the
walk that counts atoms.
-/

namespace GrammarCode

namespace Atom

/-- Whether an atom is a literal. -/
def isLiteral : Atom → Bool
  | .literal _ => true
  | _ => false

/-- Whether an atom is a sequence. -/
def isSequence : Atom → Bool
  | .sequence _ => true
  | _ => false

/-- How many parts a choice has; other atoms have nothing to choose from. -/
def branches : Atom → Nat
  | .choice parts => parts.length
  | _ => 0

/-- The atoms of a tree in preorder, each as often as it occurs. -/
def atoms (a : Atom) : List Atom := (a.places []).map Prod.snd

/-! ### Instructions -/

/-- How many instructions of an operation an atom has of its own, those of its parts left out. -/
def own : Operation → Atom → Nat
  | .matchPattern, a => a.isLiteral.toNat
  | .packSequence, a => a.isSequence.toNat
  | .branchOnSuccess, a => a.branches

theorem sum_toNat (p : Atom → Bool) (bs : List Atom) :
    (bs.map fun b ↦ (p b).toNat).sum = bs.countP p := by
  induction bs with
  | nil => rfl
  | cons b bs ih =>
    rw [List.map_cons, List.sum_cons, ih, List.countP_cons]
    cases p b <;> simp [Nat.add_comm]

/-- How many instructions of an operation the atoms at some places have of their own. -/
def owned (o : Operation) (places : List (Path × Atom)) : Nat :=
  (places.map fun x ↦ own o x.2).sum

theorem owned_cons (o : Operation) (path : Path) (a : Atom) (places : List (Path × Atom)) :
    owned o ((path, a) :: places) = own o a + owned o places := by
  simp [owned]

theorem owned_append (o : Operation) (xs ys : List (Path × Atom)) :
    owned o (xs ++ ys) = owned o xs + owned o ys := by
  simp [owned]

end Atom

/-- How many instructions of a list have an operation. -/
def Instruction.countOf (o : Operation) (is : List Instruction) : Nat :=
  is.countP fun i ↦ i.operation? = some o

namespace Instruction

@[simp] theorem countOf_nil (o : Operation) : countOf o [] = 0 := rfl

theorem countOf_append (o : Operation) (is js : List Instruction) :
    countOf o (is ++ js) = countOf o is + countOf o js := List.countP_append

theorem countOf_relocate (o : Operation) (refs : Nat) (is : List Instruction) :
    countOf o (is.map (relocate refs)) = countOf o is := by
  simp [countOf, List.countP_map, Function.comp_def]

/-- Of instructions that all make sense, each has one of the three operations. -/
theorem length_eq_countOf {entries : Nat} {is : List Instruction}
    (h : ∀ i ∈ is, i.Sound entries) :
    is.length = countOf .matchPattern is + countOf .packSequence is +
      countOf .branchOnSuccess is := by
  induction is with
  | nil => rfl
  | cons i is ih =>
    rw [List.forall_mem_cons] at h
    obtain ⟨o, ho⟩ := ((sound_iff entries i).mp h.1).1
    rw [← operation?_eq_some_iff] at ho
    have hrest := ih h.2
    simp only [countOf, List.countP_cons, List.length_cons, ho, Option.some.injEq] at hrest ⊢
    cases o with
    | matchPattern | packSequence | branchOnSuccess =>
      simp
      omega

end Instruction

namespace Atom

open Instruction (countOf countOf_nil countOf_append countOf_relocate)

private theorem countOf_codeAll (o : Operation) (trailer : List Instruction) (refs start : Nat)
    (kind : Kind) (path : Path) (index : Nat) (parts : List Atom)
    (ih : ∀ a ∈ parts, ∀ path, countOf o a.code.instructions = owned o (a.places path)) :
    countOf o (codeAll trailer refs start parts).instructions =
      owned o (placesAll kind path index parts) + parts.length * countOf o trailer := by
  induction parts generalizing refs start index with
  | nil => simp [codeAll, placesAll, owned]
  | cons a rest ihr =>
    rw [List.forall_mem_cons] at ih
    have hpart : countOf o (a.code.relocate refs start).instructions =
        owned o (a.places (⟨kind, index⟩ :: path)) := by
      rw [Fragment.relocate, countOf_relocate, ih.1]
    simp only [codeAll, placesAll, countOf_append, owned_append]
    rw [hpart, ihr _ _ (index + 1) ih.2, List.length_cons, Nat.succ_mul]
    omega

/-- The code of a tree has the instructions that its atoms have of their own. -/
theorem countOf_code (o : Operation) (path : Path) (a : Atom) :
    countOf o a.code.instructions = owned o (a.places path) := by
  induction a generalizing path with
  | literal pattern => cases o <;> rfl
  | nothing => cases o <;> rfl
  | hollow _ => cases o <;> rfl
  | foreign _ _ => cases o <;> rfl
  | sequence parts ih =>
    have hpacking : countOf o [.packing parts.length] = own o (.sequence parts) := by
      cases o <;> rfl
    rw [code, places, owned_cons, countOf_append, hpacking,
      countOf_codeAll o [] 0 0 .seq path 0 parts ih, countOf_nil]
    omega
  | choice parts ih =>
    have hbranching : parts.length * countOf o [.branching 0] = own o (.choice parts) := by
      cases o with
      | matchPattern => rfl
      | packSequence => rfl
      | branchOnSuccess => exact Nat.mul_one _
    rw [code, places, owned_cons, countOf_codeAll o [.branching 0] 1 0 .alt path 0 parts ih,
      hbranching, Nat.add_comm]

/-! ### Atoms -/

/-- Missing atoms are not known. -/
theorem isNothing_of_isKnown {a : Atom} (h : a.isKnown = true) : a.isNothing = false := by
  cases a with
  | nothing => cases h
  | literal _ | sequence _ | choice _ | hollow _ | foreign _ _ => rfl

/-- All atoms of a tree of known atoms are counted. -/
theorem count?_of_plain {a : Atom} (h : a.Plain) : a.count? = some a.atoms.length := by
  have henter : ∀ x ∈ a.places [], x.2.isEnterable = true := by
    intro x hx
    have hx := h x hx
    revert hx
    cases x.2 with
    | literal _ | sequence _ | choice _ | nothing | foreign _ _ => exact fun _ ↦ rfl
    | hollow _ => exact fun hx ↦ nomatch hx
  have hoccurrences : a.occurrences = a.places [] :=
    List.filter_eq_self.mpr fun x hx ↦ by rw [isNothing_of_isKnown (h x hx)]; rfl
  have hroot := isNothing_of_isKnown h.isKnown
  rw [count?, hroot, inspect_eq _ hroot henter, hoccurrences]
  simp [atoms]

/-- Known atoms are literals, sequences and choices. -/
theorem length_of_isKnown {bs : List Atom} (h : ∀ b ∈ bs, b.isKnown = true) :
    bs.length = bs.countP isLiteral + bs.countP isSequence + bs.countP isChoice := by
  induction bs with
  | nil => rfl
  | cons b bs ih =>
    rw [List.forall_mem_cons] at h
    have hrest := ih h.2
    simp only [List.countP_cons, List.length_cons]
    cases b with
    | literal _ | sequence _ | choice _ =>
      simp [isLiteral, isSequence, isChoice]
      omega
    | nothing | hollow _ | foreign _ _ => cases h.1

end Atom

/-! ### Programs -/

namespace Compile

open Atom

/-- The statistics of a program count the tree that it was compiled from: each literal, sequence and
choice as often as it occurs, and the parts of all choices. There are no other instructions and no
other atoms. -/
theorem stats_of_compile {limit : Int} {fresh : Bytes} {a : Atom} {p : Program}
    (h : (compile limit fresh a).result = .ok p) :
    p.stats.matchings = a.atoms.countP isLiteral ∧
      p.stats.packings = a.atoms.countP isSequence ∧
      p.stats.addresses = a.atoms.countP isChoice ∧
      p.stats.branchings = (a.atoms.map branches).sum ∧
      p.stats.instructions = p.stats.matchings + p.stats.packings + p.stats.branchings ∧
      a.count? = some (p.stats.matchings + p.stats.packings + p.stats.addresses) := by
  obtain ⟨hplain, rfl⟩ := plain_of_compile h
  have hcount (o : Operation) : (a.program fresh).countOf o = (a.atoms.map (own o)).sum := by
    rw [atoms, List.map_map]
    exact countOf_code o [] a
  have hmatchings : (a.program fresh).stats.matchings = a.atoms.countP isLiteral :=
    (hcount .matchPattern).trans (sum_toNat _ _)
  have hpackings : (a.program fresh).stats.packings = a.atoms.countP isSequence :=
    (hcount .packSequence).trans (sum_toNat _ _)
  have haddresses : (a.program fresh).stats.addresses = a.atoms.countP isChoice := by
    rw [atoms, List.countP_map]
    exact length_addresses_code [] a
  refine ⟨hmatchings, hpackings, haddresses, hcount .branchOnSuccess, ?_, ?_⟩
  · exact Instruction.length_eq_countOf a.code_sound.2
  · rw [hmatchings, hpackings, haddresses, count?_of_plain hplain, length_of_isKnown]
    intro b hb
    obtain ⟨x, hx, rfl⟩ := List.mem_map.mp hb
    exact hplain x hx

/-- A sequence that holds the same choice twice, each time with an empty choice in it, and an empty
sequence: an empty choice has an entry of the table and no instruction of its own. -/
theorem stats_of_compile_shared :
    let twice : Atom := .choice [.literal "a", .choice [], .literal "b"]
    let a : Atom := .sequence [twice, .sequence [], twice]
    ∃ p, (compile 3 "id" a).result = .ok p ∧
      p.stats = ⟨12, 4, 2, 6, 4⟩ ∧ a.count? = some 10 := by
  intro twice a
  refine ⟨_, rfl, rfl, ?_⟩
  obtain ⟨-, -, -, -, -, hcount⟩ := @stats_of_compile 3 "id" a _ rfl
  exact hcount

end Compile

end GrammarCode
