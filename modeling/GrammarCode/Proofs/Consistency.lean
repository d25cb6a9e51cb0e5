import GrammarCode.Program.Defect

/-!
# Consistent programs

A program is consistent when no table entry and no instruction has a defect. Both conditions are
said here without the positions that a report would name, so that they can be carried through
whatever builds or rebuilds a program.
-/

namespace GrammarCode

/-- A number has an operation exactly if it is that of the operation. -/
theorem Operation.ofCode?_eq_some_iff {c : UInt16} {o : Operation} :
    ofCode? c = some o ↔ c = o.code := by
  constructor
  · intro h
    have hcode := List.find?_some (p := fun o : Operation ↦ decide (o.code = c)) h
    exact (of_decide_eq_true hcode).symm
  · rintro rfl
    exact ofCode?_code o

namespace Instruction

theorem operation?_eq_some_iff {i : Instruction} {o : Operation} :
    i.operation? = some o ↔ i.opcode = o.code :=
  Operation.ofCode?_eq_some_iff

@[simp] theorem operation?_matching (pattern : Bytes) :
    (matching pattern).operation? = some .matchPattern := Operation.ofCode?_code .matchPattern

@[simp] theorem operation?_packing (count : Int) :
    (packing count).operation? = some .packSequence := Operation.ofCode?_code .packSequence

@[simp] theorem operation?_branching (target : Int) :
    (branching target).operation? = some .branchOnSuccess :=
  Operation.ofCode?_code .branchOnSuccess

@[simp] theorem matching_inj {p q : Bytes} : matching p = matching q ↔ p = q := by
  simp [matching]

@[simp] theorem packing_inj {m n : Int} : packing m = packing n ↔ m = n := by
  simp [packing]

@[simp] theorem branching_inj {s t : Int} : branching s = branching t ↔ s = t := by
  simp [branching]

/-- Whether an instruction makes sense in a program whose address table has `entries` entries. -/
def Sound (entries : Nat) (i : Instruction) : Prop :=
  match i.operation? with
  | some .matchPattern => True
  | some .packSequence => 0 ≤ i.count
  | some .branchOnSuccess => 0 ≤ i.target ∧ i.target < entries
  | none => False

instance (entries : Nat) (i : Instruction) : Decidable (i.Sound entries) :=
  match h : i.operation? with
  | some .matchPattern => .isTrue (by rw [Sound, h]; trivial)
  | some .packSequence => decidable_of_iff (0 ≤ i.count) (by rw [Sound, h])
  | some .branchOnSuccess =>
    decidable_of_iff (0 ≤ i.target ∧ i.target < entries) (by rw [Sound, h])
  | none => .isFalse (by rw [Sound, h]; exact id)

/-- What makes sense, said by the opcode: it has an operation, no sequence has a negative count, and
a branch names an entry of the table. -/
theorem sound_iff (entries : Nat) (i : Instruction) :
    i.Sound entries ↔ (∃ o : Operation, i.opcode = o.code) ∧
      (i.opcode = Operation.packSequence.code → 0 ≤ i.count) ∧
      (i.opcode = Operation.branchOnSuccess.code → 0 ≤ i.target ∧ i.target < entries) := by
  unfold Sound
  cases hop : i.operation? with
  | none =>
    refine ⟨False.elim, ?_⟩
    rintro ⟨⟨o, ho⟩, -, -⟩
    rw [operation?_eq_some_iff.mpr ho] at hop
    cases hop
  | some o =>
    have hcode (o' : Operation) : i.opcode = o'.code ↔ o = o' := by
      rw [← operation?_eq_some_iff, hop, Option.some.injEq]
    simp only [hcode, exists_eq', true_and]
    cases o <;> simp

@[simp] theorem sound_matching (entries : Nat) (pattern : Bytes) :
    (matching pattern).Sound entries := by
  rw [Sound, operation?_matching]
  trivial

@[simp] theorem sound_packing_iff (entries : Nat) (count : Int) :
    (packing count).Sound entries ↔ 0 ≤ count := by
  rw [Sound, operation?_packing]
  exact Iff.rfl

@[simp] theorem sound_branching_iff (entries : Nat) (target : Int) :
    (branching target).Sound entries ↔ 0 ≤ target ∧ target < entries := by
  rw [Sound, operation?_branching]
  exact Iff.rfl

end Instruction

namespace Program

private theorem numbered_filterMap_eq_nil {α β : Type} (f : Nat → α → Option β) (start : Nat)
    (xs : List α) (q : α → Prop) (hf : ∀ n x, f n x = none ↔ q x) :
    (numbered start xs).filterMap (fun e ↦ f e.1 e.2) = [] ↔ ∀ x ∈ xs, q x := by
  induction xs generalizing start with
  | nil => simp [numbered]
  | cons x rest ih =>
    rw [numbered, List.forall_mem_cons, ← ih (start + 1), ← hf start x]
    cases h : f start x with
    | none => simp [h]
    | some b => simp [h]

/-- An entry has no defect exactly if it lies between zero and the end of the program. -/
theorem entryDefect?_eq_none_iff (p : Program) (ref : Nat) (address : Int) :
    p.entryDefect? ref address = none ↔ 0 ≤ address ∧ address ≤ p.size := by
  unfold entryDefect? unresolved
  split
  · next h => simp only [reduceCtorEq, false_iff]; omega
  · next h =>
    split
    · next hb =>
      simp only [Bool.or_eq_true, decide_eq_true_eq] at hb
      simp only [reduceCtorEq, false_iff]
      omega
    · next hb =>
      simp only [Bool.or_eq_true, decide_eq_true_eq] at hb
      simp only [true_iff]
      omega

/-- An instruction has no defect exactly if it makes sense beside the address table. -/
theorem instructionDefect?_eq_none_iff (p : Program) (index : Nat) (i : Instruction) :
    p.instructionDefect? index i = none ↔ i.Sound p.addresses.size := by
  unfold instructionDefect? Instruction.Sound
  cases i.operation? with
  | none => simp
  | some o =>
    cases o with
    | matchPattern => simp
    | packSequence =>
      simp only [ite_eq_right_iff, reduceCtorEq, imp_false]
      omega
    | branchOnSuccess =>
      simp only [Bool.or_eq_true, decide_eq_true_eq, ite_eq_right_iff, reduceCtorEq, imp_false]
      omega

/-- A program is consistent exactly if each entry lies in it and each instruction makes sense. -/
theorem isConsistent_iff (p : Program) :
    p.isConsistent = true ↔
      (∀ address ∈ p.addresses.toList, 0 ≤ address ∧ address ≤ p.size) ∧
        ∀ i ∈ p.instructions.toList, i.Sound p.addresses.size := by
  unfold isConsistent defects
  rw [List.isEmpty_iff, List.append_eq_nil_iff,
    numbered_filterMap_eq_nil p.entryDefect? _ _ _ p.entryDefect?_eq_none_iff,
    numbered_filterMap_eq_nil p.instructionDefect? _ _ _ p.instructionDefect?_eq_none_iff]

/-! ### Branches -/

/-- The instruction at address `i` branches by the table entry `ref`. -/
def BranchesAt (p : Program) (i ref : Int) : Prop :=
  ∃ x, p.instruction? i = some x ∧ x.operation? = some .branchOnSuccess ∧ x.target = ref

/-- A branch leads to the address that its entry holds. -/
theorem BranchesAt.target?_eq {p : Program} {i ref : Int} (h : p.BranchesAt i ref) :
    p.target? i = p.address? ref := by
  obtain ⟨x, hx, ho, rfl⟩ := h
  rw [target?, hx]
  dsimp only
  rw [ho]

/-- Only branches have a target. -/
theorem branchesAt_of_target? {p : Program} {i target : Int} (h : p.target? i = some target) :
    ∃ ref, p.BranchesAt i ref := by
  unfold target? at h
  split at h
  · next x hx =>
    split at h
    · next ho => exact ⟨x.target, x, hx, ho, rfl⟩
    · cases h
  · cases h

end Program

end GrammarCode
