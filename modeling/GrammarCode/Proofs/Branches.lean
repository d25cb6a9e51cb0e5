import GrammarCode.Proofs.Compilation
import Mathlib.Data.List.Chain

/-!
# Where branches lead

In the code of a tree every branch leads to the address just behind the last branch to the same
table entry, which is where the code of its choice ends. So branches lead forward only, and no run
through a program comes back to where it was.
-/

namespace GrammarCode

/-! ### Branches in code -/

namespace Fragment

/-- The instruction at `i` branches by the table entry `ref`. -/
def BranchesAt (f : Fragment) (i : Nat) (ref : Int) : Prop :=
  ∃ x, f.instructions[i]? = some x ∧ x.operation? = some .branchOnSuccess ∧ x.target = ref

/-- Every branch leads to just behind the last branch by the same entry. -/
def Lands (f : Fragment) : Prop :=
  ∀ i ref, f.BranchesAt i ref → ∃ j, i ≤ j ∧ f.BranchesAt j ref ∧ 0 ≤ ref ∧
    f.addresses[ref.toNat]? = some ((j : Int) + 1)

/-- Relocated code branches where it did, by the entries that it named before. -/
theorem branchesAt_relocate_iff (refs start : Nat) (f : Fragment) (i : Nat) (ref : Int) :
    (f.relocate refs start).BranchesAt i ref ↔ f.BranchesAt i (ref - refs) := by
  simp only [BranchesAt, relocate, List.getElem?_map, Option.map_eq_some_iff]
  constructor
  · rintro ⟨y, ⟨x, hx, rfl⟩, ho, ht⟩
    rw [Instruction.operation?_relocate] at ho
    rw [Instruction.relocate, if_pos ho] at ht
    exact ⟨x, hx, ho, by dsimp only at ht; omega⟩
  · rintro ⟨x, hx, ho, ht⟩
    refine ⟨_, ⟨x, hx, rfl⟩, by rw [Instruction.operation?_relocate, ho], ?_⟩
    rw [Instruction.relocate, if_pos ho]
    dsimp only
    omega

/-- What branches in code branches where that code stands. -/
theorem StandsAt.branchesAt {f g : Fragment} {refs start i : Nat} {ref : Int}
    (h : g.StandsAt refs start f) (hb : g.BranchesAt i ref) : f.BranchesAt (start + i) ref := by
  obtain ⟨⟨before, after, hf, rfl⟩, -⟩ := h
  obtain ⟨x, hx, ho, ht⟩ := hb
  refine ⟨x, ?_, ho, ht⟩
  have hi := (List.getElem?_eq_some_iff.mp hx).1
  rw [hf, List.append_assoc, List.getElem?_append_right (by omega), Nat.add_sub_cancel_left,
    List.getElem?_append_left hi, hx]

/-- The entries of code are entries where that code stands. -/
theorem StandsAt.addresses_getElem? {f g : Fragment} {refs start k : Nat} {address : Int}
    (h : g.StandsAt refs start f) (ha : g.addresses[k]? = some address) :
    f.addresses[refs + k]? = some address := by
  obtain ⟨-, ⟨before, after, hf, rfl⟩⟩ := h
  have hk := (List.getElem?_eq_some_iff.mp ha).1
  rw [hf, List.append_assoc, List.getElem?_append_right (by omega), Nat.add_sub_cancel_left,
    List.getElem?_append_left hk, ha]

end Fragment

namespace Atom

open Fragment

-- A branch among parts is one of a trailer, or one in a part.
private theorem branchesAt_codeAll_cons {trailer : List Instruction} {refs start : Nat} {a : Atom}
    {rest : List Atom} {i : Nat} {ref : Int}
    (h : (codeAll trailer refs start (a :: rest)).BranchesAt i ref) :
    (a.code.relocate refs start).BranchesAt i ref ∨
      (∃ x ∈ trailer, x.operation? = some .branchOnSuccess ∧ x.target = ref) ∨
      ∃ k, i = a.code.instructions.length + trailer.length + k ∧
        (codeAll trailer (refs + a.code.addresses.length)
          (start + (a.code.instructions.length + trailer.length)) rest).BranchesAt k ref := by
  obtain ⟨x, hx, ho, ht⟩ := h
  rw [codeAll] at hx
  simp only [length_instructions_relocate, length_addresses_relocate, List.append_assoc] at hx
  by_cases hpart : i < a.code.instructions.length
  · rw [List.getElem?_append_left (by simpa using hpart)] at hx
    exact Or.inl ⟨x, hx, ho, ht⟩
  · rw [List.getElem?_append_right (by simpa using hpart), length_instructions_relocate] at hx
    by_cases htrailer : i - a.code.instructions.length < trailer.length
    · rw [List.getElem?_append_left htrailer] at hx
      exact Or.inr (Or.inl ⟨x, List.mem_of_getElem? hx, ho, ht⟩)
    · rw [List.getElem?_append_right (by omega)] at hx
      refine Or.inr (Or.inr ⟨i - a.code.instructions.length - trailer.length, by omega, x, ?_, ho,
        ht⟩)
      rw [← Nat.add_assoc]
      exact hx

-- Parts whose branches land have branches that land, those of the trailers apart.
private theorem codeAll_lands (trailer : List Instruction) (refs start : Nat) (parts : List Atom)
    (ih : ∀ a ∈ parts, a.code.Lands) {i : Nat} {ref : Int}
    (h : (codeAll trailer refs start parts).BranchesAt i ref) :
    (∃ x ∈ trailer, x.operation? = some .branchOnSuccess ∧ x.target = ref) ∨
      ∃ j, i ≤ j ∧ (codeAll trailer refs start parts).BranchesAt j ref ∧ (refs : Int) ≤ ref ∧
        (codeAll trailer refs start parts).addresses[(ref - refs).toNat]? =
          some ((start : Int) + j + 1) := by
  induction parts generalizing refs start i with
  | nil =>
    obtain ⟨x, hx, -⟩ := h
    rw [codeAll] at hx
    simp at hx
  | cons a rest ihr =>
    rw [List.forall_mem_cons] at ih
    rcases branchesAt_codeAll_cons h with hpart | htrailer | ⟨k, rfl, hrest⟩
    · obtain ⟨j, hij, hj, hr, hland⟩ := ih.1 i _ ((branchesAt_relocate_iff ..).mp hpart)
      have hhead := head_standsAt trailer refs start a rest
      refine Or.inr ⟨j, hij, ?_, by omega, ?_⟩
      · have := hhead.branchesAt ((branchesAt_relocate_iff ..).mpr hj)
        rwa [Nat.zero_add] at this
      · have hrel : (a.code.relocate refs start).addresses[(ref - refs).toNat]? =
            some ((start : Int) + j + 1) := by
          rw [Fragment.relocate, List.getElem?_map, hland, Option.map_some]
          congr 1
          omega
        have := hhead.addresses_getElem? hrel
        rwa [Nat.zero_add] at this
    · exact Or.inl htrailer
    · rcases ihr _ _ ih.2 hrest with htrailer | ⟨j, hkj, hj, hr, hland⟩
      · exact Or.inl htrailer
      · have htail := tail_standsAt trailer refs start a rest
        refine Or.inr ⟨a.code.instructions.length + trailer.length + j, by omega,
          htail.branchesAt hj, by omega, ?_⟩
        have hentry : a.code.addresses.length +
            (ref - ((refs + a.code.addresses.length : Nat) : Int)).toNat = (ref - refs).toNat := by
          omega
        rw [← hentry, htail.addresses_getElem? hland]
        congr 1
        omega

-- The codes of some parts end with a trailer.
private theorem codeAll_cons_eq_append (trailer : List Instruction) (refs start : Nat) (a : Atom)
    (rest : List Atom) :
    ∃ front, (codeAll trailer refs start (a :: rest)).instructions = front ++ trailer := by
  induction rest generalizing refs start a with
  | nil => exact ⟨(a.code.relocate refs start).instructions, by simp [codeAll]⟩
  | cons b more ih =>
    obtain ⟨front, hfront⟩ := ih (refs + a.code.addresses.length)
      (start + a.code.instructions.length + trailer.length) b
    refine ⟨(a.code.relocate refs start).instructions ++ trailer ++ front, ?_⟩
    rw [codeAll]
    simp [hfront]

private theorem sequence_lands (parts : List Atom) (ih : ∀ a ∈ parts, a.code.Lands) :
    (code (.sequence parts)).Lands := by
  rintro i ref ⟨x, hx, ho, ht⟩
  have hbody : (codeAll [] 0 0 parts).BranchesAt i ref := by
    rw [code] at hx
    by_cases hi : i < (codeAll [] 0 0 parts).instructions.length
    · rw [List.getElem?_append_left hi] at hx
      exact ⟨x, hx, ho, ht⟩
    · rw [List.getElem?_append_right (by omega)] at hx
      obtain rfl := List.mem_singleton.mp (List.mem_of_getElem? hx)
      simp at ho
  rcases codeAll_lands [] 0 0 parts ih hbody with ⟨y, hy, -⟩ | ⟨j, hij, hj, hr, hland⟩
  · simp at hy
  · have hstands := sequenceParts_standsAt parts
    refine ⟨j, hij, by simpa using hstands.branchesAt hj, by omega, ?_⟩
    simpa using hstands.addresses_getElem? hland

private theorem choice_lands (parts : List Atom) (ih : ∀ a ∈ parts, a.code.Lands) :
    (code (.choice parts)).Lands := by
  intro i ref h
  have hbody : (codeAll [.branching 0] 1 0 parts).BranchesAt i ref := by
    rwa [code] at h
  have hstands := choiceParts_standsAt parts
  rcases codeAll_lands _ 1 0 parts ih hbody with ⟨y, hy, -, ht⟩ | ⟨j, hij, hj, hr, hland⟩
  · -- An own branch: the last one closes the code, and the own entry is the end of the code.
    obtain rfl := List.mem_singleton.mp hy
    obtain rfl : ref = 0 := ht.symm
    cases parts with
    | nil =>
      obtain ⟨x, hx, -⟩ := hbody
      simp [codeAll] at hx
    | cons a rest =>
      obtain ⟨front, hfront⟩ := codeAll_cons_eq_append [.branching 0] 1 0 a rest
      obtain ⟨x, hx, -⟩ := hbody
      have hi := (List.getElem?_eq_some_iff.mp hx).1
      rw [hfront, List.length_append, List.length_singleton] at hi
      refine ⟨front.length, by omega, ?_, Int.le_refl 0, ?_⟩
      · exact ⟨.branching 0, by rw [code]; simp [hfront], by simp, rfl⟩
      · rw [code]
        simp [hfront]
  · refine ⟨j, hij, by simpa using hstands.branchesAt hj, by omega, ?_⟩
    have := hstands.addresses_getElem? hland
    rwa [show 1 + (ref - ((1 : Nat) : Int)).toNat = ref.toNat by omega,
      show ((0 : Nat) : Int) + j + 1 = (j : Int) + 1 by omega] at this

-- Code without a branch.
private theorem lands_of_forall {f : Fragment}
    (h : ∀ x ∈ f.instructions, x.operation? ≠ some .branchOnSuccess) : f.Lands := by
  rintro i ref ⟨x, hx, ho, -⟩
  exact absurd ho (h x (List.mem_of_getElem? hx))

/-- In the code of a tree every branch lands. -/
theorem code_lands (a : Atom) : a.code.Lands := by
  induction a with
  | literal pattern => exact lands_of_forall (by simp [code])
  | nothing => exact lands_of_forall (by simp [code])
  | hollow _ => exact lands_of_forall (by simp [code])
  | foreign _ _ => exact lands_of_forall (by simp [code])
  | sequence parts ih => exact sequence_lands parts ih
  | choice parts ih => exact choice_lands parts ih

end Atom

/-! ### Branches of a program -/

namespace Program

/-- From the instruction at address `i` a run goes on at address `j`: the next one, or the target
of a branch. -/
def GoesOn (p : Program) (i j : Int) : Prop :=
  (p.instruction? i).isSome = true ∧ (j = i + 1 ∨ p.target? i = some j)

instance (p : Program) (i j : Int) : Decidable (p.GoesOn i j) :=
  inferInstanceAs (Decidable (_ ∧ _))

end Program

namespace Atom

/-- A program branches where the code of its tree does. -/
theorem branchesAt_program_iff (fresh : Bytes) (a : Atom) (i ref : Int) :
    (a.program fresh).BranchesAt i ref ↔ 0 ≤ i ∧ a.code.BranchesAt i.toNat ref := by
  unfold Program.BranchesAt Fragment.BranchesAt Program.instruction?
  by_cases hi : i < 0
  · simp [hi]
  · simp [hi, show 0 ≤ i by omega]

/-- The entries of a program are those of the code of its tree. -/
theorem address?_program {fresh : Bytes} {a : Atom} {ref : Int} {address : Nat} (hr : 0 ≤ ref)
    (h : a.code.addresses[ref.toNat]? = some (address : Int)) :
    (a.program fresh).address? ref = some (address : Int) := by
  have hresolved : (address : Int) ≠ Program.unresolved := by
    unfold Program.unresolved
    omega
  rw [Program.address?, if_neg (by omega)]
  simp [h, hresolved]

/-- The branches of a program by one entry all lead to just behind the last of them. -/
theorem program_lands (fresh : Bytes) (a : Atom) {i ref : Int}
    (h : (a.program fresh).BranchesAt i ref) :
    ∃ j, (a.program fresh).BranchesAt j ref ∧
      (∀ k, (a.program fresh).BranchesAt k ref → k ≤ j) ∧
      (a.program fresh).address? ref = some (j + 1) ∧ j + 1 ≤ (a.program fresh).size := by
  obtain ⟨hi, hb⟩ := (branchesAt_program_iff fresh a i ref).mp h
  obtain ⟨j, -, hj, hr, hland⟩ := a.code_lands i.toNat ref hb
  refine ⟨j, (branchesAt_program_iff ..).mpr ⟨by omega, by simpa using hj⟩, ?_,
    address?_program hr hland, ?_⟩
  · -- Another branch by the entry lands too, and an entry holds one address.
    intro k hk
    obtain ⟨hk0, hkb⟩ := (branchesAt_program_iff fresh a k ref).mp hk
    obtain ⟨j', hkj, -, -, hland'⟩ := a.code_lands k.toNat ref hkb
    have := Option.some.inj (hland.symm.trans hland')
    omega
  · obtain ⟨x, hx, -⟩ := hj
    have := (List.getElem?_eq_some_iff.mp hx).1
    simp only [Program.size, instructions_program, List.size_toArray]
    omega

/-- A run through the program of a tree goes forward only. -/
theorem lt_of_goesOn {fresh : Bytes} {a : Atom} {i j : Int} (h : (a.program fresh).GoesOn i j) :
    i < j := by
  rcases h.2 with rfl | ht
  · omega
  · obtain ⟨ref, hb⟩ := Program.branchesAt_of_target? ht
    obtain ⟨last, -, hlast, haddress, -⟩ := a.program_lands fresh hb
    rw [hb.target?_eq, haddress] at ht
    have := hlast i hb
    have := Option.some.inj ht
    omega

/-- The entry of a choice holds where its code ends. -/
theorem address?_choice {fresh : Bytes} {a : Atom} {refs start : Nat} {parts : List Atom}
    (h : ((code (.choice parts)).relocate refs start).StandsAt refs start a.code) :
    (a.program fresh).address? refs =
      some ((start + (code (.choice parts)).instructions.length : Nat) : Int) := by
  apply address?_program (Int.natCast_nonneg refs)
  have hown : ((code (.choice parts)).relocate refs start).addresses[0]? =
      some ((start + (code (.choice parts)).instructions.length : Nat) : Int) := by
    rw [code]
    simp [Fragment.relocate, Int.add_comm]
  exact h.addresses_getElem? hown

end Atom

namespace Compile

/-- In every program of a compilation a branch leads to just behind the last branch by the same
entry, so forward and not beyond the end. The branches of a choice share the entry that the choice
has in preorder, and their target is where the code of that choice ends. No run, whether it falls
through or branches at each step, visits an address twice. -/
theorem branches_lead_forward (limit : Int) (fresh : Bytes) (a : Atom) (p : Program)
    (h : (compile limit fresh a).result = .ok p) :
    (∀ i ref, p.BranchesAt i ref → ∃ j, p.BranchesAt j ref ∧
        (∀ k, p.BranchesAt k ref → k ≤ j) ∧ p.target? i = some (j + 1) ∧
        i < j + 1 ∧ j + 1 ≤ p.size) ∧
      (∀ before place parts after, a.places [] = before ++ (place, .choice parts) :: after →
        ∃ start stop : Nat, stop = start + (Atom.code (.choice parts)).instructions.length ∧
          ((Atom.code (.choice parts)).relocate (Atom.choices before) start).StandsAt
            (Atom.choices before) start ⟨p.instructions.toList, p.addresses.toList⟩ ∧
          ∀ i, p.BranchesAt i (Atom.choices before) → p.target? i = some (stop : Int)) ∧
      ∀ run : List Int, run.IsChain p.GoesOn → run.Nodup := by
  obtain ⟨-, rfl⟩ := plain_of_compile h
  refine ⟨?_, ?_, ?_⟩
  · intro i ref hb
    obtain ⟨j, hj, hlast, haddress, hsize⟩ := a.program_lands fresh hb
    have := hlast i hb
    exact ⟨j, hj, hlast, by rw [hb.target?_eq, haddress], by omega, hsize⟩
  · intro before place parts after hplaces
    obtain ⟨start, hstands⟩ := Atom.code_standsAt [] a hplaces
    refine ⟨start, _, rfl, by simpa using hstands, fun i hb ↦ ?_⟩
    rw [hb.target?_eq, Atom.address?_choice hstands]
  · intro run hrun
    have hforward : run.Pairwise (· < ·) := (hrun.imp fun _ _ ↦ Atom.lt_of_goesOn).pairwise
    exact hforward.imp fun hlt ↦ by omega

/-- A choice inside a choice: the inner branches lead to behind the inner choice, where the last
outer branch stands, and a run may take one after the other. -/
theorem branches_lead_forward_nested :
    let a : Atom := .choice [.literal "a", .choice [.literal "b", .literal "c"]]
    let p := a.program "id"
    (compile 0 "id" a).result = .ok p ∧ p.BranchesAt 3 1 ∧
      (∃ j, p.BranchesAt j 1 ∧ (∀ k, p.BranchesAt k 1 → k ≤ j) ∧ p.target? 3 = some (j + 1) ∧
        3 < j + 1 ∧ j + 1 ≤ p.size) ∧
      [0, 1, 2, 3, 6, 7].IsChain p.GoesOn ∧ [(0 : Int), 1, 2, 3, 6, 7].Nodup := by
  intro a p
  have hp : (compile 0 "id" a).result = .ok p := by rfl
  have hb : p.BranchesAt 3 1 := ⟨.branching 1, by decide, by decide, rfl⟩
  have hrun : [0, 1, 2, 3, 6, 7].IsChain p.GoesOn := by decide
  obtain ⟨hland, -, hnodup⟩ := branches_lead_forward 0 "id" a p hp
  exact ⟨hp, hb, hland 3 1 hb, hrun, hnodup _ hrun⟩

end Compile

end GrammarCode
