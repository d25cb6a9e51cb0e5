import GrammarCode.Proofs.Listing

/-!
# What checking a program tells

The defects of a program are exactly its violations, each told once: those of table entries first,
then those of instructions, each in index order. A program without a defect is safe to look into:
just its branches have targets, all of them in the program, and it has a listing.
-/

namespace GrammarCode

namespace Defect

/-- Where a defect is: at an entry of the address table, or at an instruction. -/
inductive Site where
  | entry (ref : Nat)
  | instruction (index : Nat)
  deriving DecidableEq, Repr

/-- The site that a defect names. -/
def site : Defect → Site
  | .unresolvedAddress ref => .entry ref
  | .addressOutside ref _ _ => .entry ref
  | .negativeCount index _ => .instruction index
  | .referenceOutside index _ => .instruction index
  | .unknownOpcode index _ => .instruction index

/-- What a defect says is so of a program. -/
def Holds (p : Program) : Defect → Prop
  | .unresolvedAddress ref => p.addresses[ref]? = some Program.unresolved
  | .addressOutside ref address size =>
    p.addresses[ref]? = some address ∧ address ≠ Program.unresolved ∧
      (address < 0 ∨ (p.size : Int) < address) ∧ size = p.size
  | .negativeCount index count =>
    ∃ i, p.instructions[index]? = some i ∧ i.opcode = Operation.packSequence.code ∧
      i.count = count ∧ count < 0
  | .referenceOutside index ref =>
    ∃ i, p.instructions[index]? = some i ∧ i.opcode = Operation.branchOnSuccess.code ∧
      i.target = ref ∧ (ref < 0 ∨ (p.addresses.size : Int) ≤ ref)
  | .unknownOpcode index opcode =>
    ∃ i, p.instructions[index]? = some i ∧ i.opcode = opcode ∧ ∀ o : Operation, opcode ≠ o.code

end Defect

namespace Program

/-! ### Defects in order -/

/-- Numbering from a start pairs each item with its index. -/
theorem numbered_eq {α : Type} (start : Nat) (xs : List α) :
    numbered start xs = (xs.zipIdx start).map Prod.swap := by
  induction xs generalizing start with
  | nil => rfl
  | cons x rest ih =>
    rw [numbered, ih, List.zipIdx_cons, List.map_cons]
    rfl

-- What a check finds in numbered items, by the place that each find names.
private theorem sites_filterMap {α β γ : Type} (check : Nat → α → Option β) (site : β → γ)
    (place : Nat → γ) (good : α → Prop) [DecidablePred good]
    (hsite : ∀ n x b, check n x = some b → site b = place n)
    (hnone : ∀ n x, check n x = none ↔ good x) (start : Nat) (xs : List α) :
    ((numbered start xs).filterMap fun e ↦ check e.1 e.2).map site =
      ((xs.zipIdx start).filter fun e ↦ ¬ good e.1).map fun e ↦ place e.2 := by
  induction xs generalizing start with
  | nil => rfl
  | cons x rest ih =>
    rw [numbered, List.zipIdx_cons, List.filterMap_cons, List.filter_cons]
    cases hx : check start x with
    | none => simp [ih, (hnone start x).mp hx]
    | some b =>
      have hbad : ¬ good x := by
        rw [← hnone start x, hx]
        exact Option.some_ne_none b
      simp [ih, hbad, hsite start x b hx]

-- A defect names the item that was checked, and what it says of it is so.
private theorem entryDefect?_spec {p : Program} {ref : Nat} {address : Int} {d : Defect}
    (h : p.entryDefect? ref address = some d) :
    d.site = .entry ref ∧ (p.addresses[ref]? = some address → d.Holds p) := by
  unfold entryDefect? at h
  split at h
  · next hunresolved =>
    cases h
    refine ⟨rfl, fun hentry ↦ ?_⟩
    rw [hunresolved] at hentry
    exact hentry
  · next hresolved =>
    split at h
    · next houtside =>
      cases h
      simp only [Bool.or_eq_true, decide_eq_true_eq] at houtside
      exact ⟨rfl, fun hentry ↦ ⟨hentry, hresolved, houtside, rfl⟩⟩
    · cases h

private theorem instructionDefect?_spec {p : Program} {index : Nat} {i : Instruction} {d : Defect}
    (h : p.instructionDefect? index i = some d) :
    d.site = .instruction index ∧ (p.instructions[index]? = some i → d.Holds p) := by
  unfold instructionDefect? at h
  split at h
  · cases h
  · next ho =>
    split at h
    · next hcount =>
      cases h
      exact ⟨rfl, fun hi ↦ ⟨i, hi, Instruction.operation?_eq_some_iff.mp ho, rfl, hcount⟩⟩
    · cases h
  · next ho =>
    split at h
    · next htarget =>
      cases h
      simp only [Bool.or_eq_true, decide_eq_true_eq] at htarget
      exact ⟨rfl, fun hi ↦ ⟨i, hi, Instruction.operation?_eq_some_iff.mp ho, rfl, htarget⟩⟩
    · cases h
  · next hnone =>
    cases h
    refine ⟨rfl, fun hi ↦ ⟨i, hi, rfl, fun o ho ↦ ?_⟩⟩
    rw [Instruction.operation?_eq_some_iff.mpr ho] at hnone
    cases hnone

/-- There is one defect for each entry that does not lie in the program, and one for each
instruction that does not make sense, in this order. -/
theorem sites_defects (p : Program) :
    p.defects.map Defect.site =
      ((p.addresses.toList.zipIdx.filter fun e ↦ ¬ (0 ≤ e.1 ∧ e.1 ≤ (p.size : Int))).map
          fun e ↦ .entry e.2) ++
        (p.instructions.toList.zipIdx.filter fun e ↦ ¬ e.1.Sound p.addresses.size).map
          fun e ↦ .instruction e.2 := by
  rw [defects, List.map_append]
  congr 1
  · exact sites_filterMap p.entryDefect? _ _ _ (fun _ _ _ h ↦ (entryDefect?_spec h).1)
      p.entryDefect?_eq_none_iff 0 _
  · exact sites_filterMap p.instructionDefect? _ _ _ (fun _ _ _ h ↦ (instructionDefect?_spec h).1)
      p.instructionDefect?_eq_none_iff 0 _

private theorem getElem?_of_mem_numbered {α : Type} {xs : List α} {e : Nat × α}
    (h : e ∈ numbered 0 xs) : xs[e.1]? = some e.2 := by
  rw [numbered_eq] at h
  obtain ⟨⟨x, n⟩, hmem, rfl⟩ := List.mem_map.mp h
  exact List.mk_mem_zipIdx_iff_getElem?.mp hmem

/-- What a defect says is so. -/
theorem holds_of_mem_defects {p : Program} {d : Defect} (h : d ∈ p.defects) : d.Holds p := by
  rcases List.mem_append.mp h with h | h
  · obtain ⟨e, he, hd⟩ := List.mem_filterMap.mp h
    refine (entryDefect?_spec hd).2 ?_
    rw [← Array.getElem?_toList]
    exact getElem?_of_mem_numbered he
  · obtain ⟨e, he, hd⟩ := List.mem_filterMap.mp h
    refine (instructionDefect?_spec hd).2 ?_
    rw [← Array.getElem?_toList]
    exact getElem?_of_mem_numbered he

/-! ### Programs without a defect -/

/-- A table of addresses in the program resolves every reference to one of its entries. -/
theorem leads_of_isConsistent {p : Program} (h : p.isConsistent = true) {ref : Int}
    (hlow : 0 ≤ ref) (hhigh : ref < p.addresses.size) : p.Leads ref := by
  obtain ⟨entry, rfl⟩ := Int.eq_ofNat_of_zero_le hlow
  have hlt : entry < p.addresses.size := Int.ofNat_lt.mp hhigh
  have hentry : p.addresses[entry]? = some p.addresses[entry] := Array.getElem?_eq_getElem hlt
  have hmem := List.mem_of_getElem? ((Array.getElem?_toList ..).trans hentry)
  have hfits := ((isConsistent_iff p).mp h).1 _ hmem
  refine ⟨entry, _, rfl, hentry, ?_⟩
  rw [unresolved]
  omega

/-- Every instruction of a program without a defect can be shown. -/
theorem shows_of_isConsistent {p : Program} (h : p.isConsistent = true) :
    ∀ i ∈ p.instructions.toList, p.Shows i := by
  intro i hi
  obtain ⟨hknown, -, htarget⟩ := (Instruction.sound_iff _ i).mp (((isConsistent_iff p).mp h).2 i hi)
  refine ⟨hknown, fun hbranch ↦ ?_⟩
  obtain ⟨hlow, hhigh⟩ := htarget hbranch
  exact leads_of_isConsistent h hlow hhigh

/-- In a program without a defect just the branches have a target, and it lies in the program. -/
theorem target?_of_isConsistent {p : Program} (h : p.isConsistent = true) (index : Int) :
    ((∃ address, p.target? index = some address) ↔ ∃ ref, p.BranchesAt index ref) ∧
      ∀ address, p.target? index = some address → 0 ≤ address ∧ address ≤ p.size := by
  refine ⟨⟨fun ⟨_, ht⟩ ↦ branchesAt_of_target? ht, ?_⟩, fun address ht ↦ ?_⟩
  · rintro ⟨ref, hb⟩
    rw [hb.target?_eq]
    obtain ⟨i, hi, ho, rfl⟩ := hb
    have hmem : i ∈ p.instructions.toList := by
      unfold instruction? at hi
      split at hi
      · cases hi
      · exact List.mem_of_getElem? (by rwa [Array.getElem?_toList])
    exact exists_address?_iff.mpr
      ((shows_of_isConsistent h i hmem).leads (Instruction.operation?_eq_some_iff.mp ho))
  · obtain ⟨ref, hb⟩ := branchesAt_of_target? ht
    rw [hb.target?_eq, address?_eq_some_iff] at ht
    obtain ⟨entry, -, hentry, -⟩ := ht
    exact ((isConsistent_iff p).mp h).1 address
      (List.mem_of_getElem? (by rwa [Array.getElem?_toList]))

/-- A program is consistent exactly if every opcode has an operation, no sequence has a negative
count, every branch names an entry of the table and every entry lies in the program; else it has one
defect for each entry and each instruction that violates this, entries first, in index order, and
each says what is so. In a consistent program just the branches have targets, all in the program,
and it has a listing with one line for each instruction. A program has no listing exactly if some
opcode has no operation or some branch leads nowhere, and the first such instruction is reported. -/
theorem defects_and_listing_exact (p : Program) :
    (p.isConsistent = true ↔
      (∀ i ∈ p.instructions.toList, ∃ o : Operation, i.opcode = o.code) ∧
      (∀ i ∈ p.instructions.toList, i.opcode = Operation.packSequence.code → 0 ≤ i.count) ∧
      (∀ i ∈ p.instructions.toList, i.opcode = Operation.branchOnSuccess.code →
        0 ≤ i.target ∧ i.target < p.addresses.size) ∧
      ∀ address ∈ p.addresses.toList, 0 ≤ address ∧ address ≤ p.size) ∧
    (p.defects.map Defect.site =
        ((p.addresses.toList.zipIdx.filter fun e ↦ ¬ (0 ≤ e.1 ∧ e.1 ≤ (p.size : Int))).map
            fun e ↦ .entry e.2) ++
          (p.instructions.toList.zipIdx.filter fun e ↦ ¬ e.1.Sound p.addresses.size).map
            fun e ↦ .instruction e.2) ∧
    (∀ d ∈ p.defects, d.Holds p) ∧
    (p.isConsistent = true →
      (∀ index, ((∃ address, p.target? index = some address) ↔ ∃ ref, p.BranchesAt index ref) ∧
        ∀ address, p.target? index = some address → 0 ≤ address ∧ address ≤ p.size) ∧
      ∃ lines, p.listing = .ok lines ∧ lines.length = p.size ∧
        lines.map ListingLine.offset = (List.range p.size).map Int.ofNat) ∧
    ((∃ e, p.listing = .error e) ↔ ∃ i ∈ p.instructions.toList, ¬ p.Shows i) ∧
    ∀ e, p.listing = .error e → ∃ (k : Nat) (i : Instruction), p.instructions[k]? = some i ∧
      ¬ p.Shows i ∧ (∀ j i', j < k → p.instructions[j]? = some i' → p.Shows i') ∧
      e = refusal k i := by
  refine ⟨?_, p.sites_defects, fun d ↦ holds_of_mem_defects, fun h ↦ ?_, ?_, fun e he ↦ ?_⟩
  · simp only [isConsistent_iff, Instruction.sound_iff]
    constructor
    · rintro ⟨hentries, hsound⟩
      exact ⟨fun i hi ↦ (hsound i hi).1, fun i hi ↦ (hsound i hi).2.1,
        fun i hi ↦ (hsound i hi).2.2, hentries⟩
    · rintro ⟨hopcodes, hcounts, htargets, hentries⟩
      exact ⟨hentries, fun i hi ↦ ⟨hopcodes i hi, hcounts i hi, htargets i hi⟩⟩
  · obtain ⟨lines, hlines⟩ := p.exists_listing_iff.mpr (shows_of_isConsistent h)
    exact ⟨target?_of_isConsistent h, lines, hlines, (lines_of_listing hlines).1,
      offsets_listing hlines⟩
  · have hok := p.exists_listing_iff
    cases hlisting : p.listing with
    | ok lines =>
      rw [hlisting] at hok
      simpa using hok
    | error e =>
      rw [hlisting] at hok
      simpa using hok
  · obtain ⟨k, i, hi, hnot, hbefore, rfl⟩ := (p.listingFrom_eq_error_iff 0 _ e).mp he
    rw [Nat.zero_add]
    simp only [Array.getElem?_toList] at hi hbefore
    exact ⟨k, i, hi, hnot, hbefore, rfl⟩

/-- A consistent program with a branch to its end, and one with every kind of defect: an unresolved
entry, entries on both sides of the program, an unknown opcode, a negative count, and references
before and behind the table. -/
theorem defects_and_listing_exact_broken :
    let p : Program :=
      { id := [0x70], instructions := #[.matching [0x61], .branching 0, .packing 0]
        addresses := #[3] }
    let q : Program :=
      { id := [0x71]
        instructions := #[.matching [0x61], .branching 3, { opcode := 7 }, .packing (-1),
          .branching 4, .branching (-1)]
        addresses := #[6, unresolved, 7, -2] }
    p.isConsistent = true ∧ (∃ address, p.target? 1 = some address ∧ 0 ≤ address ∧ address ≤ 3) ∧
      (∃ lines, p.listing = .ok lines ∧ lines.length = 3 ∧
        lines.map ListingLine.offset = [0, 1, 2]) ∧
      q.defects.map Defect.site = [.entry 1, .entry 2, .entry 3, .instruction 2, .instruction 3,
        .instruction 4, .instruction 5] ∧
      q.listing = .error (.unknownOpcode 7 2) ∧
      ∃ (k : Nat) (i : Instruction), q.instructions[k]? = some i ∧ ¬ q.Shows i ∧
        (∀ j i', j < k → q.instructions[j]? = some i' → q.Shows i') ∧
        .unknownOpcode 7 2 = refusal k i := by
  intro p q
  have hp : p.isConsistent = true := by decide
  have hq : q.listing = .error (.unknownOpcode 7 2) := rfl
  obtain ⟨-, -, -, hconsistent, -, -⟩ := defects_and_listing_exact p
  obtain ⟨-, hsites, -, -, -, hfirst⟩ := defects_and_listing_exact q
  obtain ⟨htargets, hlines⟩ := hconsistent hp
  obtain ⟨address, haddress⟩ := (htargets 1).1.mpr ⟨0, .branching 0, rfl, by decide, rfl⟩
  exact ⟨hp, ⟨address, haddress, (htargets 1).2 address haddress⟩, hlines,
    hsites.trans (by decide), hq, hfirst _ hq⟩

end Program

end GrammarCode
