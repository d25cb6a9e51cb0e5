import GrammarCode.Program.Listing
import GrammarCode.Proofs.Consistency
import GrammarCode.Proofs.Decimal
import GrammarCode.Proofs.QuotedText

/-!
# Listings of programs

A program has a listing exactly if every instruction can be shown: its opcode has an operation, and
a branch leads to a resolved entry of the address table. Otherwise the first instruction that cannot
is reported. A listing has one line for each instruction in order, and the line tells everything
that the instruction means: equal listings come from programs with the same code and targets.
-/

namespace GrammarCode

/-- Two instructions have the same operation and the same operand of it. -/
structure Instruction.Agrees (i j : Instruction) : Prop where
  opcode : i.opcode = j.opcode
  pattern : i.opcode = Operation.matchPattern.code → i.pattern = j.pattern
  count : i.opcode = Operation.packSequence.code → i.count = j.count
  target : i.opcode = Operation.branchOnSuccess.code → i.target = j.target

namespace Program

/-! ### What can be shown -/

/-- A reference names an entry of the table, and the entry is resolved. -/
def Leads (p : Program) (ref : Int) : Prop :=
  ∃ (entry : Nat) (address : Int),
    ref = entry ∧ p.addresses[entry]? = some address ∧ address ≠ unresolved

/-- An instruction can be shown: its opcode has an operation, and a branch leads somewhere. -/
structure Shows (p : Program) (i : Instruction) : Prop where
  known : ∃ o : Operation, i.opcode = o.code
  leads : i.opcode = Operation.branchOnSuccess.code → p.Leads i.target

/-- Why the instruction at an offset cannot be shown. -/
def refusal (offset : Nat) (i : Instruction) : ListingError :=
  if i.operation? = none then .unknownOpcode i.opcode offset
  else .unresolvedTarget i.target offset

/-- The address that a reference has is what its entry holds, if that is resolved. -/
theorem address?_eq_some_iff {p : Program} {ref address : Int} :
    p.address? ref = some address ↔
      ∃ entry : Nat, ref = entry ∧ p.addresses[entry]? = some address ∧ address ≠ unresolved := by
  unfold address?
  constructor
  · intro h
    split at h
    · cases h
    · next hneg =>
      split at h
      · next a ha =>
        split at h
        · cases h
        · next hne =>
          cases h
          exact ⟨ref.toNat, by omega, ha, hne⟩
      · cases h
  · rintro ⟨entry, rfl, hentry, hne⟩
    rw [if_neg (by omega), Int.toNat_natCast, hentry]
    exact if_neg hne

/-- A reference has an address exactly if it leads somewhere. -/
theorem exists_address?_iff {p : Program} {ref : Int} :
    (∃ address, p.address? ref = some address) ↔ p.Leads ref := by
  simp only [address?_eq_some_iff, Leads]
  exact exists_comm

/-- With an operation, all that can keep an instruction from being shown is a branch that leads
nowhere. -/
theorem shows_iff_of_operation? {p : Program} {i : Instruction} {o : Operation}
    (h : i.operation? = some o) :
    p.Shows i ↔ (o = .branchOnSuccess → p.Leads i.target) := by
  constructor
  · rintro hshows rfl
    exact hshows.leads (Instruction.operation?_eq_some_iff.mp h)
  · intro hleads
    refine ⟨⟨o, Instruction.operation?_eq_some_iff.mp h⟩, fun hbranch ↦ hleads ?_⟩
    exact Option.some.inj (h.symm.trans (Instruction.operation?_eq_some_iff.mpr hbranch))

/-- An instruction that can be shown has a line with its offset and its opcode, any other one is
refused. -/
theorem listingLine_cases (p : Program) (offset : Nat) (i : Instruction) :
    (p.Shows i ∧ ∃ line, p.listingLine offset i = .ok line ∧ line.offset = offset ∧
        line.opcode = i.opcode) ∨
      (¬ p.Shows i ∧ p.listingLine offset i = .error (refusal offset i)) := by
  unfold listingLine refusal
  cases hop : i.operation? with
  | none =>
    refine Or.inr ⟨fun hshows ↦ ?_, rfl⟩
    obtain ⟨o, ho⟩ := hshows.known
    rw [Instruction.operation?_eq_some_iff.mpr ho] at hop
    cases hop
  | some o =>
    have hshows := shows_iff_of_operation? (p := p) hop
    cases o with
    | matchPattern => exact Or.inl ⟨hshows.mpr (by simp), _, rfl, rfl, rfl⟩
    | packSequence => exact Or.inl ⟨hshows.mpr (by simp), _, rfl, rfl, rfl⟩
    | branchOnSuccess =>
      cases haddress : p.address? i.target with
      | none =>
        refine Or.inr ⟨fun h ↦ ?_, by simp⟩
        obtain ⟨address, hsome⟩ := exists_address?_iff.mpr (hshows.mp h rfl)
        rw [haddress] at hsome
        cases hsome
      | some address =>
        exact Or.inl ⟨hshows.mpr fun _ ↦ exists_address?_iff.mp ⟨address, haddress⟩, _, rfl, rfl,
          rfl⟩

/-- An instruction that has a line can be shown, and the line has its offset and its opcode. -/
theorem shows_of_listingLine {p : Program} {offset : Nat} {i : Instruction} {line : ListingLine}
    (h : p.listingLine offset i = .ok line) :
    p.Shows i ∧ line.offset = offset ∧ line.opcode = i.opcode := by
  rcases p.listingLine_cases offset i with ⟨hshows, line', hline, hoffset, hopcode⟩ | ⟨-, herror⟩
  · obtain rfl := Except.ok.inj (hline.symm.trans h)
    exact ⟨hshows, hoffset, hopcode⟩
  · cases herror.symm.trans h

/-! ### Lines in order -/

/-- A listing has one line for each instruction in order. -/
theorem listingFrom_eq_ok_iff (p : Program) (offset : Nat) (is : List Instruction)
    (lines : List ListingLine) :
    p.listingFrom offset is = .ok lines ↔ lines.length = is.length ∧
      ∀ k i, is[k]? = some i → ∃ line, lines[k]? = some line ∧
        p.listingLine (offset + k) i = .ok line := by
  induction is generalizing offset lines with
  | nil => simp [listingFrom, eq_comm]
  | cons i rest ih =>
    rw [listingFrom]
    constructor
    · intro h
      split at h
      · cases h
      · next line hline =>
        split at h
        · cases h
        · next more hmore =>
          cases h
          obtain ⟨hlength, hrest⟩ := (ih (offset + 1) more).mp hmore
          refine ⟨by simp [hlength], fun k j hj ↦ ?_⟩
          cases k with
          | zero =>
            obtain rfl := Option.some.inj hj
            exact ⟨line, rfl, hline⟩
          | succ k =>
            obtain ⟨line', hline', hj'⟩ := hrest k j hj
            exact ⟨line', hline', by rwa [show offset + (k + 1) = offset + 1 + k by omega]⟩
    · rintro ⟨hlength, hlines⟩
      cases lines with
      | nil => simp at hlength
      | cons line more =>
        obtain ⟨line', hzero, hline⟩ := hlines 0 i rfl
        obtain rfl := Option.some.inj hzero
        have hmore : p.listingFrom (offset + 1) rest = .ok more := by
          refine (ih (offset + 1) more).mpr ⟨by simpa using hlength, fun k j hj ↦ ?_⟩
          obtain ⟨line', hline', hj'⟩ := hlines (k + 1) j hj
          exact ⟨line', hline', by rwa [show offset + 1 + k = offset + (k + 1) by omega]⟩
        rw [Nat.add_zero] at hline
        simp only [hline, hmore]

/-- Without a listing the first instruction that cannot be shown is reported. -/
theorem listingFrom_eq_error_iff (p : Program) (offset : Nat) (is : List Instruction)
    (e : ListingError) :
    p.listingFrom offset is = .error e ↔ ∃ k i, is[k]? = some i ∧ ¬ p.Shows i ∧
      (∀ j i', j < k → is[j]? = some i' → p.Shows i') ∧ e = refusal (offset + k) i := by
  induction is generalizing offset with
  | nil => simp [listingFrom]
  | cons i rest ih =>
    rw [listingFrom]
    rcases p.listingLine_cases offset i with ⟨hi, line, hline, -, -⟩ | ⟨hi, herror⟩
    · have htail : (∃ k j, (i :: rest)[k]? = some j ∧ ¬ p.Shows j ∧
            (∀ l i', l < k → (i :: rest)[l]? = some i' → p.Shows i') ∧
            e = refusal (offset + k) j) ↔
          ∃ k j, rest[k]? = some j ∧ ¬ p.Shows j ∧
            (∀ l i', l < k → rest[l]? = some i' → p.Shows i') ∧
            e = refusal (offset + 1 + k) j := by
        constructor
        · rintro ⟨k, j, hj, hnot, hbefore, rfl⟩
          cases k with
          | zero =>
            obtain rfl := Option.some.inj hj
            exact absurd hi hnot
          | succ k =>
            refine ⟨k, j, hj, hnot, fun l i' hl hl' ↦ hbefore (l + 1) i' (by omega) hl', ?_⟩
            rw [show offset + (k + 1) = offset + 1 + k by omega]
        · rintro ⟨k, j, hj, hnot, hbefore, rfl⟩
          refine ⟨k + 1, j, hj, hnot, fun l i' hl hl' ↦ ?_, ?_⟩
          · cases l with
            | zero =>
              obtain rfl := Option.some.inj hl'
              exact hi
            | succ l => exact hbefore l i' (by omega) hl'
          · rw [show offset + (k + 1) = offset + 1 + k by omega]
      rw [htail, ← ih (offset + 1)]
      simp only [hline]
      cases p.listingFrom (offset + 1) rest with
      | error e' => rfl
      | ok lines => simp
    · simp only [herror, Except.error.injEq]
      constructor
      · rintro rfl
        exact ⟨0, i, rfl, hi, fun j i' hj ↦ by omega, rfl⟩
      · rintro ⟨k, j, hj, -, hbefore, rfl⟩
        cases k with
        | zero =>
          obtain rfl := Option.some.inj hj
          rfl
        | succ k => exact absurd (hbefore 0 i (by omega) rfl) hi

/-- A listing has as many lines as its program has instructions, each that of its instruction. -/
theorem lines_of_listing {p : Program} {lines : List ListingLine} (h : p.listing = .ok lines) :
    lines.length = p.size ∧ ∀ k i, p.instructions[k]? = some i → ∃ line, lines[k]? = some line ∧
      p.listingLine k i = .ok line := by
  obtain ⟨hlength, hlines⟩ := (p.listingFrom_eq_ok_iff 0 _ lines).mp h
  refine ⟨hlength, fun k i hi ↦ ?_⟩
  have hline := hlines k i (by rwa [Array.getElem?_toList])
  rwa [Nat.zero_add] at hline

/-- A program has a listing exactly if every instruction can be shown. -/
theorem exists_listing_iff (p : Program) :
    (∃ lines, p.listing = .ok lines) ↔ ∀ i ∈ p.instructions.toList, p.Shows i := by
  constructor
  · rintro ⟨lines, h⟩ i hi
    obtain ⟨k, hk⟩ := List.getElem?_of_mem hi
    rw [Array.getElem?_toList] at hk
    obtain ⟨line, -, hline⟩ := (lines_of_listing h).2 k i hk
    exact (shows_of_listingLine hline).1
  · intro h
    cases hlisting : p.listing with
    | ok lines => exact ⟨lines, rfl⟩
    | error e =>
      obtain ⟨k, i, hi, hnot, -⟩ := (p.listingFrom_eq_error_iff 0 _ e).mp hlisting
      exact absurd (h i (List.mem_of_getElem? hi)) hnot

/-- The offsets of a listing count the instructions from zero. -/
theorem offsets_listing {p : Program} {lines : List ListingLine} (h : p.listing = .ok lines) :
    lines.map ListingLine.offset = (List.range p.size).map Int.ofNat := by
  obtain ⟨hlength, hlines⟩ := lines_of_listing h
  apply List.ext_getElem?
  intro k
  rw [List.getElem?_map, List.getElem?_map]
  by_cases hk : k < p.size
  · obtain ⟨line, hline, hi⟩ := hlines k _ (Array.getElem?_eq_getElem hk)
    rw [hline, List.getElem?_range hk]
    exact congrArg some (shows_of_listingLine hi).2.1
  · rw [List.getElem?_eq_none (by omega), List.getElem?_eq_none (by simpa using hk)]
    rfl

/-! ### What a line tells -/

private theorem arrow_eq (size : Nat) (target : Int) :
    arrow size target = Bytes.ofString "-> " ++
      (Bytes.decimal target ++ if target = size then Bytes.ofString " (end)" else []) := by
  simp [arrow, Bytes.cat]

/-- Where a branch leads can be read off what is shown of it. -/
theorem arrow_inj {m n : Nat} {s t : Int} (h : arrow m s = arrow n t) : s = t := by
  -- A number has no blank, so it ends where the mark of the end begins.
  have hnumber (m : Nat) (s : Int) :
      (Bytes.decimal s ++ if s = m then Bytes.ofString " (end)" else []).takeWhile (· ≠ 0x20) =
        Bytes.decimal s := by
    have hdigits : ∀ b ∈ Bytes.decimal s, decide (b ≠ 0x20) = true := by
      intro b hb
      apply decide_eq_true
      rintro rfl
      exact absurd (Bytes.mem_decimal_cases hb) (by decide)
    rw [List.takeWhile_append_of_pos hdigits]
    split
    · rw [show (Bytes.ofString " (end)").takeWhile (· ≠ 0x20) = [] by decide, List.append_nil]
    · simp
  rw [arrow_eq, arrow_eq] at h
  have hsame := congrArg (List.takeWhile (· ≠ 0x20)) (List.append_cancel_left h)
  rw [hnumber, hnumber] at hsame
  exact Bytes.decimal_inj hsame

-- The operand that belongs to the operation is shown, and of a branch its address.
private theorem operands_of_listingLine {p : Program} {offset : Nat} {i : Instruction}
    {line : ListingLine} (h : p.listingLine offset i = .ok line) :
    (i.operation? = some .matchPattern → line.operands = [Text.quoted i.pattern]) ∧
      (i.operation? = some .packSequence → line.operands = [Bytes.decimal i.count]) ∧
      (i.operation? = some .branchOnSuccess →
        line.operands = [Bytes.cat ["@", Bytes.decimal i.target]] ∧
          ∃ address, p.address? i.target = some address ∧
            line.annotation = arrow p.size address) := by
  unfold listingLine at h
  refine ⟨fun ho ↦ ?_, fun ho ↦ ?_, fun ho ↦ ?_⟩
  · rw [ho] at h
    cases h
    rfl
  · rw [ho] at h
    cases h
    rfl
  · rw [ho] at h
    dsimp only at h
    split at h
    · cases h
    · next address haddress =>
      cases h
      exact ⟨rfl, address, haddress, rfl⟩

/-- Instructions with the same line agree, and branches with the same line lead to the same
address. -/
theorem agrees_of_listingLine {p q : Program} {offset : Nat} {i j : Instruction}
    {line : ListingLine} (hp : p.listingLine offset i = .ok line)
    (hq : q.listingLine offset j = .ok line) :
    i.Agrees j ∧ (i.opcode = Operation.branchOnSuccess.code →
      ∃ address, p.address? i.target = some address ∧ q.address? j.target = some address) := by
  have hopcode : i.opcode = j.opcode :=
    (shows_of_listingLine hp).2.2.symm.trans (shows_of_listingLine hq).2.2
  obtain ⟨hpmatch, hppack, hpbranch⟩ := operands_of_listingLine hp
  obtain ⟨hqmatch, hqpack, hqbranch⟩ := operands_of_listingLine hq
  have hboth {o : Operation} (h : i.opcode = o.code) :
      i.operation? = some o ∧ j.operation? = some o :=
    ⟨Instruction.operation?_eq_some_iff.mpr h,
      Instruction.operation?_eq_some_iff.mpr (hopcode.symm.trans h)⟩
  refine ⟨⟨hopcode, fun h ↦ ?_, fun h ↦ ?_, fun h ↦ ?_⟩, fun h ↦ ?_⟩
  · have hsame := (hpmatch (hboth h).1).symm.trans (hqmatch (hboth h).2)
    exact Text.quoted_inj (List.cons.inj hsame).1
  · have hsame := (hppack (hboth h).1).symm.trans (hqpack (hboth h).2)
    exact Bytes.decimal_inj (List.cons.inj hsame).1
  · have hsame := (hpbranch (hboth h).1).1.symm.trans (hqbranch (hboth h).2).1
    have htext := (List.cons.inj hsame).1
    simp only [Bytes.cat, List.flatten_cons, List.flatten_nil, List.append_nil,
      List.append_cancel_left_eq] at htext
    exact Bytes.decimal_inj htext
  · obtain ⟨-, s, hs, hshown⟩ := hpbranch (hboth h).1
    obtain ⟨-, t, ht, hshown'⟩ := hqbranch (hboth h).2
    obtain rfl := arrow_inj (hshown.symm.trans hshown')
    exact ⟨s, hs, ht⟩

/-- Programs with the same listing have the same length, and at every address instructions with the
same opcode and the same operand that belongs to it, byte for byte also where a pattern is no UTF-8;
their branches have the same targets. -/
theorem agrees_of_listing_eq (p q : Program) (lines : List ListingLine)
    (hp : p.listing = .ok lines) (hq : q.listing = .ok lines) :
    p.size = q.size ∧
      ∀ (k : Nat) i j, p.instructions[k]? = some i → q.instructions[k]? = some j →
        i.Agrees j ∧ (i.opcode = Operation.branchOnSuccess.code →
          ∃ address, p.target? k = some address ∧ q.target? k = some address) := by
  obtain ⟨hpsize, hplines⟩ := lines_of_listing hp
  obtain ⟨hqsize, hqlines⟩ := lines_of_listing hq
  refine ⟨hpsize.symm.trans hqsize, fun k i j hi hj ↦ ?_⟩
  obtain ⟨line, hline, hpline⟩ := hplines k i hi
  obtain ⟨line', hline', hqline⟩ := hqlines k j hj
  obtain rfl := Option.some.inj (hline.symm.trans hline')
  obtain ⟨hagrees, hleads⟩ := agrees_of_listingLine hpline hqline
  refine ⟨hagrees, fun hbranch ↦ ?_⟩
  obtain ⟨address, hs, ht⟩ := hleads hbranch
  have hpat : p.BranchesAt k i.target :=
    ⟨i, by simpa [instruction?] using hi, Instruction.operation?_eq_some_iff.mpr hbranch, rfl⟩
  have hqat : q.BranchesAt k j.target :=
    ⟨j, by simpa [instruction?] using hj,
      Instruction.operation?_eq_some_iff.mpr (hagrees.opcode.symm.trans hbranch), rfl⟩
  exact ⟨address, by rw [hpat.target?_eq, hs], by rw [hqat.target?_eq, ht]⟩

/-- Two programs with the same listing that differ in what it does not show: their identifiers,
operands that do not belong to an instruction, and entries that no branch names. The pattern has a
stray byte beside the text of its escape. -/
theorem agrees_of_listing_eq_stray :
    let p : Program :=
      { id := [0x70]
        instructions := #[.matching [0xFF, 0x5C, 0x78, 0x66, 0x66], .branching 0]
        addresses := #[2] }
    let q : Program :=
      { id := [0x71]
        instructions := #[{ opcode := 1, pattern := [0xFF, 0x5C, 0x78, 0x66, 0x66], count := 7 },
          { opcode := 20, pattern := [0x61] }]
        addresses := #[2, unresolved, 9] }
    ∃ lines, p.listing = .ok lines ∧ q.listing = .ok lines ∧ p.size = q.size ∧
      ∃ address, p.target? 1 = some address ∧ q.target? 1 = some address := by
  intro p q
  obtain ⟨hsize, hagrees⟩ := agrees_of_listing_eq p q _ rfl rfl
  exact ⟨_, rfl, rfl, hsize, (hagrees 1 _ _ rfl rfl).2 rfl⟩

end Program

end GrammarCode
