import GrammarCode.Program.Identifier
import GrammarCode.Program.Serial
import GrammarCode.Proofs.Consistency
import GrammarCode.Proofs.JsonText

/-!
# Programs read back from their text

The text of a program is accepted exactly if the program is consistent. What is read is the program
with the stray bytes of its texts replaced and with each instruction reduced to the operand that
belongs to it, so a program that has neither comes back as it was.
-/

namespace GrammarCode

open Json (Whole Spells)

/-! ### What a text keeps -/

/-- An instruction as its text keeps it: made anew from the operand that belongs to it. -/
def Instruction.kept (i : Instruction) : Instruction :=
  match i.operation? with
  | some .matchPattern => .matching (Utf8.repair i.pattern)
  | some .packSequence => .packing i.count
  | some .branchOnSuccess => .branching i.target
  | none => i

/-- A program as its text keeps it. -/
def Program.kept (p : Program) : Program where
  id := Utf8.repair p.id
  source := Utf8.repair p.source
  instructions := (p.instructions.toList.map Instruction.kept).toArray
  addresses := p.addresses

/-- The numbers of a program are numbers of 64 bits with sign. -/
structure Program.Fits64 (p : Program) : Prop where
  counts : ∀ i ∈ p.instructions.toList, Integer.Fits64 i.count
  targets : ∀ i ∈ p.instructions.toList, Integer.Fits64 i.target
  addresses : ∀ a ∈ p.addresses.toList, Integer.Fits64 a

namespace Instruction

/-- An instruction that a constructor makes, with a well-formed pattern if it has one. -/
inductive Made : Instruction → Prop where
  | matching (pattern : Bytes) (h : Utf8.isValid pattern = true) : Made (.matching pattern)
  | packing (count : Int) : Made (.packing count)
  | branching (target : Int) : Made (.branching target)

/-- Such an instruction is kept as it is. -/
theorem Made.kept_eq {i : Instruction} (h : i.Made) : i.kept = i := by
  cases h with
  | matching pattern h =>
    rw [kept, operation?_matching]
    exact congrArg Instruction.matching (Utf8.repair_of_isValid h)
  | packing count =>
    rw [kept, operation?_packing]
    rfl
  | branching target =>
    rw [kept, operation?_branching]
    rfl

/-- An instruction makes sense as it is kept exactly if it does as it is. -/
theorem sound_kept_iff (entries : Nat) (i : Instruction) :
    i.kept.Sound entries ↔ i.Sound entries := by
  rw [kept]
  cases h : i.operation? with
  | none => rfl
  | some o =>
    cases o with
    | matchPattern => simp [Sound, h]
    | packSequence => rw [sound_packing_iff, Sound, h]
    | branchOnSuccess => rw [sound_branching_iff, Sound, h]

/-- What makes sense has an operation. -/
theorem operation?_isSome_of_sound {entries : Nat} {i : Instruction} (h : i.Sound entries) :
    i.operation?.isSome = true := by
  unfold Sound at h
  split at h
  all_goals simp_all

end Instruction

/-- A program is consistent as it is kept exactly if it is as it is. -/
theorem Program.isConsistent_kept (p : Program) : p.kept.isConsistent = p.isConsistent := by
  rw [Bool.eq_iff_iff, isConsistent_iff, isConsistent_iff]
  have hsize : p.kept.size = p.size := by simp [size, kept]
  rw [hsize]
  simp [kept, Instruction.sound_kept_iff]

/-- A program with well-formed texts and made instructions is kept as it is. -/
theorem Program.kept_eq_self {p : Program} (hid : Utf8.isValid p.id = true)
    (hsource : Utf8.isValid p.source = true) (his : ∀ i ∈ p.instructions.toList, i.Made) :
    p.kept = p := by
  have hinstructions : (p.instructions.toList.map Instruction.kept).toArray = p.instructions := by
    rw [List.map_congr_left fun i hi ↦ (his i hi).kept_eq, List.map_id']
  rw [kept, Utf8.repair_of_isValid hid, Utf8.repair_of_isValid hsource, hinstructions]

/-! ### Drafts -/

namespace Serial

/-- A number of 64 bits is read as an operand. -/
theorem operand?_int (old : Option Int) {n : Int} (h : Integer.Fits64 n) :
    operand? number? 0 old (.int n) = some (some n) := by
  rw [Json.int, operand?, number?, int64?_decimal n h]
  · rfl
  · intro h
    cases h

/-- The draft of an instruction with the address that it resolves to. -/
def draftOf (i : Instruction) (address : Option Int) : InstructionDraft :=
  match i.operation? with
  | some .matchPattern =>
    { op := Operation.matchPattern.name, pattern := some (Utf8.repair i.pattern) }
  | some .packSequence => { op := Operation.packSequence.name, count := some i.count }
  | some .branchOnSuccess =>
    { op := Operation.branchOnSuccess.name, target := some i.target, address }
  | none => { op := opcodeName i.opcode }

-- Which field of a draft a name stands for.
private theorem instructionField?_op (d : InstructionDraft) (s : Bytes) :
    instructionField? d ("op", .string s) = some { d with op := s } := rfl

private theorem instructionField?_pattern (d : InstructionDraft) (s : Bytes) :
    instructionField? d ("pattern", .string s) = some { d with pattern := some s } := rfl

private theorem instructionField?_count (d : InstructionDraft) (v : Json) :
    instructionField? d ("count", v) =
      (operand? number? 0 d.count v).map fun x ↦ { d with count := x } := rfl

private theorem instructionField?_target (d : InstructionDraft) (v : Json) :
    instructionField? d ("target", v) =
      (operand? number? 0 d.target v).map fun x ↦ { d with target := x } := rfl

private theorem instructionField?_address (d : InstructionDraft) (v : Json) :
    instructionField? d ("address", v) =
      (operand? number? 0 d.address v).map fun x ↦ { d with address := x } := rfl

private theorem instruction?_repaired (d : InstructionDraft) (fs : List (Bytes × Json)) :
    instruction? d (Json.object fs).repaired =
      fs.foldlM (fun d f ↦ instructionField? d (Utf8.repair f.1, f.2.repaired)) d := by
  rw [Json.repaired, Json.repairedFields_eq, instruction?, List.foldlM_map]

/-- An instruction is read from its JSON as its draft. -/
theorem instruction?_instructionJson (i : Instruction) (address : Option Int)
    (hcount : Integer.Fits64 i.count) (htarget : Integer.Fits64 i.target)
    (haddress : ∀ a ∈ address, Integer.Fits64 a) :
    instruction? {} (Program.instructionJson i address).repaired = some (draftOf i address) := by
  have hname (o : Operation) (h : i.operation? = some o) : opcodeName i.opcode = o.name := by
    rw [opcodeName, show Operation.ofCode? i.opcode = some o from h]
    rfl
  unfold Program.instructionJson draftOf
  rw [instruction?_repaired, List.foldlM_cons, Utf8.repair_ofString, Json.repaired_string,
    Utf8.repair_ofString, instructionField?_op]
  cases h : i.operation? with
  | none => rfl
  | some o =>
    rw [hname o h]
    cases o with
    | matchPattern =>
      simp only [List.foldlM_cons, Utf8.repair_ofString, Json.repaired_string,
        instructionField?_pattern]
      rfl
    | packSequence =>
      simp only [List.foldlM_cons, Utf8.repair_ofString, Json.repaired_int,
        instructionField?_count, operand?_int _ hcount]
      rfl
    | branchOnSuccess =>
      cases address with
      | none =>
        simp only [List.foldlM_cons, Utf8.repair_ofString, Json.repaired_int,
          instructionField?_target, operand?_int _ htarget]
        rfl
      | some a =>
        simp only [List.foldlM_cons, Utf8.repair_ofString, Json.repaired_int,
          instructionField?_target, instructionField?_address, operand?_int _ htarget,
          operand?_int _ (haddress a rfl)]
        rfl

/-- A list that is read from nothing has one cell for each item. -/
theorem cells?_map {α β : Type} (read : α → Json → Option α) (zero : α) (write : β → Json)
    (get : β → α) (xs : List β) (h : ∀ x ∈ xs, read zero (write x) = some (get x)) :
    cells? read zero [] (xs.map write) = some (xs.map get) := by
  induction xs with
  | nil => rfl
  | cons x rest ih =>
    rw [List.map_cons, cells?, h x List.mem_cons_self,
      ih fun y hy ↦ h y (List.mem_cons_of_mem x hy)]
    rfl

/-- Such a list has just these cells in use. -/
theorem list?_map {α β : Type} (read : α → Json → Option α) (zero : α) (write : β → Json)
    (get : β → α) (xs : List β) (h : ∀ x ∈ xs, read zero (write x) = some (get x)) :
    ∃ slots, list? read zero {} (.array (xs.map write)) = some slots ∧
      slots.toList = xs.map get := by
  cases xs with
  | nil => exact ⟨{}, rfl, rfl⟩
  | cons x rest =>
    have hcells := cells?_map read zero write get (x :: rest) h
    refine ⟨⟨(x :: rest).map get, (x :: rest).length⟩, ?_, ?_⟩
    · simp only [List.map_cons] at hcells ⊢
      simp [list?, hcells]
    · rw [Slots.toList, List.take_of_length_le (by simp)]

/-- The drafts of the instructions of a program. -/
def drafts (p : Program) : List InstructionDraft :=
  (Program.numbered 0 p.instructions.toList).map fun e ↦ draftOf e.2 (p.target? e.1)

end Serial

namespace Program

private theorem mem_of_mem_numbered {α : Type} {start : Nat} {xs : List α} {e : Nat × α}
    (h : e ∈ numbered start xs) : e.2 ∈ xs := by
  induction xs generalizing start with
  | nil => simp [numbered] at h
  | cons x rest ih =>
    rw [numbered] at h
    rcases List.mem_cons.mp h with rfl | h
    · exact List.mem_cons_self
    · exact List.mem_cons_of_mem x (ih h)

/-- A branch resolves to an entry of the address table. -/
theorem mem_addresses_of_target? {p : Program} {index address : Int}
    (h : p.target? index = some address) : address ∈ p.addresses.toList := by
  unfold target? address? at h
  split at h
  · split at h
    · split at h
      · cases h
      · split at h
        · next a ha =>
          split at h
          · cases h
          · cases h
            exact List.mem_of_getElem? (by rw [Array.getElem?_toList]; exact ha)
        · cases h
    · cases h
  · cases h

-- The two lists of a program are read item by item.
private theorem list?_instructions (p : Program) (hp : p.Fits64) :
    ∃ slots, Serial.list? Serial.instruction? {} {}
        (Json.array p.instructionsJson).repaired = some slots ∧
      slots.toList = Serial.drafts p := by
  rw [Json.repaired, Json.repairedItems_eq, instructionsJson, List.map_map]
  apply Serial.list?_map
  intro e he
  have hmem := mem_of_mem_numbered he
  exact Serial.instruction?_instructionJson e.2 _ (hp.counts _ hmem) (hp.targets _ hmem)
    fun a ha ↦ hp.addresses a (mem_addresses_of_target? ha)

private theorem list?_addresses (p : Program) (hp : p.Fits64) :
    ∃ slots, Serial.list? Serial.number? 0 {}
        (Json.array (p.addresses.toList.map .int)).repaired = some slots ∧
      slots.toList = p.addresses.toList := by
  have h := Serial.list?_map Serial.number? 0 Json.int (fun a ↦ a) p.addresses.toList
    fun a ha ↦ Serial.int64?_decimal a (hp.addresses a ha)
  rw [List.map_id'] at h
  rw [Json.repaired, Json.repairedItems_eq, List.map_map]
  exact h

/-- A program is read from its JSON as its draft. -/
theorem draft?_toJson (p : Program) (hp : p.Fits64) :
    ∃ d, Serial.draft? p.toJson.repaired = some d ∧ d.id = Utf8.repair p.id ∧
      d.source = Utf8.repair p.source ∧ d.instructions.toList = Serial.drafts p ∧
      d.addresses.toList = p.addresses.toList := by
  obtain ⟨is, his, hdrafts⟩ := list?_instructions p hp
  obtain ⟨as, has, haddresses⟩ := list?_addresses p hp
  have hid (d : Serial.Draft) (s : Bytes) :
      Serial.field? d ("id", .string s) = some { d with id := s } := rfl
  have hsource (d : Serial.Draft) (s : Bytes) :
      Serial.field? d ("source", .string s) = some { d with source := s } := rfl
  have hinstructions (d : Serial.Draft) (v : Json) : Serial.field? d ("instructions", v) =
      (Serial.list? Serial.instruction? {} d.instructions v).map
        fun x ↦ { d with instructions := x } := rfl
  have haddress (d : Serial.Draft) (v : Json) : Serial.field? d ("addresses", v) =
      (Serial.list? Serial.number? 0 d.addresses v).map fun x ↦ { d with addresses := x } := rfl
  refine ⟨⟨Utf8.repair p.id, Utf8.repair p.source, is, as⟩, ?_, rfl, rfl, hdrafts, haddresses⟩
  rw [toJson, sourceField, codeFields, Json.repaired, Json.repairedFields_eq, Serial.draft?]
  split
  · next h =>
    have hempty : Utf8.repair p.source = [] := by
      rw [List.isEmpty_iff.mp h]
      rfl
    simp only [List.nil_append, List.map_cons, List.map_nil, Utf8.repair_ofString,
      Json.repaired_string, List.foldlM_cons, List.foldlM_nil, hid, hinstructions, haddress, his,
      has, hempty, Option.bind_eq_bind, Option.bind_some, Option.map_some]
    rfl
  · simp only [List.cons_append, List.nil_append, List.map_cons, List.map_nil,
      Utf8.repair_ofString, Json.repaired_string, List.foldlM_cons, List.foldlM_nil, hid, hsource,
      hinstructions, haddress, his, has, Option.bind_eq_bind, Option.bind_some, Option.map_some]
    rfl

end Program

/-! ### From drafts to programs -/

namespace Serial

/-- The draft of an instruction with an operation gives the instruction as it is kept. -/
theorem finish_draftOf {i : Instruction} (h : i.operation?.isSome = true) (index : Nat)
    (address : Option Int) : finish index (draftOf i address) = .ok i.kept := by
  obtain ⟨o, ho⟩ := Option.isSome_iff_exists.mp h
  unfold draftOf Instruction.kept
  rw [ho]
  cases o <;> rw [finish, Operation.ofName?_name]

/-- The draft of an instruction without an operation is refused. -/
theorem finish_draftOf_none {i : Instruction} (h : i.operation? = none) (index : Nat)
    (address : Option Int) :
    finish index (draftOf i address) = .error (.unknownOpcode index "INVALID") := by
  have hname : opcodeName i.opcode = "INVALID" := by
    rw [opcodeName, show Operation.ofCode? i.opcode = none from h]
    rfl
  unfold draftOf
  rw [h, hname]
  rfl

/-- Drafts give the instructions as they are kept if each has an operation. -/
theorem finishAll_drafts (address : Nat → Option Int) (start index : Nat) (is : List Instruction)
    (h : ∀ i ∈ is, i.operation?.isSome = true) :
    finishAll index ((Program.numbered start is).map fun e ↦ draftOf e.2 (address e.1)) =
      .ok (is.map Instruction.kept) := by
  induction is generalizing start index with
  | nil => rfl
  | cons i rest ih =>
    rw [Program.numbered, List.map_cons, finishAll, finish_draftOf (h i List.mem_cons_self),
      ih (start + 1) (index + 1) fun j hj ↦ h j (List.mem_cons_of_mem i hj)]
    rfl

/-- Drafts are refused if an instruction has no operation. -/
theorem finishAll_drafts_error (address : Nat → Option Int) (start index : Nat)
    (is : List Instruction) (h : ∃ i ∈ is, i.operation? = none) :
    ∃ e, finishAll index ((Program.numbered start is).map fun e ↦ draftOf e.2 (address e.1)) =
      .error e := by
  induction is generalizing start index with
  | nil => simp at h
  | cons i rest ih =>
    rw [Program.numbered, List.map_cons, finishAll]
    cases hi : i.operation? with
    | none =>
      rw [finish_draftOf_none hi]
      exact ⟨_, rfl⟩
    | some o =>
      have hrest : ∃ j ∈ rest, j.operation? = none := by
        obtain ⟨j, hj, hnone⟩ := h
        rcases List.mem_cons.mp hj with rfl | hj
        · rw [hi] at hnone
          cases hnone
        · exact ⟨j, hj, hnone⟩
      obtain ⟨e, he⟩ := ih (start + 1) (index + 1) hrest
      rw [finish_draftOf (by rw [hi]; rfl), he]
      exact ⟨e, rfl⟩

end Serial

namespace Program

private theorem whole_instructionJson (i : Instruction) (address : Option Int) (depth : Nat) :
    Whole (depth + 1) (instructionJson i address) := by
  apply Whole.object
  refine List.forall_mem_cons.mpr ⟨Whole.string _ _, ?_⟩
  cases i.operation? with
  | none => simp
  | some o =>
    cases o with
    | matchPattern => exact List.forall_mem_singleton.mpr (Whole.string _ _)
    | packSequence => exact List.forall_mem_singleton.mpr (Whole.int _ _)
    | branchOnSuccess =>
      refine List.forall_mem_cons.mpr ⟨Whole.int _ _, ?_⟩
      cases address with
      | none => simp
      | some a => exact List.forall_mem_singleton.mpr (Whole.int _ _)

private theorem whole_codeFields (p : Program) (depth : Nat) :
    ∀ f ∈ p.codeFields, Whole (depth + 2) f.2 := by
  refine List.forall_mem_cons.mpr ⟨?_, List.forall_mem_singleton.mpr ?_⟩
  · apply Whole.array
    intro v hv
    obtain ⟨e, -, rfl⟩ := List.mem_map.mp hv
    exact whole_instructionJson e.2 _ depth
  · apply Whole.array
    intro v hv
    obtain ⟨a, -, rfl⟩ := List.mem_map.mp hv
    exact Whole.int _ a

/-- The JSON of a program has whole numbers only, and nests three deep. -/
theorem whole_toJson (p : Program) (depth : Nat) : Whole (depth + 3) p.toJson := by
  apply Whole.object
  refine List.forall_mem_cons.mpr ⟨Whole.string _ _, List.forall_mem_append.mpr ⟨?_, ?_⟩⟩
  · unfold sourceField
    split
    · simp
    · exact List.forall_mem_singleton.mpr (Whole.string _ _)
  · exact whole_codeFields p depth

/-- What is read from a text that spells the JSON of a program. -/
theorem unmarshal_of_spells {p : Program} (hp : p.Fits64) (hid : p.id ≠ []) (fresh : Bytes)
    {text : Bytes} (h : Spells Json.maxNesting text p.toJson.repaired) :
    (p.isConsistent = true → unmarshal fresh text = .ok p.kept) ∧
      (p.isConsistent = false → ∃ e, unmarshal fresh text = .error e) := by
  obtain ⟨d, hd, hdid, hdsource, hdis, hdas⟩ := draft?_toJson p hp
  have hfresh : (Utf8.repair p.id).isEmpty = false := by
    rw [List.isEmpty_eq_false_iff]
    exact fun he ↦ hid ((Utf8.repair_eq_nil_iff _).mp he)
  unfold unmarshal
  rw [h.parse?_eq]
  simp only [hd, hdis]
  by_cases hops : ∀ i ∈ p.instructions.toList, i.operation?.isSome = true
  · have hfinish : Serial.finishAll 0 (Serial.drafts p) =
        .ok (p.instructions.toList.map Instruction.kept) :=
      Serial.finishAll_drafts (fun k ↦ p.target? k) 0 0 _ hops
    have hmake : make fresh d.id d.source (p.instructions.toList.map Instruction.kept).toArray
        d.addresses.toList.toArray = p.kept := by
      rw [make, kept, hdid, hdsource, hdas, hfresh]
      rfl
    simp only [hfinish, hmake, isConsistent_kept]
    constructor
    · intro hc
      rw [if_pos hc]
    · intro hc
      rw [hc]
      exact ⟨_, rfl⟩
  · have hnone : ∃ i ∈ p.instructions.toList, i.operation? = none := by
      simpa using hops
    obtain ⟨e, he⟩ : ∃ e, Serial.finishAll 0 (Serial.drafts p) = .error e :=
      Serial.finishAll_drafts_error (fun k ↦ p.target? k) 0 0 _ hnone
    rw [he]
    refine ⟨fun hc ↦ absurd (fun i hi ↦ ?_) hops, fun _ ↦ ⟨e, rfl⟩⟩
    exact Instruction.operation?_isSome_of_sound (((isConsistent_iff p).mp hc).2 i hi)

theorem ofRandom_ne_nil (random : Bytes) : Identifier.ofRandom random ≠ [] := by
  simp [Identifier.ofRandom, Bytes.join]

/-- Of every program with numbers of 64 bits, whatever its texts and its instructions are and
whatever identifier it has got if it was given none, the text is accepted exactly if the program is
consistent, and gives the program as it is kept; that is the program itself if its texts are
well-formed and its instructions made. Indentation changes nothing about what is read. -/
theorem unmarshal_marshal (new id source : Bytes) (hnew : new ≠ [])
    (instructions : Array Instruction) (addresses : Array Int)
    (hfits : (make new id source instructions addresses).Fits64) (fresh : Bytes) :
    let p := make new id source instructions addresses
    ((∃ q, unmarshal fresh p.marshal = .ok q) ↔ p.isConsistent = true) ∧
      (p.isConsistent = true → unmarshal fresh p.marshal = .ok p.kept) ∧
      (p.isConsistent = true → Utf8.isValid p.id = true → Utf8.isValid p.source = true →
        (∀ i ∈ p.instructions.toList, i.Made) → unmarshal fresh p.marshal = .ok p) ∧
      unmarshal fresh p.marshalIndented = unmarshal fresh p.marshal := by
  intro p
  have hid : p.id ≠ [] := by
    change (if id.isEmpty then new else id) ≠ []
    split
    · exact hnew
    · next h => exact fun he ↦ h (List.isEmpty_iff.mpr he)
  have hwhole : Whole Json.maxNesting p.toJson := whole_toJson p (Json.maxNesting - 3)
  have hmarshal := hwhole.spells_compact
  have hindented := hwhole.spells_indented 0
  obtain ⟨hok, herror⟩ := unmarshal_of_spells hfits hid fresh hmarshal
  refine ⟨⟨?_, fun hc ↦ ⟨p.kept, hok hc⟩⟩, hok, ?_, ?_⟩
  · rintro ⟨q, hq⟩
    rw [← Bool.not_eq_false]
    intro hc
    obtain ⟨e, he⟩ := herror hc
    cases hq.symm.trans he
  · intro hc hid hsource his
    exact (hok hc).trans (congrArg Except.ok (kept_eq_self hid hsource his))
  · unfold unmarshal
    rw [marshal, marshalIndented, hmarshal.parse?_eq, hindented.parse?_eq]

/-- A program with stray bytes, markup and a line end in its texts, operands that do not belong to
their instructions, and a branch to the end. -/
theorem unmarshal_marshal_stray :
    let p := make (Identifier.ofRandom []) [0x61, 0xFF] []
      #[{ opcode := 1, pattern := [0x3C, 0x0A, 0xC3, 0xA9, 0x80], count := 7 },
        { opcode := 20, target := 0, pattern := [0x62] }, { opcode := 10, count := 2, target := 5 }]
      #[3]
    p.isConsistent = true ∧ unmarshal [] p.marshal = .ok
      { id := [0x61, 0xEF, 0xBF, 0xBD]
        instructions := #[.matching [0x3C, 0x0A, 0xC3, 0xA9, 0xEF, 0xBF, 0xBD], .branching 0,
          .packing 2]
        addresses := #[3] } := by
  intro p
  have hnew : Identifier.ofRandom [] ≠ [] := ofRandom_ne_nil []
  have hfits : p.Fits64 := ⟨by decide, by decide, by decide⟩
  have hconsistent : p.isConsistent = true := by decide
  have hkept : p.kept =
      { id := [0x61, 0xEF, 0xBF, 0xBD]
        instructions := #[.matching [0x3C, 0x0A, 0xC3, 0xA9, 0xEF, 0xBF, 0xBD], .branching 0,
          .packing 2]
        addresses := #[3] } := rfl
  rw [← hkept]
  exact ⟨hconsistent, (unmarshal_marshal _ _ _ hnew _ _ hfits []).2.1 hconsistent⟩

end Program

end GrammarCode
