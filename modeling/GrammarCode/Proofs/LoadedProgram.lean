import GrammarCode.Proofs.ProgramText
import GrammarCode.Proofs.Verification

/-!
# Programs from any text

Whatever JSON text is accepted, however its fields are spelled, repeated or left out, the program
that comes of it is one that a text keeps: its strings are well-formed, its numbers have 64 bits and
its instructions are made. What carries this through the reading of fields over earlier ones is that
every reader keeps a property of what it reads over, if the value that it reads is clean.
-/

namespace GrammarCode

/-! ### Strings of a value -/

namespace Json

/-- The strings in a value are well-formed. The names of fields do not count. -/
inductive Clean : Json → Prop where
  | null : Clean .null
  | bool (b : Bool) : Clean (.bool b)
  | number (text : Bytes) : Clean (.number text)
  | string (s : Bytes) (h : Utf8.isValid s = true) : Clean (.string s)
  | array (vs : List Json) (h : ∀ v ∈ vs, Clean v) : Clean (.array vs)
  | object (fs : List (Bytes × Json)) (h : ∀ f ∈ fs, Clean f.2) : Clean (.object fs)

private theorem isValid_of_string? {input s rest : Bytes} (h : string? input = some (s, rest)) :
    Utf8.isValid s = true := by
  obtain ⟨r, -, hr⟩ := Option.map_eq_some_iff.mp h
  obtain ⟨rfl, -⟩ := Prod.mk.inj hr
  exact Utf8.isValid_repair _

private theorem exists_of_map {α : Type} {o : Option α} {f : α → Json × Bytes} {v : Json}
    {rest : Bytes} (h : o.map f = some (v, rest)) : ∃ a, o = some a ∧ v = (f a).1 := by
  obtain ⟨a, ha, hf⟩ := Option.map_eq_some_iff.mp h
  exact ⟨a, ha, by rw [hf]⟩

-- One level of reading, for readers of items and fields that give clean values.
private theorem clean_of_value_succ {fuel : Nat}
    (hitems : ∀ depth input vs rest, items fuel depth input = some (vs, rest) → ∀ v ∈ vs, Clean v)
    (hfields : ∀ depth input fs rest, fields fuel depth input = some (fs, rest) →
      ∀ f ∈ fs, Clean f.2)
    {depth : Nat} {input rest : Bytes} {v : Json}
    (h : value (fuel + 1) depth input = some (v, rest)) : v.Clean := by
  rw [value] at h
  split at h
  · cases h
  · split at h
    · obtain ⟨r, hr, rfl⟩ := exists_of_map h
      exact .string _ (isValid_of_string? hr)
    · split at h
      · split at h
        · cases h
        · split at h
          · cases h
            exact .array [] (by simp)
          · obtain ⟨r, hr, rfl⟩ := exists_of_map h
            exact .array _ (hitems _ _ _ _ hr)
      · split at h
        · split at h
          · cases h
          · split at h
            · cases h
              exact .object [] (by simp)
            · obtain ⟨r, hr, rfl⟩ := exists_of_map h
              exact .object _ (hfields _ _ _ _ hr)
        · -- The words and the numbers have no strings in them.
          split at h
          · obtain ⟨r, -, rfl⟩ := exists_of_map h
            exact .bool true
          · split at h
            · obtain ⟨r, -, rfl⟩ := exists_of_map h
              exact .bool false
            · split at h
              · obtain ⟨r, -, rfl⟩ := exists_of_map h
                exact .null
              · obtain ⟨r, -, rfl⟩ := exists_of_map h
                exact .number _

private theorem clean_of_items_succ {fuel : Nat}
    (hvalue : ∀ depth input v rest, value fuel depth input = some (v, rest) → v.Clean)
    (hitems : ∀ depth input vs rest, items fuel depth input = some (vs, rest) → ∀ v ∈ vs, Clean v)
    {depth : Nat} {input rest : Bytes} {vs : List Json}
    (h : items (fuel + 1) depth input = some (vs, rest)) : ∀ v ∈ vs, v.Clean := by
  rw [items, Option.bind_eq_bind, Option.bind_eq_some_iff] at h
  obtain ⟨⟨v, more⟩, hv, h⟩ := h
  have hfirst := hvalue _ _ v more hv
  dsimp only at h
  split at h
  · cases h
    exact List.forall_mem_singleton.mpr hfirst
  · rw [Option.bind_eq_bind, Option.bind_eq_some_iff] at h
    obtain ⟨⟨vs', after⟩, hvs, h⟩ := h
    cases h
    exact List.forall_mem_cons.mpr ⟨hfirst, hitems _ _ vs' after hvs⟩
  · cases h

private theorem clean_of_fields_succ {fuel : Nat}
    (hvalue : ∀ depth input v rest, value fuel depth input = some (v, rest) → v.Clean)
    (hfields : ∀ depth input fs rest, fields fuel depth input = some (fs, rest) →
      ∀ f ∈ fs, Clean f.2)
    {depth : Nat} {input rest : Bytes} {fs : List (Bytes × Json)}
    (h : fields (fuel + 1) depth input = some (fs, rest)) : ∀ f ∈ fs, f.2.Clean := by
  rw [fields] at h
  split at h
  · rw [Option.bind_eq_bind, Option.bind_eq_some_iff] at h
    obtain ⟨⟨name, more⟩, -, h⟩ := h
    dsimp only at h
    split at h
    · rw [Option.bind_eq_bind, Option.bind_eq_some_iff] at h
      obtain ⟨⟨v, more⟩, hv, h⟩ := h
      have hfirst := hvalue _ _ v more hv
      dsimp only at h
      split at h
      · cases h
        exact List.forall_mem_singleton.mpr hfirst
      · rw [Option.bind_eq_bind, Option.bind_eq_some_iff] at h
        obtain ⟨⟨fs', after⟩, hfs, h⟩ := h
        cases h
        exact List.forall_mem_cons.mpr ⟨hfirst, hfields _ _ fs' after hfs⟩
      · cases h
    · cases h
  · cases h

/-- Whatever is read from a text has only well-formed strings. -/
theorem clean_of_read (fuel : Nat) :
    (∀ depth input v rest, value fuel depth input = some (v, rest) → v.Clean) ∧
      (∀ depth input vs rest, items fuel depth input = some (vs, rest) → ∀ v ∈ vs, v.Clean) ∧
      ∀ depth input fs rest, fields fuel depth input = some (fs, rest) → ∀ f ∈ fs, f.2.Clean := by
  induction fuel with
  | zero =>
    refine ⟨fun _ _ _ _ h ↦ ?_, fun _ _ _ _ h ↦ ?_, fun _ _ _ _ h ↦ ?_⟩
    · rw [value] at h
      cases h
    · rw [items] at h
      cases h
    · rw [fields] at h
      cases h
  | succ fuel ih =>
    obtain ⟨hvalue, hitems, hfields⟩ := ih
    exact ⟨fun _ _ _ _ ↦ clean_of_value_succ hitems hfields,
      fun _ _ _ _ ↦ clean_of_items_succ hvalue hitems,
      fun _ _ _ _ ↦ clean_of_fields_succ hvalue hfields⟩

/-- So has the value of a whole text. -/
theorem clean_of_parse? {text : Bytes} {v : Json} (h : parse? text = some v) : v.Clean := by
  unfold parse? at h
  split at h
  · next hv =>
    split at h
    · cases h
      exact (clean_of_read _).1 _ _ _ _ hv
    · cases h
  · cases h

end Json

/-! ### Reading over earlier values -/

namespace Serial

open Json (Clean)

/-- Reading a clean value over something that has a property gives something that has it. -/
def Keeps {α : Type} (P : α → Prop) (read : α → Json → Option α) : Prop :=
  ∀ old v new, P old → v.Clean → read old v = some new → P new

theorem keeps_text? : Keeps (fun s ↦ Utf8.isValid s = true) text? := by
  intro old v new hold hv h
  cases hv with
  | string s hs =>
    cases h
    exact hs
  | null =>
    cases h
    exact hold
  | bool | number | array | object => cases h

theorem fits64_of_int64? {text : Bytes} {n : Int} (h : int64? text = some n) :
    Integer.Fits64 n := by
  have hhalf : 0 < Integer.half64 := by decide
  unfold int64? at h
  split at h
  · dsimp only at h
    split at h
    · next hn =>
      cases h
      simp only [Bool.and_eq_true, decide_eq_true_eq] at hn
      rw [Integer.Fits64]
      omega
    · cases h
  · dsimp only at h
    split at h
    · next hn =>
      cases h
      simp only [Bool.and_eq_true, decide_eq_true_eq] at hn
      rw [Integer.Fits64]
      omega
    · cases h

theorem keeps_number? : Keeps Integer.Fits64 number? := by
  intro old v new hold hv h
  cases hv with
  | number text => exact fits64_of_int64? h
  | null =>
    cases h
    exact hold
  | bool | string | array | object => cases h

/-- An operand that is there keeps a property that its reader keeps. -/
theorem Keeps.operand? {α : Type} {P : α → Prop} {read : α → Json → Option α}
    (h : Keeps P read) {zero : α} (hzero : P zero) :
    Keeps (fun o ↦ ∀ x ∈ o, P x) (Serial.operand? read zero) := by
  intro old v new hold hv hread
  have hbase : P (old.getD zero) := by
    cases old with
    | none => exact hzero
    | some x => exact hold x rfl
  have hnew (hread : (read (old.getD zero) v).map some = some new) : ∀ x ∈ new, P x := by
    obtain ⟨y, hy, rfl⟩ := Option.map_eq_some_iff.mp hread
    intro x hx
    cases hx
    exact h _ v y hbase hv hy
  cases hv with
  | null =>
    cases hread
    simp
  | bool | number | string | array | object => exact hnew hread

-- Cells beyond those that are read over start from nothing.
private theorem Keeps.cells? {α : Type} {P : α → Prop} {read : α → Json → Option α}
    (h : Keeps P read) {zero : α} (hzero : P zero) {cells new : List α} {vs : List Json}
    (hcells : ∀ x ∈ cells, P x) (hvs : ∀ v ∈ vs, v.Clean)
    (hread : Serial.cells? read zero cells vs = some new) : ∀ x ∈ new, P x := by
  induction vs generalizing cells new with
  | nil =>
    rw [Serial.cells?] at hread
    cases hread
    exact hcells
  | cons v vs ih =>
    obtain ⟨hv, hvs⟩ := List.forall_mem_cons.mp hvs
    have hstep (c : α) (hc : P c) (cs : List α) (hcs : ∀ x ∈ cs, P x)
        (hread : (do
          let c ← read c v
          let rest ← Serial.cells? read zero cs vs
          pure (c :: rest)) = some new) : ∀ x ∈ new, P x := by
      simp only [Option.bind_eq_bind, Option.bind_eq_some_iff] at hread
      obtain ⟨c', hc', rest, hrest, hnew⟩ := hread
      cases hnew
      exact List.forall_mem_cons.mpr ⟨h c v c' hc hv hc', ih hcs hvs hrest⟩
    cases cells with
    | nil =>
      rw [Serial.cells?] at hread
      exact hstep zero hzero [] (by simp) hread
    | cons c cs =>
      rw [Serial.cells?] at hread
      obtain ⟨hc, hcs⟩ := List.forall_mem_cons.mp hcells
      exact hstep c hc cs hcs hread

/-- The cells of a list, in use or not, keep a property that the reader of items keeps. -/
theorem Keeps.list? {α : Type} {P : α → Prop} {read : α → Json → Option α} (h : Keeps P read)
    {zero : α} (hzero : P zero) :
    Keeps (fun slots ↦ ∀ x ∈ slots.cells, P x) (Serial.list? read zero) := by
  intro old v new hold hv hread
  cases hv with
  | null =>
    cases hread
    simp
  | array vs hvs =>
    cases vs with
    | nil =>
      cases hread
      simp
    | cons v vs =>
      obtain ⟨cells, hcells, rfl⟩ := Option.map_eq_some_iff.mp hread
      exact h.cells? hzero hold hvs hcells
  | bool | number | string | object => cases hread

/-- Fields read one after the other keep a property that the reader of one field keeps. -/
theorem keeps_fields {α : Type} {P : α → Prop} {read : α → Bytes × Json → Option α}
    (h : ∀ old f new, P old → f.2.Clean → read old f = some new → P new) {old new : α}
    {fs : List (Bytes × Json)} (hold : P old) (hfs : ∀ f ∈ fs, f.2.Clean)
    (hread : fs.foldlM read old = some new) : P new := by
  induction fs generalizing old with
  | nil =>
    cases hread
    exact hold
  | cons f fs ih =>
    rw [List.foldlM_cons, Option.bind_eq_bind, Option.bind_eq_some_iff] at hread
    obtain ⟨middle, hmiddle, hread⟩ := hread
    obtain ⟨hf, hfs⟩ := List.forall_mem_cons.mp hfs
    exact ih (h old f middle hold hf hmiddle) hfs hread

/-- The operands of an instruction that is being read are such as a text keeps. -/
structure InstructionDraft.Kept (d : InstructionDraft) : Prop where
  pattern : ∀ s ∈ d.pattern, Utf8.isValid s = true
  count : ∀ n ∈ d.count, Integer.Fits64 n
  target : ∀ n ∈ d.target, Integer.Fits64 n

/-- The parts of a program that is being read are such as a text keeps. -/
structure Draft.Kept (d : Draft) : Prop where
  id : Utf8.isValid d.id = true
  source : Utf8.isValid d.source = true
  instructions : ∀ c ∈ d.instructions.cells, c.Kept
  addresses : ∀ n ∈ d.addresses.cells, Integer.Fits64 n

private theorem fits64_zero : Integer.Fits64 0 := by decide

private theorem fits64_noTarget : Integer.Fits64 Instruction.noTarget := by decide

private theorem kept_of_instructionField? {d d' : InstructionDraft} {f : Bytes × Json}
    (hd : d.Kept) (hf : f.2.Clean) (h : instructionField? d f = some d') : d'.Kept := by
  unfold instructionField? at h
  dsimp only at h
  split at h
  · obtain ⟨x, -, rfl⟩ := Option.map_eq_some_iff.mp h
    exact ⟨hd.pattern, hd.count, hd.target⟩
  · split at h
    · obtain ⟨x, hx, rfl⟩ := Option.map_eq_some_iff.mp h
      exact ⟨keeps_text?.operand? rfl _ _ x hd.pattern hf hx, hd.count, hd.target⟩
    · split at h
      · obtain ⟨x, hx, rfl⟩ := Option.map_eq_some_iff.mp h
        exact ⟨hd.pattern, keeps_number?.operand? fits64_zero _ _ x hd.count hf hx, hd.target⟩
      · split at h
        · obtain ⟨x, hx, rfl⟩ := Option.map_eq_some_iff.mp h
          exact ⟨hd.pattern, hd.count, keeps_number?.operand? fits64_zero _ _ x hd.target hf hx⟩
        · split at h
          · obtain ⟨x, -, rfl⟩ := Option.map_eq_some_iff.mp h
            exact ⟨hd.pattern, hd.count, hd.target⟩
          · cases h
            exact hd

theorem keeps_instruction? : Keeps InstructionDraft.Kept instruction? := by
  intro old v new hold hv h
  cases hv with
  | object fs hfs => exact keeps_fields (fun _ _ _ ↦ kept_of_instructionField?) hold hfs h
  | null =>
    cases h
    exact hold
  | bool | number | string | array => cases h

private theorem kept_empty : InstructionDraft.Kept {} := ⟨by simp, by simp, by simp⟩

private theorem kept_of_field? {d d' : Draft} {f : Bytes × Json} (hd : d.Kept) (hf : f.2.Clean)
    (h : field? d f = some d') : d'.Kept := by
  unfold field? at h
  dsimp only at h
  split at h
  · obtain ⟨x, hx, rfl⟩ := Option.map_eq_some_iff.mp h
    exact ⟨keeps_text? _ _ x hd.id hf hx, hd.source, hd.instructions, hd.addresses⟩
  · split at h
    · obtain ⟨x, hx, rfl⟩ := Option.map_eq_some_iff.mp h
      exact ⟨hd.id, keeps_text? _ _ x hd.source hf hx, hd.instructions, hd.addresses⟩
    · split at h
      · obtain ⟨x, hx, rfl⟩ := Option.map_eq_some_iff.mp h
        exact ⟨hd.id, hd.source,
          keeps_instruction?.list? kept_empty _ _ x hd.instructions hf hx, hd.addresses⟩
      · split at h
        · obtain ⟨x, hx, rfl⟩ := Option.map_eq_some_iff.mp h
          exact ⟨hd.id, hd.source, hd.instructions,
            keeps_number?.list? fits64_zero _ _ x hd.addresses hf hx⟩
        · cases h
          exact hd

/-- Whatever draft is read from a clean value has parts such as a text keeps. -/
theorem kept_of_draft? {v : Json} {d : Draft} (hv : v.Clean) (h : draft? v = some d) : d.Kept := by
  have hempty : Draft.Kept {} := ⟨rfl, rfl, by simp, by simp⟩
  cases hv with
  | object fs hfs => exact keeps_fields (fun _ _ _ ↦ kept_of_field?) hempty hfs h
  | null =>
    cases h
    exact hempty
  | bool | number | string | array => cases h

/-! ### From drafts to programs -/

/-- An instruction that is made and has numbers of 64 bits. -/
structure Stands (i : Instruction) : Prop where
  made : i.Made
  count : Integer.Fits64 i.count
  target : Integer.Fits64 i.target

private theorem stands_of_finish {index : Nat} {d : InstructionDraft} {i : Instruction}
    (hd : d.Kept) (h : finish index d = .ok i) : Stands i := by
  unfold finish at h
  split at h
  · cases h
  · split at h
    · next pattern hpattern =>
      cases h
      exact ⟨.matching pattern (hd.pattern _ hpattern), fits64_zero, fits64_noTarget⟩
    · cases h
  · split at h
    · next count hcount =>
      cases h
      exact ⟨.packing count, hd.count _ hcount, fits64_noTarget⟩
    · cases h
  · split at h
    · next target htarget =>
      cases h
      exact ⟨.branching target, fits64_zero, hd.target _ htarget⟩
    · cases h

theorem stands_of_finishAll {index : Nat} {ds : List InstructionDraft} {is : List Instruction}
    (hds : ∀ d ∈ ds, d.Kept) (h : finishAll index ds = .ok is) : ∀ i ∈ is, Stands i := by
  induction ds generalizing index is with
  | nil =>
    cases h
    simp
  | cons d ds ih =>
    obtain ⟨hd, hds⟩ := List.forall_mem_cons.mp hds
    rw [finishAll] at h
    cases hi : finish index d with
    | error e =>
      rw [hi] at h
      cases h
    | ok i =>
      cases hrest : finishAll (index + 1) ds with
      | error e =>
        rw [hi, hrest] at h
        cases h
      | ok rest =>
        rw [hi, hrest] at h
        cases h
        exact List.forall_mem_cons.mpr ⟨stands_of_finish hd hi, ih hds hrest⟩

end Serial

/-! ### Fresh identifiers -/

namespace Bytes

private theorem hexDigit_ascii : ∀ d, d < 16 → (hexDigit d).toNat < 0x80 := by decide

theorem ascii_of_mem_hex {width n : Nat} {b : UInt8} (h : b ∈ hex width n) : b.toNat < 0x80 := by
  induction width generalizing n with
  | zero => cases h
  | succ w ih =>
    rw [hex] at h
    rcases List.mem_append.mp h with h | h
    · exact ih h
    · rw [List.mem_singleton.mp h]
      exact hexDigit_ascii _ (Nat.mod_lt n (by decide))

end Bytes

/-- A fresh identifier is well-formed: it has hexadecimal digits and dashes only. -/
theorem Identifier.isValid_ofRandom (random : Bytes) : Utf8.isValid (ofRandom random) = true := by
  have hdigits : ∀ b ∈ digits (marked random), b.toNat < 0x80 := by
    intro b hb
    obtain ⟨x, -, hx⟩ := List.mem_flatMap.mp hb
    exact Bytes.ascii_of_mem_hex hx
  apply Utf8.isValid_of_ascii
  intro b hb
  rcases Bytes.mem_of_mem_join hb with hdash | ⟨part, hpart, hb⟩
  · rw [List.mem_singleton.mp hdash]
    decide
  · -- Each group consists of some of the digits.
    apply hdigits
    simp only [List.mem_cons, List.not_mem_nil, or_false] at hpart
    obtain rfl | rfl | rfl | rfl | rfl := hpart
    · exact List.mem_of_mem_take hb
    · exact List.mem_of_mem_drop (List.mem_of_mem_take hb)
    · exact List.mem_of_mem_drop (List.mem_of_mem_take hb)
    · exact List.mem_of_mem_drop (List.mem_of_mem_take hb)
    · exact List.mem_of_mem_drop hb

/-! ### The programs that texts give -/

namespace Program

/-- A program that a text gives: it is consistent, it is kept as it is, and it has an
identifier. -/
structure Portable (p : Program) : Prop where
  consistent : p.isConsistent = true
  fits64 : p.Fits64
  id_ne_nil : p.id ≠ []
  id_valid : Utf8.isValid p.id = true
  source_valid : Utf8.isValid p.source = true
  made : ∀ i ∈ p.instructions.toList, i.Made

-- The identifier of a program, given or new, is there and well-formed.
private theorem given_or_new {new id : Bytes} (hnew : new ≠ []) (hvalid : Utf8.isValid new = true)
    (h : Utf8.isValid id = true) :
    (if id.isEmpty then new else id) ≠ [] ∧
      Utf8.isValid (if id.isEmpty then new else id) = true := by
  split
  · exact ⟨hnew, hvalid⟩
  · next hid => exact ⟨fun he ↦ hid (List.isEmpty_iff.mpr he), h⟩

-- What has to go well for a text to give a program.
private theorem stages_of_unmarshal {fresh text : Bytes} {p : Program}
    (h : unmarshal fresh text = .ok p) :
    ∃ v d is, Json.parse? text = some v ∧ Serial.draft? v = some d ∧
      Serial.finishAll 0 d.instructions.toList = .ok is ∧
      p = make fresh d.id d.source is.toArray d.addresses.toList.toArray ∧
      p.isConsistent = true := by
  unfold unmarshal at h
  split at h
  · cases h
  · next v hv =>
    split at h
    · cases h
    · next d hd =>
      split at h
      · cases h
      · next is his =>
        dsimp only at h
        split at h
        · next hconsistent =>
          cases h
          exact ⟨v, d, is, hv, hd, his, rfl, hconsistent⟩
        · cases h

/-- Whatever text is accepted gives a portable program. -/
theorem portable_of_unmarshal {new text : Bytes} {p : Program} (hnew : new ≠ [])
    (hvalid : Utf8.isValid new = true) (h : unmarshal new text = .ok p) : p.Portable := by
  obtain ⟨v, d, is, hv, hd, his, rfl, hconsistent⟩ := stages_of_unmarshal h
  have hkept := Serial.kept_of_draft? (Json.clean_of_parse? hv) hd
  have hstands := Serial.stands_of_finishAll
    (fun c hc ↦ hkept.instructions c (List.mem_of_mem_take hc)) his
  obtain ⟨hid, hidvalid⟩ := given_or_new hnew hvalid hkept.id
  refine ⟨hconsistent, ⟨?_, ?_, ?_⟩, hid, hidvalid, hkept.source, ?_⟩
  · exact fun i hi ↦ (hstands i hi).count
  · exact fun i hi ↦ (hstands i hi).target
  · exact fun a ha ↦ hkept.addresses a (List.mem_of_mem_take ha)
  · exact fun i hi ↦ (hstands i hi).made

/-- A portable program is what its own text gives, whatever identifier is at hand. -/
theorem Portable.unmarshal_eq {p : Program} (h : p.Portable) (fresh : Bytes) :
    unmarshal fresh p.marshal = .ok p := by
  have hspells := (whole_toJson p (Json.maxNesting - 3)).spells_compact
  have hok := (unmarshal_of_spells h.fits64 h.id_ne_nil fresh hspells).1 h.consistent
  exact hok.trans (congrArg Except.ok (kept_eq_self h.id_valid h.source_valid h.made))

/-- The portable programs are just those that texts give. -/
theorem portable_iff_exists_unmarshal (p : Program) :
    p.Portable ↔
      ∃ new text, new ≠ [] ∧ Utf8.isValid new = true ∧ unmarshal new text = .ok p := by
  constructor
  · intro h
    exact ⟨Identifier.ofRandom [], p.marshal, ofRandom_ne_nil _, Identifier.isValid_ofRandom _,
      h.unmarshal_eq _⟩
  · rintro ⟨new, text, hnew, hvalid, h⟩
    exact portable_of_unmarshal hnew hvalid h

/-- Of every text that is accepted, however it spells its fields and whatever identifier without
stray bytes is at hand if it has none, the program is consistent, has a listing and has instructions
of the three constructors only. Its own text gives the same program again, and so the same text. -/
theorem unmarshal_settles (new text : Bytes) (hnew : new ≠ []) (hvalid : Utf8.isValid new = true)
    (p : Program) (h : unmarshal new text = .ok p) :
    p.defects = [] ∧ (∃ lines, p.listing = .ok lines) ∧
      (∀ i ∈ p.instructions.toList, (∃ pattern, i = .matching pattern) ∨
        (∃ count, i = .packing count) ∨ ∃ target, i = .branching target) ∧
      ∀ fresh, unmarshal fresh p.marshal = .ok p ∧
        (unmarshal fresh p.marshal).map marshal = .ok p.marshal := by
  have hp := portable_of_unmarshal hnew hvalid h
  refine ⟨List.isEmpty_iff.mp hp.consistent,
    (exists_listing_iff p).mpr (shows_of_isConsistent hp.consistent), ?_, fun fresh ↦ ?_⟩
  · intro i hi
    cases hp.made i hi with
    | matching pattern => exact .inl ⟨pattern, rfl⟩
    | packing count => exact .inr (.inl ⟨count, rfl⟩)
    | branching target => exact .inr (.inr ⟨target, rfl⟩)
  · have hagain := hp.unmarshal_eq fresh
    exact ⟨hagain, by rw [hagain]; rfl⟩

private theorem eq_ok_of_toOption {ε α : Type} {e : Except ε α} {a : α}
    (h : e.toOption = some a) : e = .ok a := by
  cases e with
  | error e => cases h
  | ok b =>
    cases h
    rfl

/-- A text with an identifier that is `null`, instructions given twice, the second time under a
name with a long s and over the first ones, half of a surrogate pair and a byte that is not UTF-8
in a pattern, and an unknown field. -/
theorem unmarshal_settles_lenient :
    let text : Bytes := Bytes.cat
      ["\x7b\"Id\":null,\"instructions\":[\x7b\"op\":\"MATCH\"\x7d],\"in\\u017ftructions\":",
        "[\x7b\"Pattern\":\"\\ud800", [0xFF], "\"\x7d],\"more\":0\x7d"]
    let p : Program :=
      { id := "00000000-0000-4000-8000-000000000000"
        instructions := #[.matching [0xEF, 0xBF, 0xBD, 0xEF, 0xBF, 0xBD]] }
    unmarshal (Identifier.ofRandom (List.replicate 16 0)) text = .ok p ∧
      unmarshal [] p.marshal = .ok p := by
  intro text p
  have h : unmarshal (Identifier.ofRandom (List.replicate 16 0)) text = .ok p :=
    eq_ok_of_toOption (by decide +kernel)
  have hsettles := unmarshal_settles _ text (ofRandom_ne_nil _) (Identifier.isValid_ofRandom _) p h
  exact ⟨h, (hsettles.2.2.2 []).1⟩

end Program

end GrammarCode
