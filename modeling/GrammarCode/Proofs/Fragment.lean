import GrammarCode.Proofs.Consistency
import GrammarCode.Proofs.Places

/-!
# Code by composition

The code of a tree is put together from the codes of its parts. Code that stands alone counts its
table entries and its addresses from zero; to stand behind other code it is relocated, by the
number of entries and of instructions before it. `Atom.code` says so part by part, with no buffer
and nothing to resolve later.
-/

namespace GrammarCode

/-- An instruction behind `refs` further table entries: a branch names the entry it named before,
and all else is kept. -/
def Instruction.relocate (refs : Nat) (i : Instruction) : Instruction :=
  if i.operation? = some .branchOnSuccess then { i with target := i.target + refs } else i

/-- Instructions with the address table that their branches refer to. -/
structure Fragment where
  instructions : List Instruction
  addresses : List Int
  deriving DecidableEq, Repr

/-- Code behind `refs` table entries and `start` instructions. -/
def Fragment.relocate (refs start : Nat) (f : Fragment) : Fragment where
  instructions := f.instructions.map (Instruction.relocate refs)
  addresses := f.addresses.map (· + (start : Int))

/-- Code `g` occupies the entries from `refs` on and the instructions from `start` on of `f`. -/
def Fragment.StandsAt (g : Fragment) (refs start : Nat) (f : Fragment) : Prop :=
  (∃ before after, f.instructions = before ++ g.instructions ++ after ∧ before.length = start) ∧
    ∃ before after, f.addresses = before ++ g.addresses ++ after ∧ before.length = refs

/-- Code whose table entries lie in it and whose instructions all make sense. -/
def Fragment.Sound (f : Fragment) : Prop :=
  (∀ address ∈ f.addresses, 0 ≤ address ∧ address ≤ f.instructions.length) ∧
    ∀ i ∈ f.instructions, i.Sound f.addresses.length

namespace Atom

mutual

/-- The code of an atom, standing alone. -/
def code : Atom → Fragment
  | .literal pattern => ⟨[.matching pattern], []⟩
  | .sequence parts =>
    let body := codeAll [] 0 0 parts
    ⟨body.instructions ++ [.packing parts.length], body.addresses⟩
  | .choice parts =>
    -- The own entry comes first, so the parts stand behind one entry.
    let body := codeAll [.branching 0] 1 0 parts
    ⟨body.instructions, body.instructions.length :: body.addresses⟩
  | .nothing => ⟨[], []⟩
  | .hollow _ => ⟨[], []⟩
  | .foreign _ _ => ⟨[], []⟩

/-- The codes of parts in order, each followed by a trailer, behind `refs` table entries and
`start` instructions. -/
def codeAll (trailer : List Instruction) (refs start : Nat) : List Atom → Fragment
  | [] => ⟨[], []⟩
  | a :: rest =>
    let part := a.code.relocate refs start
    let more := codeAll trailer (refs + part.addresses.length)
      (start + part.instructions.length + trailer.length) rest
    ⟨part.instructions ++ trailer ++ more.instructions, part.addresses ++ more.addresses⟩

end

/-- Whether an atom is a choice, which owns an entry of the address table. -/
def isChoice : Atom → Bool
  | .choice _ => true
  | _ => false

end Atom

/-! ### Relocation -/

namespace Instruction

@[simp] theorem relocate_matching (refs : Nat) (pattern : Bytes) :
    (matching pattern).relocate refs = matching pattern := by
  simp [relocate]

@[simp] theorem relocate_packing (refs : Nat) (count : Int) :
    (packing count).relocate refs = packing count := by
  simp [relocate]

@[simp] theorem relocate_branching (refs : Nat) (target : Int) :
    (branching target).relocate refs = branching (target + refs) := by
  rw [relocate, ite_cond_eq_true _ _ (by simp)]
  rfl

/-- Relocation keeps the operation. -/
@[simp] theorem operation?_relocate (refs : Nat) (i : Instruction) :
    (i.relocate refs).operation? = i.operation? := by
  unfold relocate
  split <;> rfl

/-- Relocations add up. -/
theorem relocate_relocate (r s : Nat) (i : Instruction) :
    (i.relocate r).relocate s = i.relocate (r + s) := by
  by_cases h : i.operation? = some .branchOnSuccess
  · have hr : (i.relocate r).operation? = some .branchOnSuccess := by
      rw [operation?_relocate, h]
    rw [relocate, if_pos hr, relocate, if_pos h, relocate, if_pos h]
    simp [Int.add_assoc]
  · have hr : (i.relocate r).operation? ≠ some .branchOnSuccess := by
      rw [operation?_relocate]
      exact h
    rw [relocate, if_neg hr, relocate, if_neg h, relocate, if_neg h]

/-- A sound instruction stays sound behind further entries, and more of them. -/
theorem Sound.relocate {entries total : Nat} {i : Instruction} (h : i.Sound entries) (refs : Nat)
    (ht : refs + entries ≤ total) : (i.relocate refs).Sound total := by
  unfold Sound at h ⊢
  rw [operation?_relocate]
  cases ho : i.operation? with
  | none => simp [ho] at h
  | some o =>
    cases o with
    | matchPattern => trivial
    | packSequence =>
      have hr : i.relocate refs = i := if_neg (by simp [ho])
      rw [hr]
      simpa only [ho] using h
    | branchOnSuccess =>
      have hr : i.relocate refs = { i with target := i.target + refs } := if_pos ho
      simp only [ho] at h
      rw [hr]
      dsimp only
      omega

end Instruction

namespace Fragment

@[simp] theorem length_instructions_relocate (refs start : Nat) (f : Fragment) :
    (f.relocate refs start).instructions.length = f.instructions.length := by
  simp [relocate]

@[simp] theorem length_addresses_relocate (refs start : Nat) (f : Fragment) :
    (f.relocate refs start).addresses.length = f.addresses.length := by
  simp [relocate]

/-- Code that stands first is not changed by its relocation. -/
@[simp] theorem relocate_zero (f : Fragment) : f.relocate 0 0 = f := by
  have hi : Instruction.relocate 0 = id := by
    funext i
    unfold Instruction.relocate
    split <;> simp
  simp [relocate, hi]

/-- Relocations of code add up. -/
theorem relocate_relocate (r s r' s' : Nat) (f : Fragment) :
    (f.relocate r s).relocate r' s' = f.relocate (r + r') (s + s') := by
  simp [relocate, Function.comp_def, Instruction.relocate_relocate, Int.add_assoc]

end Fragment

/-! ### Where the code of a part stands -/

namespace Fragment

namespace StandsAt

/-- All code stands at its own beginning. -/
theorem refl (f : Fragment) : f.StandsAt 0 0 f :=
  ⟨⟨[], [], by simp⟩, ⟨[], [], by simp⟩⟩

/-- What stands in code that stands in other code stands there as well. -/
theorem trans {f g h : Fragment} {r s r' s' : Nat} (hgh : g.StandsAt r' s' h)
    (hfg : f.StandsAt r s g) : f.StandsAt (r' + r) (s' + s) h := by
  obtain ⟨⟨bi, ai, hi, hbi⟩, ⟨ba, aa, ha, hba⟩⟩ := hfg
  obtain ⟨⟨bi', ai', hi', hbi'⟩, ⟨ba', aa', ha', hba'⟩⟩ := hgh
  refine ⟨⟨bi' ++ bi, ai ++ ai', ?_, ?_⟩, ⟨ba' ++ ba, aa ++ aa', ?_, ?_⟩⟩
  · simp [hi', hi]
  · simp [hbi, hbi']
  · simp [ha', ha]
  · simp [hba, hba']

/-- Relocating code relocates what stands in it. -/
theorem relocate {f g : Fragment} {r s : Nat} (h : f.StandsAt r s g) (r' s' : Nat) :
    (f.relocate r' s').StandsAt r s (g.relocate r' s') := by
  obtain ⟨⟨bi, ai, hi, hbi⟩, ⟨ba, aa, ha, hba⟩⟩ := h
  refine ⟨⟨bi.map (Instruction.relocate r'), ai.map (Instruction.relocate r'), ?_, ?_⟩,
    ⟨ba.map (· + (s' : Int)), aa.map (· + (s' : Int)), ?_, ?_⟩⟩
  · simp [Fragment.relocate, hi]
  · simp [hbi]
  · simp [Fragment.relocate, ha]
  · simp [hba]

end StandsAt

end Fragment

namespace Atom

/-- Relocating the codes of parts moves each of them and their trailers. -/
theorem relocate_codeAll (trailer : List Instruction) (refs start r s : Nat)
    (parts : List Atom) :
    (codeAll trailer refs start parts).relocate r s =
      codeAll (trailer.map (Instruction.relocate r)) (refs + r) (start + s) parts := by
  induction parts generalizing refs start with
  | nil => rfl
  | cons a rest ih =>
    have hpart := Fragment.relocate_relocate refs start r s a.code
    have hmore := ih (refs + a.code.addresses.length)
      (start + a.code.instructions.length + trailer.length)
    rw [show refs + a.code.addresses.length + r = refs + r + a.code.addresses.length by omega,
      show start + a.code.instructions.length + trailer.length + s =
        start + s + a.code.instructions.length + trailer.length by omega] at hmore
    simp only [codeAll, Fragment.length_instructions_relocate,
      Fragment.length_addresses_relocate, List.length_map]
    rw [← hpart, ← hmore]
    simp [Fragment.relocate]

/-- The code of a choice behind other code: its parts stand behind its own entry, and their
branches name that entry. -/
theorem relocate_code_choice (refs start : Nat) (parts : List Atom) :
    (code (.choice parts)).relocate refs start =
      let body := codeAll [.branching refs] (refs + 1) start parts
      ⟨body.instructions, ((start + body.instructions.length : Nat) : Int) :: body.addresses⟩ := by
  have hbody := relocate_codeAll [.branching 0] 1 0 refs start parts
  rw [List.map_singleton, Instruction.relocate_branching, Nat.zero_add, Nat.add_comm 1 refs,
    Int.zero_add] at hbody
  have hlength := congrArg (fun f ↦ f.instructions.length) hbody
  rw [Fragment.length_instructions_relocate] at hlength
  rw [← hbody, code]
  simp only [Fragment.relocate, List.map_cons, List.length_map, Fragment.mk.injEq, true_and,
    List.cons.injEq, and_true]
  omega

/-- The code of a sequence behind other code: its parts stand where it stands. -/
theorem relocate_code_sequence (refs start : Nat) (parts : List Atom) :
    (code (.sequence parts)).relocate refs start =
      let body := codeAll [] refs start parts
      ⟨body.instructions ++ [.packing parts.length], body.addresses⟩ := by
  have hbody := relocate_codeAll [] 0 0 refs start parts
  rw [List.map_nil, Nat.zero_add, Nat.zero_add] at hbody
  rw [← hbody, code]
  simp [Fragment.relocate]

/-- How many of the places are choices. -/
def choices (places : List (Path × Atom)) : Nat := places.countP fun x ↦ x.2.isChoice

private theorem choices_append (xs ys : List (Path × Atom)) :
    choices (xs ++ ys) = choices xs + choices ys := List.countP_append

private theorem choices_cons (path : Path) (a : Atom) (xs : List (Path × Atom)) :
    choices ((path, a) :: xs) = (if a.isChoice then 1 else 0) + choices xs := by
  rw [choices, List.countP_cons, Nat.add_comm]
  rfl

private theorem length_addresses_codeAll (trailer : List Instruction) (refs start : Nat)
    (kind : Kind) (path : Path) (index : Nat) (parts : List Atom)
    (ih : ∀ a ∈ parts, ∀ path, a.code.addresses.length = choices (a.places path)) :
    (codeAll trailer refs start parts).addresses.length =
      choices (placesAll kind path index parts) := by
  induction parts generalizing refs start index with
  | nil => rfl
  | cons a rest ihr =>
    rw [List.forall_mem_cons] at ih
    simp only [codeAll, placesAll, List.length_append, choices_append,
      Fragment.length_addresses_relocate]
    rw [ih.1, ihr _ _ _ ih.2]

/-- The address table of a tree has one entry for each of its choices. -/
theorem length_addresses_code (path : Path) (a : Atom) :
    a.code.addresses.length = choices (a.places path) := by
  induction a generalizing path with
  | literal _ => rfl
  | nothing => rfl
  | hollow _ => rfl
  | foreign _ _ => rfl
  | sequence parts ih =>
    rw [code, places, choices_cons, length_addresses_codeAll _ _ _ .seq path 0 parts ih]
    simp [isChoice]
  | choice parts ih =>
    rw [code, places, choices_cons, List.length_cons,
      length_addresses_codeAll _ _ _ .alt path 0 parts ih]
    simp [isChoice, Nat.add_comm]

/-- The code of the first part stands first among the codes of parts. -/
theorem head_standsAt (trailer : List Instruction) (refs start : Nat) (a : Atom)
    (rest : List Atom) :
    (a.code.relocate refs start).StandsAt 0 0 (codeAll trailer refs start (a :: rest)) := by
  let more := codeAll trailer (refs + a.code.addresses.length)
    (start + a.code.instructions.length + trailer.length) rest
  exact ⟨⟨[], trailer ++ more.instructions, by simp [codeAll, more], rfl⟩,
    ⟨[], more.addresses, by simp [codeAll, more], rfl⟩⟩

/-- The codes of the other parts stand behind the first part and its trailer. -/
theorem tail_standsAt (trailer : List Instruction) (refs start : Nat) (a : Atom)
    (rest : List Atom) :
    (codeAll trailer (refs + a.code.addresses.length)
        (start + (a.code.instructions.length + trailer.length)) rest).StandsAt
      a.code.addresses.length (a.code.instructions.length + trailer.length)
      (codeAll trailer refs start (a :: rest)) := by
  refine ⟨⟨(a.code.relocate refs start).instructions ++ trailer, [], ?_, by simp⟩,
    ⟨(a.code.relocate refs start).addresses, [], ?_, by simp⟩⟩
  · rw [codeAll]
    simp [Nat.add_assoc]
  · rw [codeAll]
    simp [Nat.add_assoc]

/-- The parts of a sequence stand where it begins. -/
theorem sequenceParts_standsAt (parts : List Atom) :
    (codeAll [] 0 0 parts).StandsAt 0 0 (code (.sequence parts)) :=
  ⟨⟨[], [.packing parts.length], by simp [code]⟩, ⟨[], [], by simp [code]⟩⟩

/-- The parts of a choice stand where it begins, behind its own entry. -/
theorem choiceParts_standsAt (parts : List Atom) :
    (codeAll [.branching 0] 1 0 parts).StandsAt 1 0 (code (.choice parts)) :=
  ⟨⟨[], [], by simp [code]⟩,
    ⟨[((codeAll [.branching 0] 1 0 parts).instructions.length : Int)], [], by simp [code]⟩⟩

-- An element of two joined lists lies in the first or in the second.
private theorem join_eq_split {α : Type} {xs ys before after : List α} {x : α}
    (h : xs ++ ys = before ++ x :: after) :
    (∃ mid, xs = before ++ x :: mid) ∨ ∃ mid, before = xs ++ mid ∧ ys = mid ++ x :: after := by
  rcases List.append_eq_append_iff.mp h with ⟨mid, hb, hy⟩ | ⟨mid, hx, hy⟩
  · exact Or.inr ⟨mid, hb, hy⟩
  · cases mid with
    | nil => exact Or.inr ⟨[], by simpa using hx.symm, by simpa using hy.symm⟩
    | cons y mid =>
      obtain ⟨rfl, -⟩ := List.cons.inj hy
      exact Or.inl ⟨mid, hx⟩

private theorem codeAll_standsAt (trailer : List Instruction) (refs start : Nat) (kind : Kind)
    (path : Path) (index : Nat) (parts : List Atom) {before after : List (Path × Atom)}
    {place : Path} {b : Atom}
    (ih : ∀ a ∈ parts, ∀ path before place b after, a.places path = before ++ (place, b) :: after →
      ∃ s, (b.code.relocate (choices before) s).StandsAt (choices before) s a.code)
    (h : placesAll kind path index parts = before ++ (place, b) :: after) :
    ∃ s, (b.code.relocate (refs + choices before) (start + s)).StandsAt (choices before) s
      (codeAll trailer refs start parts) := by
  induction parts generalizing refs start index before with
  | nil =>
    rw [placesAll] at h
    simp at h
  | cons a rest ihr =>
    rw [List.forall_mem_cons] at ih
    rcases join_eq_split h with ⟨mid, hb⟩ | ⟨mid, rfl, hb⟩
    · obtain ⟨s, hs⟩ := ih.1 _ _ _ _ _ hb
      refine ⟨s, ?_⟩
      have hrel := hs.relocate refs start
      rw [Fragment.relocate_relocate, Nat.add_comm _ refs, Nat.add_comm s start] at hrel
      simpa using (head_standsAt trailer refs start a rest).trans hrel
    · obtain ⟨s, hs⟩ := ihr (refs + a.code.addresses.length)
        (start + (a.code.instructions.length + trailer.length)) (index + 1) ih.2 hb
      refine ⟨a.code.instructions.length + trailer.length + s, ?_⟩
      have hall := (tail_standsAt trailer refs start a rest).trans hs
      rw [choices_append, ← length_addresses_code]
      rw [Nat.add_assoc, Nat.add_assoc] at hall
      exact hall

-- The root comes before all other places; its code stands at the beginning.
private theorem root_or_part {a b : Atom} {path place : Path}
    {parts before after : List (Path × Atom)}
    (h : (path, a) :: parts = before ++ (place, b) :: after) :
    (before = [] ∧ b = a) ∨ ∃ more, before = (path, a) :: more ∧
      parts = more ++ (place, b) :: after := by
  cases before with
  | nil =>
    obtain ⟨hx, -⟩ := List.cons.inj h
    exact Or.inl ⟨rfl, (Prod.mk.inj hx).2.symm⟩
  | cons x more =>
    obtain ⟨rfl, hp⟩ := List.cons.inj h
    exact Or.inr ⟨more, rfl, hp⟩

private theorem root_standsAt (a : Atom) :
    ∃ start, (a.code.relocate (choices []) start).StandsAt (choices []) start a.code :=
  ⟨0, by simpa [choices] using Fragment.StandsAt.refl a.code⟩

private theorem leaf_standsAt {a b : Atom} {path place : Path} {before after : List (Path × Atom)}
    (h : [(path, a)] = before ++ (place, b) :: after) :
    ∃ start, (b.code.relocate (choices before) start).StandsAt (choices before) start a.code := by
  rcases root_or_part h with ⟨rfl, rfl⟩ | ⟨more, -, hp⟩
  · exact root_standsAt b
  · simp at hp

/-- The code of a tree holds the code of each of its atoms, relocated by the number of choices
before the atom in preorder and by the instructions before it, and changed in no other way. -/
theorem code_standsAt (path : Path) (a : Atom) {before after : List (Path × Atom)} {place : Path}
    {b : Atom} (h : a.places path = before ++ (place, b) :: after) :
    ∃ start, (b.code.relocate (choices before) start).StandsAt (choices before) start a.code := by
  induction a generalizing path before place b after with
  | literal _ => exact leaf_standsAt h
  | nothing => exact leaf_standsAt h
  | hollow _ => exact leaf_standsAt h
  | foreign _ _ => exact leaf_standsAt h
  | sequence parts ih =>
    rw [places] at h
    rcases root_or_part h with ⟨rfl, rfl⟩ | ⟨more, rfl, hp⟩
    · exact root_standsAt _
    · obtain ⟨s, hs⟩ := codeAll_standsAt [] 0 0 .seq path 0 parts
        (fun c hc p _ _ _ _ hq ↦ ih c hc p hq) hp
      refine ⟨s, ?_⟩
      rw [choices_cons]
      simpa [isChoice] using (sequenceParts_standsAt parts).trans hs
  | choice parts ih =>
    rw [places] at h
    rcases root_or_part h with ⟨rfl, rfl⟩ | ⟨more, rfl, hp⟩
    · exact root_standsAt _
    · obtain ⟨s, hs⟩ := codeAll_standsAt [.branching 0] 1 0 .alt path 0 parts
        (fun c hc p _ _ _ _ hq ↦ ih c hc p hq) hp
      refine ⟨s, ?_⟩
      rw [choices_cons]
      simpa [isChoice] using (choiceParts_standsAt parts).trans hs

/-! ### Code makes sense -/

private theorem codeAll_sound (trailer : List Instruction) (refs start total : Nat)
    (parts : List Atom) (ih : ∀ a ∈ parts, a.code.Sound) (ht : ∀ i ∈ trailer, i.Sound total)
    (hle : refs + (codeAll trailer refs start parts).addresses.length ≤ total) :
    (∀ address ∈ (codeAll trailer refs start parts).addresses,
        0 ≤ address ∧ address ≤ start + (codeAll trailer refs start parts).instructions.length) ∧
      ∀ i ∈ (codeAll trailer refs start parts).instructions, i.Sound total := by
  induction parts generalizing refs start with
  | nil => simp [codeAll]
  | cons a rest ihr =>
    rw [List.forall_mem_cons] at ih
    have hlen := hle
    simp only [codeAll, List.length_append, Fragment.length_addresses_relocate,
      Fragment.length_instructions_relocate] at hlen
    obtain ⟨hra, hri⟩ := ihr (refs + a.code.addresses.length)
      (start + a.code.instructions.length + trailer.length) ih.2 (by omega)
    simp only [codeAll, Fragment.length_addresses_relocate, Fragment.length_instructions_relocate,
      List.mem_append, List.length_append]
    constructor
    · rintro address (h | h)
      · simp only [Fragment.relocate, List.mem_map] at h
        obtain ⟨x, hx, rfl⟩ := h
        have := ih.1.1 x hx
        omega
      · have := hra address h
        omega
    · rintro i ((h | h) | h)
      · simp only [Fragment.relocate, List.mem_map] at h
        obtain ⟨j, hj, rfl⟩ := h
        exact (ih.1.2 j hj).relocate refs (by omega)
      · exact ht i h
      · exact hri i h

/-- The code of every tree makes sense: its entries lie in it and its branches name entries. -/
theorem code_sound (a : Atom) : a.code.Sound := by
  induction a with
  | literal pattern => simp [code, Fragment.Sound]
  | nothing => simp [code, Fragment.Sound]
  | hollow _ => simp [code, Fragment.Sound]
  | foreign _ _ => simp [code, Fragment.Sound]
  | sequence parts ih =>
    obtain ⟨ha, hi⟩ := codeAll_sound [] 0 0 (codeAll [] 0 0 parts).addresses.length parts ih
      (by simp) (by omega)
    rw [code]
    constructor
    · intro address h
      have := ha address h
      simp only [List.length_append, List.length_singleton]
      omega
    · intro i h
      rcases List.mem_append.mp h with h | h
      · exact hi i h
      · obtain rfl := List.mem_singleton.mp h
        simp
  | choice parts ih =>
    obtain ⟨ha, hi⟩ := codeAll_sound [.branching 0] 1 0
      ((codeAll [.branching 0] 1 0 parts).addresses.length + 1) parts ih
      (by simp) (by omega)
    rw [code]
    constructor
    · intro address h
      dsimp only
      rcases List.mem_cons.mp h with rfl | h
      · omega
      · have := ha address h
        omega
    · exact hi

end Atom

end GrammarCode
