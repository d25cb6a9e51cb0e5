import GrammarCode.Proofs.Compilation
import Mathlib.Data.List.Basic
import Mathlib.Data.List.Induction

/-!
# Code tells its tree

Code is written from left to right and read back from right to left. The last instruction tells the
variant of the last atom, and the last table entry tells whether an empty choice, which has no
instruction, stands there. So no code ends with two different atoms, and the code of a tree, read
from its end, tells the tree.
-/

namespace GrammarCode

namespace Fragment

/-- Code with further instructions. -/
def emit (f : Fragment) (code : List Instruction) : Fragment :=
  { f with instructions := f.instructions ++ code }

/-- Code with a further table entry. -/
def enter (f : Fragment) (address : Nat) : Fragment :=
  { f with addresses := f.addresses ++ [(address : Int)] }

/-- Code with the code of an atom behind it. -/
def push (f : Fragment) (a : Atom) : Fragment :=
  let part := a.code.relocate f.addresses.length f.instructions.length
  ⟨f.instructions ++ part.instructions, f.addresses ++ part.addresses⟩

/-- Code with the codes of parts behind it, each followed by a trailer. -/
def pushAll (trailer : List Instruction) (f : Fragment) (parts : List Atom) : Fragment :=
  parts.foldl (fun g a ↦ (g.push a).emit trailer) f

@[simp] theorem instructions_emit (f : Fragment) (code : List Instruction) :
    (f.emit code).instructions = f.instructions ++ code := rfl

@[simp] theorem addresses_emit (f : Fragment) (code : List Instruction) :
    (f.emit code).addresses = f.addresses := rfl

@[simp] theorem instructions_enter (f : Fragment) (address : Nat) :
    (f.enter address).instructions = f.instructions := rfl

@[simp] theorem addresses_enter (f : Fragment) (address : Nat) :
    (f.enter address).addresses = f.addresses ++ [(address : Int)] := rfl

@[simp] theorem pushAll_nil (trailer : List Instruction) (f : Fragment) :
    f.pushAll trailer [] = f := rfl

theorem pushAll_concat (trailer : List Instruction) (f : Fragment) (parts : List Atom) (a : Atom) :
    f.pushAll trailer (parts ++ [a]) = ((f.pushAll trailer parts).push a).emit trailer := by
  simp [pushAll]

/-- The same instructions at the end can be taken away. -/
theorem emit_cancel {f g : Fragment} {code : List Instruction} (h : f.emit code = g.emit code) :
    f = g := by
  obtain ⟨hi, ha⟩ := mk.inj h
  cases f
  cases g
  exact mk.injEq .. ▸ ⟨List.append_cancel_right hi, ha⟩

/-- Of code and an instruction behind it, both can be told. -/
theorem emit_inj {f g : Fragment} {i j : Instruction} :
    f.emit [i] = g.emit [j] ↔ f = g ∧ i = j := by
  cases f
  cases g
  simp only [emit, mk.injEq, List.append_singleton_inj]
  exact and_right_comm

/-! ### Atoms behind other code -/

/-- The parts behind other code are the codes of the parts. -/
theorem pushAll_eq (trailer : List Instruction) (f : Fragment) (parts : List Atom) :
    let body := Atom.codeAll trailer f.addresses.length f.instructions.length parts
    f.pushAll trailer parts =
      ⟨f.instructions ++ body.instructions, f.addresses ++ body.addresses⟩ := by
  induction parts generalizing f with
  | nil => simp [Atom.codeAll]
  | cons a rest ih =>
    have hstep : f.pushAll trailer (a :: rest) =
        ((f.push a).emit trailer).pushAll trailer rest := rfl
    rw [hstep, ih]
    simp [push, Atom.codeAll, Nat.add_assoc]

theorem push_literal (f : Fragment) (pattern : Bytes) :
    f.push (.literal pattern) = f.emit [.matching pattern] := by
  simp [push, emit, Atom.code, relocate]

theorem push_sequence (f : Fragment) (parts : List Atom) :
    f.push (.sequence parts) = (f.pushAll [] parts).emit [.packing parts.length] := by
  rw [push, Atom.relocate_code_sequence, pushAll_eq]
  simp [emit]

/-- A choice enters where it ends before its parts. -/
theorem push_choice (f : Fragment) (parts : List Atom) :
    f.push (.choice parts) = (f.enter (f.push (.choice parts)).instructions.length).pushAll
      [.branching f.addresses.length] parts := by
  rw [push, Atom.relocate_code_choice, pushAll_eq]
  simp

-- The entry that a choice takes is there when its branches name it.
private theorem lt_length_enter {f : Fragment} {ref : Nat} (h : f.addresses.length = ref)
    (address : Nat) : ∀ target : Int, .branching target ∈ [Instruction.branching ref] →
      target < (f.enter address).addresses.length := by
  intro target hm
  rw [List.mem_singleton, Instruction.branching_inj] at hm
  rw [addresses_enter, List.length_append, List.length_singleton]
  omega

/-- Code `g` is code `f` with more behind it: the new branches name entries that are there, and the
new entries are addresses that are there. -/
structure GrowsTo (f g : Fragment) : Prop where
  instructions : ∃ more, g.instructions = f.instructions ++ more ∧
    ∀ target : Int, .branching target ∈ more → target < g.addresses.length
  addresses : ∃ more, g.addresses = f.addresses ++ more ∧
    ∀ address ∈ more, address ≤ (g.instructions.length : Int)

namespace GrowsTo

theorem refl (f : Fragment) : f.GrowsTo f :=
  ⟨⟨[], by simp, by simp⟩, ⟨[], by simp, by simp⟩⟩

theorem trans {f g h : Fragment} (hfg : f.GrowsTo g) (hgh : g.GrowsTo h) : f.GrowsTo h := by
  obtain ⟨⟨xs, hxs, hx⟩, ⟨as, has, ha⟩⟩ := hfg
  obtain ⟨⟨ys, hys, hy⟩, ⟨bs, hbs, hb⟩⟩ := hgh
  have hi : g.instructions.length ≤ h.instructions.length := by simp [hys]
  have ht : g.addresses.length ≤ h.addresses.length := by simp [hbs]
  constructor
  · refine ⟨xs ++ ys, by simp [hys, hxs], fun target hm ↦ ?_⟩
    rcases List.mem_append.mp hm with hm | hm
    · have := hx target hm
      omega
    · exact hy target hm
  · refine ⟨as ++ bs, by simp [hbs, has], fun address hm ↦ ?_⟩
    rcases List.mem_append.mp hm with hm | hm
    · have := ha address hm
      omega
    · exact hb address hm

/-- Code grows by an atom. -/
theorem push (f : Fragment) (a : Atom) : f.GrowsTo (f.push a) := by
  obtain ⟨ha, hi⟩ := a.code_sound
  constructor
  · refine ⟨_, rfl, fun target hm ↦ ?_⟩
    simp only [relocate, List.mem_map] at hm
    obtain ⟨i, hmem, hrel⟩ := hm
    have hsound := (hi i hmem).relocate f.addresses.length (Nat.le_refl _)
    rw [hrel, Instruction.sound_branching_iff] at hsound
    simpa [Fragment.push] using hsound.2
  · refine ⟨_, rfl, fun address hm ↦ ?_⟩
    simp only [relocate, List.mem_map] at hm
    obtain ⟨x, hx, rfl⟩ := hm
    have := (ha x hx).2
    simp only [Fragment.push, List.length_append, length_instructions_relocate]
    omega

/-- Code grows by instructions whose branches name its entries. -/
theorem emit (f : Fragment) (code : List Instruction)
    (h : ∀ target : Int, .branching target ∈ code → target < f.addresses.length) :
    f.GrowsTo (f.emit code) :=
  ⟨⟨code, rfl, h⟩, ⟨[], by simp, by simp⟩⟩

/-- Code grows by parts if the branches between them name entries before the parts. -/
theorem pushAll (trailer : List Instruction) (f : Fragment) (parts : List Atom)
    (h : ∀ target : Int, .branching target ∈ trailer → target < f.addresses.length) :
    f.GrowsTo (f.pushAll trailer parts) := by
  induction parts generalizing f with
  | nil => exact refl f
  | cons a rest ih =>
    have hpush := push f a
    have hstep : ∀ target : Int, .branching target ∈ trailer →
        target < (f.push a).addresses.length := by
      intro target hm
      have := h target hm
      simp only [Fragment.push, List.length_append]
      omega
    exact (hpush.trans (emit _ trailer hstep)).trans (ih _ hstep)

/-- Code inside a choice grows by the parts and their branches. -/
theorem choiceParts (f : Fragment) (address : Nat) (parts : List Atom) :
    (f.enter address).GrowsTo
      ((f.enter address).pushAll [.branching f.addresses.length] parts) :=
  pushAll _ _ parts (lt_length_enter rfl address)

end GrowsTo

/-- Code with which an atom that ends at `stop` can go on: its branches name its own entries, and
these are addresses in it or, for choices that are not finished, behind the atom. -/
structure Precedes (f : Fragment) (stop : Nat) : Prop where
  branches : ∀ target : Int, .branching target ∈ f.instructions → target < f.addresses.length
  entries : ∀ address ∈ f.addresses, address ≤ f.instructions.length ∨ (stop : Int) < address

namespace Precedes

theorem mono {f : Fragment} {m n : Nat} (h : f.Precedes n) (hle : m ≤ n) : f.Precedes m where
  branches := h.branches
  entries := by
    intro address hm
    rcases h.entries address hm with h | h
    · exact Or.inl h
    · exact Or.inr (by omega)

theorem grow {f g : Fragment} {stop : Nat} (h : f.Precedes stop) (hg : f.GrowsTo g) :
    g.Precedes stop := by
  obtain ⟨⟨xs, hxs, hx⟩, ⟨as, has, ha⟩⟩ := hg
  have hi : f.instructions.length ≤ g.instructions.length := by simp [hxs]
  have ht : f.addresses.length ≤ g.addresses.length := by simp [has]
  constructor
  · intro target hm
    rw [hxs] at hm
    rcases List.mem_append.mp hm with hm | hm
    · have := h.branches target hm
      omega
    · exact hx target hm
  · intro address hm
    rw [has] at hm
    rcases List.mem_append.mp hm with hm | hm
    · rcases h.entries address hm with h | h
      · exact Or.inl (by omega)
      · exact Or.inr h
    · exact Or.inl (ha address hm)

/-- Inside a choice its own entry lies behind every part. -/
theorem enter {f : Fragment} {stop : Nat} (h : f.Precedes (stop + 1)) :
    (f.enter (stop + 1)).Precedes stop := by
  constructor
  · intro target hm
    have := h.branches target hm
    simp only [addresses_enter, List.length_append, List.length_singleton]
    omega
  · intro address hm
    rw [addresses_enter, List.mem_append, List.mem_singleton] at hm
    rcases hm with hm | rfl
    · exact (h.mono (Nat.le_succ stop)).entries address hm
    · exact Or.inr (by omega)

end Precedes

end Fragment

/-! ### The last atom of code -/

namespace Atom

-- The operation of the last instruction of an atom; an empty choice has none.
private def closing : Atom → Option Operation
  | .literal _ => some .matchPattern
  | .sequence _ => some .packSequence
  | .choice (_ :: _) => some .branchOnSuccess
  | _ => none

private theorem closing_concat (parts : List Atom) (a : Atom) :
    closing (.choice (parts ++ [a])) = some .branchOnSuccess := by
  cases parts <;> rfl

private theorem closing_of_ne {a : Atom} (ha : a.Plain) (hne : a ≠ .choice []) :
    a.closing.isSome = true := by
  have hknown := ha.isKnown
  cases a with
  | literal _ => rfl
  | sequence _ => rfl
  | choice parts =>
    cases parts with
    | nil => exact absurd rfl hne
    | cons _ _ => rfl
  | nothing => cases hknown
  | hollow _ => cases hknown
  | foreign _ _ => cases hknown

end Atom

namespace Fragment

theorem push_choice_concat (f : Fragment) (parts : List Atom) (a : Atom) :
    f.push (.choice (parts ++ [a])) =
      (((f.enter (f.push (.choice (parts ++ [a]))).instructions.length).pushAll
        [.branching f.addresses.length] parts).push a).emit [.branching f.addresses.length] := by
  conv_lhs => rw [push_choice]
  rw [pushAll_concat]

-- An atom with a last instruction tells its operation there.
private theorem last_operation {f : Fragment} {a : Atom} (h : a.closing.isSome = true) :
    ∃ (g : Fragment) (i : Instruction), f.push a = g.emit [i] ∧ i.operation? = a.closing := by
  cases a with
  | literal pattern => exact ⟨_, _, push_literal f pattern, by simp [Atom.closing]⟩
  | sequence parts => exact ⟨_, _, push_sequence f parts, by simp [Atom.closing]⟩
  | choice parts =>
    rcases List.eq_nil_or_concat' parts with rfl | ⟨init, c, rfl⟩
    · cases h
    · exact ⟨_, _, push_choice_concat f init c, by simp [Atom.closing_concat]⟩
  | nothing => cases h
  | hollow _ => cases h
  | foreign _ _ => cases h

private theorem closing_eq {f g : Fragment} {a b : Atom} (ha : a.closing.isSome = true)
    (hb : b.closing.isSome = true) (h : f.push a = g.push b) : a.closing = b.closing := by
  obtain ⟨f', i, hf, hi⟩ := last_operation (f := f) ha
  obtain ⟨g', j, hg, hj⟩ := last_operation (f := g) hb
  rw [hf, hg] at h
  obtain ⟨-, rfl⟩ := emit_inj.mp h
  rw [← hi, hj]

-- Before its last instruction no code has an entry for its end.
private theorem Precedes.end_notMem {f : Fragment} {i : Instruction} {stop : Nat}
    (h : f.Precedes stop) (hstop : (f.emit [i]).instructions.length = stop) :
    (stop : Int) ∉ f.addresses := by
  intro hm
  have := h.entries stop hm
  rw [instructions_emit, List.length_append, List.length_singleton] at hstop
  omega

-- The own entry of a choice with parts comes before those of its parts. So it is the last one only
-- if there are no others, and then a branch of the choice would stand before an empty choice.
private theorem push_choice_concat_ne {f g : Fragment} {parts : List Atom} {a : Atom} {stop : Nat}
    (hg : g.Precedes stop) (hstop : (f.push (.choice (parts ++ [a]))).instructions.length = stop) :
    f.push (.choice (parts ++ [a])) ≠ g.enter stop := by
  intro h
  have hlength : g.instructions.length = stop := by rw [← hstop, h, instructions_enter]
  rw [push_choice_concat, hstop] at h
  obtain ⟨hi, ht⟩ := mk.inj h
  obtain ⟨more, hmore, hle⟩ := ((GrowsTo.choiceParts f stop parts).trans (.push _ a)).addresses
  rw [hmore, addresses_enter] at ht
  rcases List.eq_nil_or_concat' more with rfl | ⟨rest, x, rfl⟩
  · rw [List.append_nil, List.append_singleton_inj] at ht
    have hbranch := hg.branches f.addresses.length (hi ▸ by simp)
    rw [ht.1] at hbranch
    omega
  · rw [← List.append_assoc, List.append_singleton_inj] at ht
    have hx := hle x (by simp)
    have hshorter := congrArg List.length hi
    rw [List.length_append, List.length_singleton] at hshorter
    omega

-- The entry of an empty choice at the end of code is the end of the code, as no other entry is.
private theorem push_ne_push_empty {f g : Fragment} {a : Atom} {stop : Nat}
    (ha : a.closing.isSome = true) (hf : f.Precedes stop) (hg : g.Precedes stop)
    (hstop : (f.push a).instructions.length = stop) : f.push a ≠ g.push (.choice []) := by
  intro h
  have hempty : g.push (.choice []) = g.enter stop := by
    rw [← hstop, h]
    conv_lhs => rw [push_choice, pushAll_nil]
  rw [hempty] at h
  have hlast : (stop : Int) ∈ (f.push a).addresses := by simp [h]
  cases a with
  | literal pattern =>
    rw [push_literal] at hlast hstop
    exact hf.end_notMem hstop hlast
  | sequence parts =>
    rw [push_sequence] at hlast hstop
    exact (hf.grow (.pushAll [] f parts (by simp))).end_notMem hstop hlast
  | choice parts =>
    rcases List.eq_nil_or_concat' parts with rfl | ⟨init, c, rfl⟩
    · cases ha
    · exact push_choice_concat_ne hg hstop h
  | nothing => cases ha
  | hollow _ => cases ha
  | foreign _ _ => cases ha

private theorem same_closing {f g : Fragment} {a b : Atom} {stop : Nat}
    (ha : a.closing.isSome = true) (hb : b.Plain) (hf : f.Precedes stop) (hg : g.Precedes stop)
    (hstop : (f.push a).instructions.length = stop) (h : f.push a = g.push b) :
    b.closing = a.closing := by
  have hne : b ≠ .choice [] := by
    rintro rfl
    exact push_ne_push_empty ha hf hg hstop h
  exact (closing_eq ha (Atom.closing_of_ne hb hne) h).symm

-- What is to be shown of an atom at the end of code, as the parts of an atom use it.
private def Told (a : Atom) : Prop :=
  ∀ (b : Atom) (f g : Fragment) (stop : Nat), a.Plain → b.Plain → f.Precedes stop →
    g.Precedes stop → (f.push a).instructions.length = stop → f.push a = g.push b → f = g ∧ a = b

-- Read from the right, two lists of parts agree until one of them is used up.
private theorem pushAll_cancel {trailer : List Instruction} {f g : Fragment}
    {parts others : List Atom} {stop : Nat} (ih : ∀ a ∈ parts, Told a)
    (hp : ∀ a ∈ parts, a.Plain) (ho : ∀ a ∈ others, a.Plain) (hf : f.Precedes stop)
    (hg : g.Precedes stop)
    (htf : ∀ target : Int, .branching target ∈ trailer → target < f.addresses.length)
    (htg : ∀ target : Int, .branching target ∈ trailer → target < g.addresses.length)
    (hle : (f.pushAll trailer parts).instructions.length ≤ stop + trailer.length)
    (h : f.pushAll trailer parts = g.pushAll trailer others) :
    (∃ more, others = more ++ parts ∧ f = g.pushAll trailer more) ∨
      ∃ more, parts = more ++ others ∧ g = f.pushAll trailer more := by
  induction parts using List.reverseRecOn generalizing others with
  | nil => exact Or.inl ⟨others, by simp, h⟩
  | append_singleton init c ihr =>
    rcases List.eq_nil_or_concat' others with rfl | ⟨init', c', rfl⟩
    · exact Or.inr ⟨init ++ [c], by simp, h.symm⟩
    · rw [pushAll_concat, pushAll_concat] at h
      rw [pushAll_concat] at hle
      simp only [List.forall_mem_append, List.forall_mem_singleton] at ih hp ho
      have hpush := emit_cancel h
      have hshort : ((f.pushAll trailer init).push c).instructions.length ≤ stop := by
        rw [instructions_emit, List.length_append] at hle
        omega
      obtain ⟨hinit, rfl⟩ := ih.2 c' _ _ _ hp.2 ho.2
        ((hf.grow (.pushAll _ _ init htf)).mono hshort)
        ((hg.grow (.pushAll _ _ init' htg)).mono hshort) rfl hpush
      have hbefore : (f.pushAll trailer init).instructions.length ≤ stop + trailer.length := by
        rw [push, List.length_append] at hshort
        omega
      rcases ihr ih.1 hp.1 ho.1 hbefore hinit with ⟨more, rfl, hm⟩ | ⟨more, rfl, hm⟩
      · exact Or.inl ⟨more, by simp, hm⟩
      · exact Or.inr ⟨more, by simp, hm⟩

-- The code before a choice has no branch of that choice, so no part can be hidden in it.
private theorem eq_nil_of_enter_eq {f g : Fragment} {ref stop : Nat} {parts : List Atom}
    (hf : f.Precedes stop) (hr : f.addresses.length = ref)
    (h : f.enter stop = (g.enter stop).pushAll [.branching ref] parts) : parts = [] := by
  rcases List.eq_nil_or_concat' parts with rfl | ⟨init, c, rfl⟩
  · rfl
  · rw [pushAll_concat] at h
    have hi := (mk.inj h).1
    have := hf.branches ref (hi ▸ by simp)
    omega

private theorem enter_cancel {f g : Fragment} {stop : Nat} (h : f.enter stop = g.enter stop) :
    f = g := by
  obtain ⟨hi, ha⟩ := mk.inj h
  cases f
  cases g
  exact mk.injEq .. ▸ ⟨hi, List.append_cancel_right ha⟩

private theorem told_literal (pattern : Bytes) : Told (.literal pattern) := by
  intro b f g stop _ hb hf hg hstop h
  have hclosing := same_closing rfl hb hf hg hstop h
  cases b with
  | literal other =>
    rw [push_literal, push_literal] at h
    obtain ⟨hfg, hi⟩ := emit_inj.mp h
    exact ⟨hfg, congrArg Atom.literal (Instruction.matching_inj.mp hi)⟩
  | choice others => cases others <;> cases hclosing
  | sequence _ => cases hclosing
  | nothing => cases hclosing
  | hollow _ => cases hclosing
  | foreign _ _ => cases hclosing

private theorem told_sequence (parts : List Atom) (ih : ∀ a ∈ parts, Told a) :
    Told (.sequence parts) := by
  intro b f g stop ha hb hf hg hstop h
  have hclosing := same_closing rfl hb hf hg hstop h
  cases b with
  | sequence others =>
    rw [push_sequence] at h hstop
    rw [push_sequence] at h
    obtain ⟨hbody, hi⟩ := emit_inj.mp h
    have hcount := Int.ofNat.inj (Instruction.packing_inj.mp hi)
    rw [instructions_emit, List.length_append, List.length_singleton] at hstop
    rcases pushAll_cancel ih ha.of_mem_sequence hb.of_mem_sequence hf hg (by simp) (by simp)
      (by rw [List.length_nil]; omega) hbody with ⟨more, rfl, hm⟩ | ⟨more, rfl, hm⟩
    · obtain rfl : more = [] := List.eq_nil_of_length_eq_zero (by simpa using hcount)
      exact ⟨hm, rfl⟩
    · obtain rfl : more = [] := List.eq_nil_of_length_eq_zero (by simpa using hcount)
      exact ⟨hm.symm, rfl⟩
  | choice others => cases others <;> cases hclosing
  | literal _ => cases hclosing
  | nothing => cases hclosing
  | hollow _ => cases hclosing
  | foreign _ _ => cases hclosing

-- Two choices with parts: the last branch tells the entry, and the parts are read from the right.
private theorem told_choice_choice {parts others : List Atom} {f g : Fragment} {stop : Nat}
    (ih : ∀ a ∈ parts, Told a) (ha : Atom.Plain (.choice parts))
    (hb : Atom.Plain (.choice others)) (hf : f.Precedes (stop + 1)) (hg : g.Precedes (stop + 1))
    (href : f.addresses.length = g.addresses.length)
    (hstop : (f.push (.choice parts)).instructions.length = stop + 1)
    (h : f.push (.choice parts) = g.push (.choice others)) : f = g ∧ parts = others := by
  have hparts := push_choice f parts
  have hothers := push_choice g others
  rw [← h, hstop, ← href] at hothers
  rw [hstop] at hparts
  rw [hparts] at hothers hstop
  rcases pushAll_cancel ih ha.of_mem_choice hb.of_mem_choice hf.enter hg.enter
    (lt_length_enter rfl _) (lt_length_enter href.symm _) (by simp [hstop]) hothers with
    ⟨more, rfl, hm⟩ | ⟨more, rfl, hm⟩
  · obtain rfl := eq_nil_of_enter_eq hf rfl hm
    exact ⟨enter_cancel hm, rfl⟩
  · obtain rfl := eq_nil_of_enter_eq hg href.symm hm
    exact ⟨(enter_cancel hm).symm, rfl⟩

private theorem told_choice (parts : List Atom) (ih : ∀ a ∈ parts, Told a) :
    Told (.choice parts) := by
  intro b f g stop ha hb hf hg hstop h
  rcases List.eq_nil_or_concat' parts with rfl | ⟨init, c, rfl⟩
  · by_cases hempty : b = .choice []
    · subst hempty
      have hfe := push_choice f []
      have hge := push_choice g []
      rw [← h] at hge
      exact ⟨enter_cancel (hfe.symm.trans hge), rfl⟩
    · exact absurd h.symm
        (push_ne_push_empty (Atom.closing_of_ne hb hempty) hg hf (h ▸ hstop))
  · have hsome : (Atom.choice (init ++ [c])).closing.isSome = true := by
      rw [Atom.closing_concat]
      rfl
    have hclosing := same_closing hsome hb hf hg hstop h
    rw [Atom.closing_concat] at hclosing
    cases b with
    | choice others =>
      rcases List.eq_nil_or_concat' others with rfl | ⟨init', c', rfl⟩
      · cases hclosing
      · have hlast :=
          ((push_choice_concat f init c).symm.trans h).trans (push_choice_concat g init' c')
        have href := Int.ofNat.inj (Instruction.branching_inj.mp (emit_inj.mp hlast).2)
        have hpos : 0 < stop := by
          rw [← hstop, push_choice_concat, instructions_emit, List.length_append]
          exact Nat.succ_pos _
        obtain ⟨n, rfl⟩ := Nat.exists_eq_add_one.mpr hpos
        obtain ⟨hfg, hparts⟩ := told_choice_choice ih ha hb hf hg href hstop h
        exact ⟨hfg, congrArg Atom.choice hparts⟩
    | literal _ => cases hclosing
    | sequence _ => cases hclosing
    | nothing => cases hclosing
    | hollow _ => cases hclosing
    | foreign _ _ => cases hclosing

-- By induction over the tree; the code before a part is again code with which the part can go on.
private theorem told (a : Atom) : Told a := by
  induction a with
  | literal pattern => exact told_literal pattern
  | sequence parts ih => exact told_sequence parts ih
  | choice parts ih => exact told_choice parts ih
  | nothing => exact fun _ _ _ _ ha ↦ absurd ha.isKnown (by decide)
  | hollow kind => exact fun _ _ _ _ ha ↦ absurd ha.isKnown Bool.false_ne_true
  | foreign kind text => exact fun _ _ _ _ ha ↦ absurd ha.isKnown Bool.false_ne_true

end Fragment

/-! ### The tree of a program -/

namespace Atom

/-- Different plain trees have different code. -/
theorem code_inj {a b : Atom} (ha : a.Plain) (hb : b.Plain) (h : a.code = b.code) : a = b := by
  have hnil (c : Atom) : Fragment.push ⟨[], []⟩ c = c.code := by simp [Fragment.push]
  have hstart (stop : Nat) : Fragment.Precedes ⟨[], []⟩ stop := ⟨by simp, by simp⟩
  refine (Fragment.told a b ⟨[], []⟩ ⟨[], []⟩ _ ha hb (hstart _) (hstart _) rfl ?_).2
  rw [hnil, hnil, h]

end Atom

namespace Compile

/-- Trees that compile to the same instructions and the same address table are the same tree,
whatever the limits and the identifiers. -/
theorem eq_of_compile_eq (limit limit' : Int) (fresh fresh' : Bytes) (a b : Atom) (p q : Program)
    (hp : (compile limit fresh a).result = .ok p) (hq : (compile limit' fresh' b).result = .ok q)
    (hinstructions : p.instructions = q.instructions) (haddresses : p.addresses = q.addresses) :
    a = b := by
  obtain ⟨ha, rfl⟩ := plain_of_compile hp
  obtain ⟨hb, rfl⟩ := plain_of_compile hq
  rw [Atom.instructions_program, Atom.instructions_program] at hinstructions
  rw [Atom.addresses_program, Atom.addresses_program] at haddresses
  apply Atom.code_inj ha hb
  rw [show a.code = ⟨a.code.instructions, a.code.addresses⟩ from rfl,
    List.toArray_inj hinstructions, List.toArray_inj haddresses]

/-- A sequence with an empty choice before its literal and a nested one behind it, put together in
two ways and compiled under two limits. -/
theorem eq_of_compile_eq_nested :
    let a : Atom := .sequence [.choice [], .literal "a", .choice [.choice []]]
    let b : Atom := .sequence ([.choice [], .literal "a"] ++ [.choice [.choice []]])
    (compile 3 "one" a).result = .ok (a.program "one") ∧
      (compile 0 "two" b).result = .ok (b.program "two") ∧
      (a.program "one").instructions = (b.program "two").instructions ∧
      (a.program "one").addresses = (b.program "two").addresses ∧ a = b := by
  intro a b
  have ha : (compile 3 "one" a).result = .ok (a.program "one") := by rfl
  have hb : (compile 0 "two" b).result = .ok (b.program "two") := by rfl
  have hi : (a.program "one").instructions = (b.program "two").instructions := by decide
  have ht : (a.program "one").addresses = (b.program "two").addresses := by decide
  exact ⟨ha, hb, hi, ht, eq_of_compile_eq 3 0 "one" "two" a b _ _ ha hb hi ht⟩

end Compile

end GrammarCode
