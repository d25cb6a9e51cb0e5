import GrammarCode.Proofs.Branches
import Mathlib.Logic.Relation

/-!
# Runs in which every match succeeds

A machine runs a program with every match succeeding: a match produces a result, a packing replaces
the most recent results by one, and a branch is always taken. Such a run goes through the first
choices of the compiled tree: all parts of a sequence, the first part of a choice. What the code of
an atom does to the results is said here atom by atom, and the machine does exactly that. An empty
choice on the way produces nothing, so one result is missing from there on; a packing inside may
hide that by taking a result from outside, but the shortage is never made up.
-/

namespace GrammarCode

/-- What a run produces: a matched text, or results combined in their order. -/
inductive Result where
  | text (pattern : Bytes)
  | sequence (parts : List Result)
  deriving Repr

/-- A run on its way: the address of the next instruction, and the results so far, the most recent
first. -/
structure Machine where
  address : Int := 0
  results : List Result := []

namespace Result

/-- The `count` most recent results combined into one, if there are so many. -/
def pack? (count : Int) (results : List Result) : Option (List Result) :=
  if 0 ≤ count ∧ count ≤ results.length then
    some (.sequence (results.take count.toNat).reverse :: results.drop count.toNat)
  else none

/-- Packing takes the results away and puts one in their place. -/
theorem length_of_pack? {count : Nat} {results packed : List Result}
    (h : pack? count results = some packed) : packed.length + count = results.length + 1 := by
  unfold pack? at h
  split at h
  · next hcount =>
    obtain rfl := Option.some.inj h
    simp only [List.length_cons, List.length_drop, Int.toNat_natCast]
    omega
  · cases h

/-- Packing fails exactly for want of results. -/
theorem pack?_eq_none_iff {count : Nat} {results : List Result} :
    pack? count results = none ↔ results.length < count := by
  rw [pack?, ite_eq_right_iff]
  simp only [reduceCtorEq, imp_false]
  omega

/-- Results on top of others, packed. -/
theorem pack?_append (parts results : List Result) :
    pack? parts.length (parts.reverse ++ results) = some (.sequence parts :: results) := by
  have hlength : parts.reverse.length = parts.length := List.length_reverse
  rw [pack?, if_pos (by rw [List.length_append]; omega), Int.toNat_natCast, ← hlength,
    List.take_left, List.drop_left, List.reverse_reverse]

end Result

namespace Program

/-- The next state of a run in which every match succeeds. There is none behind the end of the
program, at a packing that needs more results than there are, and at an instruction without an
operation or without a target. -/
def step? (p : Program) (s : Machine) : Option Machine :=
  match p.instruction? s.address with
  | none => none
  | some i =>
    match i.operation? with
    | some .matchPattern => some ⟨s.address + 1, .text i.pattern :: s.results⟩
    | some .packSequence => (Result.pack? i.count s.results).map (⟨s.address + 1, ·⟩)
    | some .branchOnSuccess => (p.target? s.address).map (⟨·, s.results⟩)
    | none => none

/-- A run comes from one state to another. -/
def Reaches (p : Program) : Machine → Machine → Prop :=
  Relation.ReflTransGen fun s t ↦ p.step? s = some t

/-- A run meets a packing that needs more results than there are. -/
def Lacks (p : Program) (s : Machine) : Prop :=
  ∃ i, p.instruction? s.address = some i ∧ i.operation? = some .packSequence ∧
    (s.results.length : Int) < i.count

namespace Reaches

variable {p : Program} {s t u : Machine}

theorem refl (p : Program) (s : Machine) : p.Reaches s s := Relation.ReflTransGen.refl

theorem trans (h : p.Reaches s t) (h' : p.Reaches t u) : p.Reaches s u :=
  Relation.ReflTransGen.trans h h'

theorem step (h : p.step? s = some t) : p.Reaches s t := Relation.ReflTransGen.single h

/-- A run that cannot go on ends in one state only. -/
theorem end_unique (ht : p.Reaches s t) (hu : p.Reaches s u) (htn : p.step? t = none)
    (hun : p.step? u = none) : t = u := by
  have hstuck {x y : Machine} (hx : p.step? x = none) (h : p.Reaches x y) : x = y := by
    rcases Relation.ReflTransGen.cases_head h with rfl | ⟨z, hz, -⟩
    · rfl
    · rw [hx] at hz
      cases hz
  have hunique : Relator.RightUnique fun s t ↦ p.step? s = some t :=
    fun _ _ _ hx hy ↦ Option.some.inj (hx.symm.trans hy)
  rcases Relation.ReflTransGen.total_of_right_unique hunique ht hu with h | h
  · exact hstuck htn h
  · exact (hstuck hun h).symm

end Reaches

/-- A run that lacks results cannot go on. -/
theorem step?_of_lacks {p : Program} {s : Machine} (h : p.Lacks s) : p.step? s = none := by
  obtain ⟨i, hi, ho, hlt⟩ := h
  rw [step?, hi]
  dsimp only
  rw [ho]
  have hnone : Result.pack? i.count s.results = none := if_neg (by omega)
  rw [hnone, Option.map_none]

/-- Behind the last instruction a run is at its end and lacks nothing. -/
theorem ended_at_size (p : Program) (results : List Result) :
    p.step? ⟨p.size, results⟩ = none ∧ ¬ p.Lacks ⟨p.size, results⟩ := by
  have hnone : p.instruction? p.size = none := by
    rw [instruction?, if_neg (by omega), Int.toNat_natCast, Array.getElem?_eq_none_iff]
    exact Nat.le_refl _
  constructor
  · rw [step?, hnone]
  · rintro ⟨i, hi, -⟩
    rw [hnone] at hi
    cases hi

/-- From a state a run goes on to the address `stop` with the results of an outcome; without an
outcome it meets a packing that lacks results. -/
def Gives (p : Program) (s : Machine) (stop : Int) : Option (List Result) → Prop
  | some results => p.Reaches s ⟨stop, results⟩
  | none => ∃ t, p.Reaches s t ∧ p.Lacks t

theorem Gives.bind {p : Program} {s : Machine} {middle stop : Int} {o : Option (List Result)}
    {f : List Result → Option (List Result)} (h : p.Gives s middle o)
    (hf : ∀ results, p.Gives ⟨middle, results⟩ stop (f results)) : p.Gives s stop (o.bind f) := by
  cases o with
  | none => exact h
  | some results =>
    rw [Option.bind_some]
    have hnext := hf results
    cases ho : f results with
    | none =>
      rw [ho] at hnext
      obtain ⟨t, ht, hlacks⟩ := hnext
      exact ⟨t, h.trans ht, hlacks⟩
    | some after =>
      rw [ho] at hnext
      exact h.trans hnext

-- One instruction at a time.

private theorem gives_matching {p : Program} {k : Nat} {pattern : Bytes} (results : List Result)
    (h : p.instruction? k = some (.matching pattern)) :
    p.Gives ⟨k, results⟩ (k + 1 : Nat) (some (.text pattern :: results)) := by
  apply Reaches.step
  rw [step?, h]
  dsimp only
  rw [Instruction.operation?_matching]
  rfl

private theorem gives_packing {p : Program} {k n : Nat} (results : List Result)
    (h : p.instruction? k = some (.packing n)) :
    p.Gives ⟨k, results⟩ (k + 1 : Nat) (Result.pack? n results) := by
  cases hpack : Result.pack? n results with
  | none =>
    have hlacks : (results.length : Int) < n := by
      have := Result.pack?_eq_none_iff.mp hpack
      omega
    exact ⟨_, Reaches.refl p _, _, h, Instruction.operation?_packing n, hlacks⟩
  | some packed =>
    apply Reaches.step
    rw [step?, h]
    dsimp only
    rw [Instruction.operation?_packing]
    change (Result.pack? n results).map _ = _
    rw [hpack]
    rfl

private theorem gives_branching {p : Program} {k stop : Nat} {ref : Int} (results : List Result)
    (h : p.instruction? k = some (.branching ref)) (hstop : p.address? ref = some (stop : Int)) :
    p.Gives ⟨k, results⟩ stop (some results) := by
  have htarget : p.target? k = some (stop : Int) := by
    have hbranch : p.BranchesAt k ref := ⟨_, h, Instruction.operation?_branching ref, rfl⟩
    rw [hbranch.target?_eq, hstop]
  apply Reaches.step
  rw [step?, h]
  dsimp only
  rw [Instruction.operation?_branching]
  dsimp only
  rw [htarget]
  rfl

end Program

namespace Atom

/-! ### What a run through first choices does -/

mutual

/-- The atoms on the path of first choices: the atom, all parts of a sequence on the path, the first
part of a choice on the path. -/
def firstPath : Atom → List Atom
  | .literal pattern => [.literal pattern]
  | .sequence parts => .sequence parts :: firstPathAll parts
  | .choice parts => .choice parts :: firstPathHead parts
  | .nothing => [.nothing]
  | .hollow kind => [.hollow kind]
  | .foreign kind text => [.foreign kind text]

/-- The paths of first choices of parts, one after the other. -/
def firstPathAll : List Atom → List Atom
  | [] => []
  | a :: rest => a.firstPath ++ firstPathAll rest

/-- The path of first choices of the first part. -/
def firstPathHead : List Atom → List Atom
  | [] => []
  | a :: _ => a.firstPath

end

/-- Whether an atom is a choice without parts. -/
def isEmptyChoice : Atom → Bool
  | .choice [] => true
  | _ => false

/-- How many empty choices are on the path of first choices. -/
def vacancies (a : Atom) : Nat := a.firstPath.countP isEmptyChoice

theorem vacancies_eq_zero_iff (a : Atom) :
    a.vacancies = 0 ↔ ∀ b ∈ a.firstPath, b.isEmptyChoice = false := by
  simp [vacancies, List.countP_eq_zero]

mutual

/-- What the code of an atom does to the results of a run in which every match succeeds; nothing
comes out if a packing lacks results. -/
def effect (results : List Result) : Atom → Option (List Result)
  | .literal pattern => some (.text pattern :: results)
  | .sequence parts => (effectAll results parts).bind (Result.pack? parts.length)
  | .choice parts => effectHead results parts
  | .nothing => some results
  | .hollow _ => some results
  | .foreign _ _ => some results

/-- What the codes of parts do, one after the other. -/
def effectAll (results : List Result) : List Atom → Option (List Result)
  | [] => some results
  | a :: rest => (a.effect results).bind fun results ↦ effectAll results rest

/-- What the code of the first part does. -/
def effectHead (results : List Result) : List Atom → Option (List Result)
  | [] => some results
  | a :: _ => a.effect results

end

mutual

/-- The result of taking the first choice everywhere, if no choice on the way is empty. -/
def firstResult? : Atom → Option Result
  | .literal pattern => some (.text pattern)
  | .sequence parts => (firstResults? parts).map .sequence
  | .choice parts => firstResultHead? parts
  | .nothing => none
  | .hollow _ => none
  | .foreign _ _ => none

/-- The results of parts in order. -/
def firstResults? : List Atom → Option (List Result)
  | [] => some []
  | a :: rest => a.firstResult?.bind fun r ↦ (firstResults? rest).map (r :: ·)

/-- The result of the first part. -/
def firstResultHead? : List Atom → Option Result
  | [] => none
  | a :: _ => a.firstResult?

end

-- The results of parts end up in front, the last part's first.
private theorem effectAll_of_firstResults? {parts : List Atom}
    (ih : ∀ a ∈ parts, ∀ r results, a.firstResult? = some r →
      a.effect results = some (r :: results)) {rs : List Result} (results : List Result)
    (h : firstResults? parts = some rs) :
    effectAll results parts = some (rs.reverse ++ results) ∧ rs.length = parts.length := by
  induction parts generalizing rs results with
  | nil =>
    rw [firstResults?] at h
    obtain rfl := Option.some.inj h
    exact ⟨rfl, rfl⟩
  | cons a rest ihr =>
    rw [List.forall_mem_cons] at ih
    rw [firstResults?] at h
    obtain ⟨r, hr, hrest⟩ := Option.bind_eq_some_iff.mp h
    obtain ⟨rs', hrs', rfl⟩ := Option.map_eq_some_iff.mp hrest
    obtain ⟨heffect, hlength⟩ := ihr ih.2 (r :: results) hrs'
    constructor
    · rw [effectAll, ih.1 r results hr, Option.bind_some, heffect]
      simp
    · rw [List.length_cons, hlength, List.length_cons]

/-- The code of an atom that has a first result produces it. -/
theorem effect_of_firstResult? {a : Atom} {r : Result} (results : List Result)
    (h : a.firstResult? = some r) : a.effect results = some (r :: results) := by
  induction a generalizing r results with
  | literal pattern =>
    rw [firstResult?] at h
    obtain rfl := Option.some.inj h
    rfl
  | nothing => cases h
  | hollow _ => cases h
  | foreign _ _ => cases h
  | sequence parts ih =>
    rw [firstResult?] at h
    obtain ⟨rs, hrs, rfl⟩ := Option.map_eq_some_iff.mp h
    obtain ⟨heffect, hlength⟩ := effectAll_of_firstResults? (fun a ha r results ↦ ih a ha results)
      results hrs
    rw [effect, heffect, Option.bind_some, ← hlength, Result.pack?_append]
  | choice parts ih =>
    rw [firstResult?] at h
    cases parts with
    | nil => cases h
    | cons a rest => exact ih a List.mem_cons_self results h

private theorem exists_firstResults? {parts : List Atom}
    (ih : ∀ a ∈ parts, (∀ b ∈ a.firstPath, b.isEmptyChoice = false) →
      ∃ r, a.firstResult? = some r)
    (h : ∀ b ∈ firstPathAll parts, b.isEmptyChoice = false) :
    ∃ rs, firstResults? parts = some rs := by
  induction parts with
  | nil => exact ⟨[], rfl⟩
  | cons a rest ihr =>
    rw [List.forall_mem_cons] at ih
    rw [firstPathAll, List.forall_mem_append] at h
    obtain ⟨r, hr⟩ := ih.1 h.1
    obtain ⟨rs, hrs⟩ := ihr ih.2 h.2
    exact ⟨r :: rs, by rw [firstResults?, hr, hrs]; rfl⟩

/-- With no empty choice on the path of first choices there is a first result. -/
theorem exists_firstResult? {a : Atom} (hplain : a.Plain)
    (h : ∀ b ∈ a.firstPath, b.isEmptyChoice = false) : ∃ r, a.firstResult? = some r := by
  induction a with
  | literal pattern => exact ⟨_, rfl⟩
  | nothing => exact absurd hplain.isKnown (by simp [isKnown])
  | hollow _ => exact absurd hplain.isKnown (by simp [isKnown])
  | foreign _ _ => exact absurd hplain.isKnown (by simp [isKnown])
  | sequence parts ih =>
    rw [firstPath, List.forall_mem_cons] at h
    obtain ⟨rs, hrs⟩ := exists_firstResults? (fun a ha ↦ ih a ha (hplain.of_mem_sequence a ha)) h.2
    exact ⟨.sequence rs, by rw [firstResult?, hrs]; rfl⟩
  | choice parts ih =>
    rw [firstPath, List.forall_mem_cons] at h
    cases parts with
    | nil => exact absurd h.1 (by simp [isEmptyChoice])
    | cons a rest =>
      have ha := List.mem_cons_self (a := a) (l := rest)
      exact ih a ha (hplain.of_mem_choice a ha) h.2

private theorem length_effectAll {parts : List Atom}
    (ih : ∀ a ∈ parts, ∀ results after, a.effect results = some after →
      after.length + a.vacancies = results.length + 1) {results after : List Result}
    (h : effectAll results parts = some after) :
    after.length + (firstPathAll parts).countP isEmptyChoice = results.length + parts.length := by
  induction parts generalizing results with
  | nil =>
    rw [effectAll] at h
    obtain rfl := Option.some.inj h
    rfl
  | cons a rest ihr =>
    rw [List.forall_mem_cons] at ih
    rw [effectAll] at h
    obtain ⟨middle, hmiddle, hafter⟩ := Option.bind_eq_some_iff.mp h
    have hhead := ih.1 results middle hmiddle
    have hrest := ihr ih.2 hafter
    rw [vacancies] at hhead
    rw [firstPathAll, List.countP_append, List.length_cons]
    omega

/-- The balance of an atom's code: one result more than before, less one for each empty choice on
the path of first choices. -/
theorem length_effect {a : Atom} (hplain : a.Plain) {results after : List Result}
    (h : a.effect results = some after) : after.length + a.vacancies = results.length + 1 := by
  induction a generalizing results after with
  | literal pattern =>
    rw [effect] at h
    obtain rfl := Option.some.inj h
    rfl
  | nothing => exact absurd hplain.isKnown (by simp [isKnown])
  | hollow _ => exact absurd hplain.isKnown (by simp [isKnown])
  | foreign _ _ => exact absurd hplain.isKnown (by simp [isKnown])
  | sequence parts ih =>
    rw [effect] at h
    obtain ⟨middle, hmiddle, hpack⟩ := Option.bind_eq_some_iff.mp h
    have hparts := length_effectAll
      (fun a ha _ _ ↦ ih a ha (hplain.of_mem_sequence a ha)) hmiddle
    have hpacked := Result.length_of_pack? hpack
    rw [vacancies, firstPath, List.countP_cons_of_neg (by simp [isEmptyChoice])]
    omega
  | choice parts ih =>
    rw [effect] at h
    cases parts with
    | nil =>
      rw [effectHead] at h
      obtain rfl := Option.some.inj h
      rfl
    | cons a rest =>
      have ha := List.mem_cons_self (a := a) (l := rest)
      rw [vacancies, firstPath, List.countP_cons_of_neg (by simp [isEmptyChoice])]
      exact ih a ha (hplain.of_mem_choice a ha) h

end Atom

/-! ### The machine does what the code says -/

namespace Fragment

/-- The instructions of code are instructions where that code stands. -/
theorem StandsAt.instructions_getElem? {f g : Fragment} {refs start k : Nat} {i : Instruction}
    (h : g.StandsAt refs start f) (hi : g.instructions[k]? = some i) :
    f.instructions[start + k]? = some i := by
  obtain ⟨⟨before, after, hf, rfl⟩, -⟩ := h
  have hk := (List.getElem?_eq_some_iff.mp hi).1
  rw [hf, List.append_assoc, List.getElem?_append_right (by omega), Nat.add_sub_cancel_left,
    List.getElem?_append_left hk, hi]

end Fragment

namespace Atom

open Program

theorem instruction?_program (fresh : Bytes) {a : Atom} {k : Nat} {i : Instruction}
    (h : a.code.instructions[k]? = some i) : (a.program fresh).instruction? k = some i := by
  rw [instruction?, if_neg (by omega), Int.toNat_natCast]
  simpa using h

section Runs

variable {fresh : Bytes} {root : Atom}

-- A run through the codes of the parts of a sequence.
private theorem gives_codeAll {parts : List Atom} {refs start : Nat}
    (ih : ∀ a ∈ parts, ∀ refs start results,
      (a.code.relocate refs start).StandsAt refs start root.code →
      (root.program fresh).Gives ⟨(start : Nat), results⟩
        (start + a.code.instructions.length : Nat) (a.effect results))
    (results : List Result) (h : (codeAll [] refs start parts).StandsAt refs start root.code) :
    (root.program fresh).Gives ⟨(start : Nat), results⟩
      (start + (codeAll [] refs start parts).instructions.length : Nat)
      (effectAll results parts) := by
  induction parts generalizing refs start results with
  | nil => exact Reaches.refl _ _
  | cons a rest ihr =>
    rw [List.forall_mem_cons] at ih
    have hhead := h.trans (head_standsAt [] refs start a rest)
    have htail := h.trans (tail_standsAt [] refs start a rest)
    rw [List.length_nil, Nat.add_zero] at htail
    refine (ih.1 refs start results hhead).bind fun middle ↦ ?_
    have hrest := ihr ih.2 middle htail
    have hstop : start + (codeAll [] refs start (a :: rest)).instructions.length =
        start + a.code.instructions.length + (codeAll [] (refs + a.code.addresses.length)
          (start + a.code.instructions.length) rest).instructions.length := by
      simp [codeAll, Nat.add_assoc]
    rw [hstop]
    exact hrest

/-- A run through the code of an atom, wherever it stands in a program, does to the results what the
code of the atom does, and goes on behind it. -/
theorem gives_code {a : Atom} {refs start : Nat} (results : List Result)
    (h : (a.code.relocate refs start).StandsAt refs start root.code) :
    (root.program fresh).Gives ⟨start, results⟩ (start + a.code.instructions.length : Nat)
      (a.effect results) := by
  induction a generalizing refs start results with
  | literal pattern =>
    exact gives_matching results (instruction?_program fresh (h.instructions_getElem? (k := 0) rfl))
  | nothing => exact Reaches.refl _ _
  | hollow _ => exact Reaches.refl _ _
  | foreign _ _ => exact Reaches.refl _ _
  | sequence parts ih =>
    have hbody := h.trans ((sequenceParts_standsAt parts).relocate refs start)
    rw [relocate_codeAll, List.map_nil, Nat.zero_add, Nat.zero_add] at hbody
    have hpack := instruction?_program fresh (h.instructions_getElem?
      (k := (codeAll [] refs start parts).instructions.length) (i := .packing parts.length)
      (by rw [relocate_code_sequence]; simp))
    have hlength := congrArg (fun f ↦ f.instructions.length)
      (relocate_code_sequence refs start parts)
    simp only [Fragment.length_instructions_relocate, List.length_append,
      List.length_singleton] at hlength
    rw [hlength, ← Nat.add_assoc]
    exact (gives_codeAll (fun a ha refs start results ↦ ih a ha results) results hbody).bind
      fun middle ↦ gives_packing middle hpack
  | choice parts ih =>
    cases parts with
    | nil => exact Reaches.refl _ _
    | cons a rest =>
      have hbody := h.trans ((choiceParts_standsAt (a :: rest)).relocate refs start)
      rw [relocate_codeAll, List.map_singleton, Instruction.relocate_branching] at hbody
      have hhead := hbody.trans (head_standsAt _ _ _ a rest)
      rw [Nat.add_comm 1 refs, Nat.zero_add] at hhead
      have hbranch := instruction?_program fresh (h.instructions_getElem?
        (k := a.code.instructions.length) (i := .branching refs)
        (by rw [relocate_code_choice]; simp [codeAll]))
      have hfirst := (ih a List.mem_cons_self results hhead).bind
        fun middle ↦ gives_branching middle hbranch (address?_choice h)
      rwa [Option.bind_fun_some] at hfirst

end Runs

end Atom

namespace Compile

open Program

/-- A run through the program of a tree does what the code of the tree does. -/
theorem gives_of_compile {limit : Int} {fresh : Bytes} {a : Atom} {p : Program}
    (h : (compile limit fresh a).result = .ok p) : p.Gives {} p.size (a.effect []) := by
  obtain ⟨-, rfl⟩ := plain_of_compile h
  have hstands : (a.code.relocate 0 0).StandsAt 0 0 a.code := by
    rw [Fragment.relocate_zero]
    exact Fragment.StandsAt.refl a.code
  have hgives : (a.program fresh).Gives ⟨(0 : Nat), []⟩ (0 + a.code.instructions.length : Nat)
      (a.effect []) := Atom.gives_code [] hstands
  rw [Nat.zero_add] at hgives
  exact hgives

/-- Where a run through the program of a tree ends: behind the last instruction, with one result
less one for each empty choice on the path of first choices, or at a packing that lacks results. -/
theorem exists_end {limit : Int} {fresh : Bytes} {a : Atom} {p : Program}
    (h : (compile limit fresh a).result = .ok p) :
    ∃ s, p.Reaches {} s ∧ p.step? s = none ∧
      (p.Lacks s ∨ s.address = p.size ∧ s.results.length + a.vacancies = 1) := by
  have hgives := gives_of_compile h
  cases heffect : a.effect [] with
  | none =>
    rw [heffect] at hgives
    obtain ⟨s, hs, hlacks⟩ := hgives
    exact ⟨s, hs, step?_of_lacks hlacks, Or.inl hlacks⟩
  | some results =>
    rw [heffect] at hgives
    have hbalance := Atom.length_effect (plain_of_compile h).1 heffect
    exact ⟨_, hgives, (p.ended_at_size results).1, Or.inr ⟨rfl, hbalance⟩⟩

/-- In every program of a compilation a run in which every match succeeds finds enough results at
each packing that it meets and ends behind the last instruction with exactly one result if and only
if no empty choice is on the path of first choices. That result is then the one of taking the first
choice everywhere. In any case the run ends: behind the last instruction, with one result less one
for each empty choice on the path, or at a packing that lacks results. -/
theorem one_result_iff_no_empty_choice (limit : Int) (fresh : Bytes) (a : Atom) (p : Program)
    (h : (compile limit fresh a).result = .ok p) :
    (((∀ s, p.Reaches {} s → ¬ p.Lacks s) ∧ ∃ r, p.Reaches {} ⟨p.size, [r]⟩) ↔
        ∀ b ∈ a.firstPath, b.isEmptyChoice = false) ∧
      (∀ r, p.Reaches {} ⟨p.size, [r]⟩ ↔ a.firstResult? = some r) ∧
      ∃ s, p.Reaches {} s ∧ p.step? s = none ∧
        (p.Lacks s ∨ s.address = p.size ∧ s.results.length + a.vacancies = 1) := by
  obtain ⟨s, hs, hstuck, hcases⟩ := exists_end h
  -- Any run that ends behind the last instruction is this one.
  have hunique {results : List Result} (hr : p.Reaches {} ⟨p.size, results⟩) :
      s = ⟨p.size, results⟩ := hs.end_unique hr hstuck (p.ended_at_size results).1
  have hresult {r : Result} (hr : a.firstResult? = some r) : p.Reaches {} ⟨p.size, [r]⟩ := by
    have hgives := gives_of_compile h
    rw [Atom.effect_of_firstResult? [] hr] at hgives
    exact hgives
  have hpath {r : Result} (hr : p.Reaches {} ⟨p.size, [r]⟩) :
      ∀ b ∈ a.firstPath, b.isEmptyChoice = false := by
    rw [← Atom.vacancies_eq_zero_iff]
    obtain rfl := hunique hr
    rcases hcases with hlacks | ⟨-, hbalance⟩
    · exact absurd hlacks (p.ended_at_size [r]).2
    · rw [List.length_singleton] at hbalance
      omega
  refine ⟨⟨fun ⟨_, _, hr⟩ ↦ hpath hr, fun hnone ↦ ?_⟩, fun r ↦ ⟨fun hr ↦ ?_, hresult⟩,
    s, hs, hstuck, hcases⟩
  · obtain ⟨r, hr⟩ := Atom.exists_firstResult? (plain_of_compile h).1 hnone
    refine ⟨fun t ht hlacks ↦ ?_, r, hresult hr⟩
    obtain rfl := ht.end_unique (hresult hr) (step?_of_lacks hlacks) (p.ended_at_size [r]).1
    exact (p.ended_at_size [r]).2 hlacks
  · obtain ⟨r', hr'⟩ := Atom.exists_firstResult? (plain_of_compile h).1 (hpath hr)
    have hsame := (hunique hr).symm.trans (hunique (hresult hr'))
    obtain ⟨-, hlist⟩ := Machine.mk.inj hsame
    rw [hr', (List.cons.inj hlist).1]

/-- A sequence of a choice, of a sequence with nothing in it and of a choice inside a choice: the
run takes both first choices and leaves one result. With an empty choice inside the second part,
that part takes the result of the first one, and the outer packing lacks one. -/
theorem one_result_iff_no_empty_choice_nested :
    let a : Atom := .sequence [.choice [.literal "a", .choice []], .sequence [],
      .choice [.choice [.literal "b"], .literal "c"]]
    let b : Atom := .sequence [.literal "a", .sequence [.choice []]]
    let p := a.program "id"
    let q := b.program "id"
    (compile 0 "id" a).result = .ok p ∧ (compile 0 "id" b).result = .ok q ∧
      p.Reaches {} ⟨p.size, [.sequence [.text "a", .sequence [], .text "b"]]⟩ ∧
      (∀ s, p.Reaches {} s → ¬ p.Lacks s) ∧
      ¬ ((∀ s, q.Reaches {} s → ¬ q.Lacks s) ∧ ∃ r, q.Reaches {} ⟨q.size, [r]⟩) := by
  intro a b p q
  have hp : (compile 0 "id" a).result = .ok p := by rfl
  have hq : (compile 0 "id" b).result = .ok q := by rfl
  obtain ⟨hiff, hresult, -⟩ := one_result_iff_no_empty_choice 0 "id" a p hp
  obtain ⟨hiff', -⟩ := one_result_iff_no_empty_choice 0 "id" b q hq
  refine ⟨hp, hq, (hresult _).mpr rfl, (hiff.mpr (by decide)).1, fun hone ↦ ?_⟩
  exact absurd (hiff'.mp hone) (by decide)

end Compile

end GrammarCode
