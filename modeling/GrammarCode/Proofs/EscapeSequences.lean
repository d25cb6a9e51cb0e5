import GrammarCode.Proofs.Decimal
import GrammarCode.Text.Style
import Mathlib.Data.List.Forall2

/-!
# Escape sequences

A styled text displays what is left of it without its escape sequences, and that is what removing
the sequences gives. Any ESC that belongs to none would make the sequences depend on what stands
beside them; so texts with such an ESC display nothing here.
-/

namespace GrammarCode

namespace Text.Style

/-! ### What a styled text displays -/

/-- A complete escape sequence: an ESC, a bracket, parameters and a letter. -/
inductive Complete : Bytes → Prop
  | intro {parameters : Bytes} {letter : UInt8} :
      (∀ b ∈ parameters, isParameter b = true) → isLetter letter = true →
      Complete (0x1B :: 0x5B :: parameters ++ [letter])

/-- What a styled text displays: a complete sequence shows nothing, a byte other than ESC shows
itself. An ESC outside a sequence is not allowed. -/
inductive Displays : Bytes → Bytes → Prop
  | nil : Displays [] []
  | byte {b : UInt8} {t p : Bytes} : b ≠ 0x1B → Displays t p → Displays (b :: t) (b :: p)
  | sequence {s t p : Bytes} : Complete s → Displays t p → Displays (s ++ t) p

namespace Displays

theorem append {s t p q : Bytes} (hs : Displays s p) (ht : Displays t q) :
    Displays (s ++ t) (p ++ q) := by
  induction hs with
  | nil => exact ht
  | byte hb _ ih => exact .byte hb ih
  | sequence hs _ ih =>
    rw [List.append_assoc]
    exact .sequence hs ih

theorem flatten {ts ps : List Bytes} (h : List.Forall₂ Displays ts ps) :
    Displays ts.flatten ps.flatten := by
  induction h with
  | nil => exact .nil
  | cons hhead _ ih => exact hhead.append ih

/-- A text without ESC displays itself. -/
theorem self {t : Bytes} (h : 0x1B ∉ t) : Displays t t := by
  induction t with
  | nil => exact .nil
  | cons b t ih =>
    obtain ⟨hb, ht⟩ := not_or.mp (mt List.mem_cons.mpr h)
    exact .byte (Ne.symm hb) (ih ht)

/-- What is displayed has no ESC. -/
theorem escape_notMem {t p : Bytes} (h : Displays t p) : 0x1B ∉ p := by
  induction h with
  | nil => exact List.not_mem_nil
  | byte hb _ ih =>
    rw [List.mem_cons, not_or]
    exact ⟨Ne.symm hb, ih⟩
  | sequence _ _ ih => exact ih

theorem join {sep : Bytes} (hsep : 0x1B ∉ sep) {ts ps : List Bytes}
    (h : List.Forall₂ Displays ts ps) : Displays (Bytes.join sep ts) (Bytes.join sep ps) := by
  induction h with
  | nil => exact .nil
  | cons hhead htail ih =>
    cases htail with
    | nil => exact hhead
    | cons _ _ =>
      rw [Bytes.join_cons_cons, Bytes.join_cons_cons]
      exact (hhead.append (self hsep)).append ih

end Displays

/-! ### Removing sequences -/

private theorem not_isParameter_of_isLetter {b : UInt8} (h : isLetter b = true) :
    isParameter b = false := by
  simp only [isLetter, isParameter, Bool.or_eq_true, Bool.and_eq_true, decide_eq_true_eq,
    Bool.or_eq_false_iff, Bool.and_eq_false_iff, decide_eq_false_iff_not, UInt8.le_iff_toNat_le,
    ← UInt8.toNat_inj, UInt8.reduceToNat] at h ⊢
  omega

private theorem tailLength?_append {parameters : Bytes} {letter : UInt8} (rest : Bytes)
    (hps : ∀ b ∈ parameters, isParameter b = true) (hl : isLetter letter = true) :
    tailLength? (parameters ++ letter :: rest) = some (parameters.length + 1) := by
  induction parameters with
  | nil => simp [tailLength?, not_isParameter_of_isLetter hl, hl]
  | cons b ps ih =>
    rw [List.forall_mem_cons] at hps
    simp [tailLength?, hps.1, ih hps.2]

private theorem stripAfter_eq (skip : Nat) (t : Bytes) :
    stripAfter skip t = strip (t.drop skip) := by
  induction skip generalizing t with
  | zero => rfl
  | succ k ih =>
    cases t with
    | nil => rfl
    | cons b t => simpa [stripAfter] using ih t

theorem strip_cons_of_ne {b : UInt8} (hb : b ≠ 0x1B) (t : Bytes) :
    strip (b :: t) = b :: strip t := by
  simp [strip, stripAfter, hb]

/-- A complete sequence is removed, whatever follows it. -/
theorem Complete.strip_append {s : Bytes} (h : Complete s) (t : Bytes) :
    strip (s ++ t) = strip t := by
  obtain @⟨ps, l, hps, hl⟩ := h
  have hlength : sequenceLength? (0x5B :: (ps ++ l :: t)) = some (ps.length + 2) := by
    simp [sequenceLength?, tailLength?_append t hps hl]
  calc strip (0x1B :: 0x5B :: ps ++ [l] ++ t)
      = stripAfter (ps.length + 2) (0x5B :: (ps ++ l :: t)) := by
        simp [strip, stripAfter, hlength]
    _ = strip t := by
        rw [stripAfter_eq]
        congr 1
        simp [List.drop_append]

/-- Without its sequences a text is what it displays. -/
theorem Displays.strip_eq {t p : Bytes} (h : Displays t p) : strip t = p := by
  induction h with
  | nil => rfl
  | byte hb _ ih => rw [strip_cons_of_ne hb, ih]
  | sequence hs _ ih => rw [hs.strip_append, ih]

/-- Escape sequences have no newline. -/
theorem Displays.newline_notMem {t p : Bytes} (h : Displays t p) (hp : 0x0A ∉ p) :
    0x0A ∉ t := by
  induction h with
  | nil => exact List.not_mem_nil
  | byte _ _ ih =>
    rw [List.mem_cons, not_or] at hp ⊢
    exact ⟨hp.1, ih hp.2⟩
  | sequence hs _ ih =>
    rw [List.mem_append, not_or]
    refine ⟨fun hmem ↦ ?_, ih hp⟩
    obtain ⟨hparameters, hletter⟩ := hs
    simp only [List.cons_append, List.mem_cons, List.mem_append, List.not_mem_nil, or_false] at hmem
    rcases hmem with hmem | hmem | hmem | rfl
    · exact absurd hmem (by decide)
    · exact absurd hmem (by decide)
    · exact absurd (hparameters _ hmem) (by decide)
    · exact absurd hletter (by decide)

/-- The sequence with some numbers is complete. -/
theorem complete_sequence (numbers : List Nat) : Complete (sequence numbers) := by
  refine .intro (fun b hb ↦ ?_) (by decide)
  rcases Bytes.mem_of_mem_join hb with hb | ⟨part, hpart, hb⟩
  · rw [List.mem_singleton.mp hb]
    decide
  · obtain ⟨n, -, rfl⟩ := List.mem_map.mp hpart
    have hdigit := Bytes.isDigit_of_mem_decimalNat n b hb
    unfold isParameter
    rw [show (decide (0x30 ≤ b) && decide (b ≤ 0x39)) = true from hdigit]
    rfl

end Text.Style

end GrammarCode
