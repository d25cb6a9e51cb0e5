import GrammarCode.Proofs.Utf8
import GrammarCode.Text.Quoted
import Mathlib.Algebra.Group.Nat.Defs

/-!
# Quoted text tells bytes apart

Between the quotes every item of a reading is spelled so that it can be taken off the front again,
whatever follows it: a character as it is, a short escape, or two, four or eight digits after a
letter that says how many. Two digits from `80` on are a stray byte, below they are a character. So
the quoted spellings of two byte strings are equal only if the byte strings are.
-/

namespace GrammarCode

/-- A stray byte of a reading is not ASCII. -/
theorem Utf8.le_of_stray_mem {b : UInt8} (s : Bytes) (h : .stray b ∈ glyphs s) :
    0x80 ≤ b.toNat := by
  have hafter (skip : Nat) (s : Bytes) (h : .stray b ∈ glyphsAfter skip s) : 0x80 ≤ b.toNat := by
    induction s generalizing skip with
    | nil => simp [glyphsAfter] at h
    | cons x rest ih =>
      cases skip with
      | succ k => exact ih k h
      | zero =>
        rw [glyphsAfter] at h
        cases hx : first? x rest with
        | some r =>
          rw [hx] at h
          simp only [List.mem_cons, reduceCtorEq, false_or] at h
          exact ih r.2 h
        | none =>
          rw [hx] at h
          simp only [List.mem_cons, Glyph.stray.injEq] at h
          rcases h with rfl | h
          · -- An ASCII byte is always taken for a character.
            have hascii : ¬ b < 0x80 := by
              intro hb
              simp [first?, hb] at hx
            exact UInt8.not_lt.mp hascii
          · exact ih 0 h
  exact hafter 0 s h

namespace Text.Quoted

/-! ### Digits -/

/-- The value of a hexadecimal digit in lower case. -/
def hexValue (b : UInt8) : Nat := if b < 0x61 then b.toNat - 0x30 else b.toNat - 0x57

/-- The number that hexadecimal digits spell. -/
def hexNumber (ds : Bytes) : Nat := ds.foldl (fun n b ↦ n * 16 + hexValue b) 0

private theorem hexValue_hexDigit : ∀ d, d < 16 → hexValue (Bytes.hexDigit d) = d := by decide

/-- Digits of a fixed width spell the number that they can hold. -/
theorem hexNumber_hex (width n : Nat) : hexNumber (Bytes.hex width n) = n % 16 ^ width := by
  induction width generalizing n with
  | zero => simp [Bytes.hex, hexNumber, Nat.mod_one]
  | succ w ih =>
    have hlast : hexNumber (Bytes.hex w (n / 16) ++ [Bytes.hexDigit (n % 16)]) =
        hexNumber (Bytes.hex w (n / 16)) * 16 + n % 16 := by
      simp [hexNumber, List.foldl_append, hexValue_hexDigit _ (Nat.mod_lt n (by decide))]
    have hsplit : n % 16 ^ (w + 1) = n % 16 + 16 * (n / 16 % 16 ^ w) := by
      rw [Nat.pow_succ', Nat.mod_mul]
    rw [Bytes.hex, hlast, ih, hsplit]
    omega

/-! ### Taking an item off the front -/

/-- The number of the character that the letter of a short escape stands for. -/
def shortCode? (letter : UInt8) : Option Nat :=
  match letter with
  | 0x61 => some 0x07
  | 0x62 => some 0x08
  | 0x66 => some 0x0C
  | 0x6E => some 0x0A
  | 0x72 => some 0x0D
  | 0x74 => some 0x09
  | 0x76 => some 0x0B
  | 0x22 => some 0x22
  | 0x5C => some 0x5C
  | _ => none

/-- How many digits the letter of an escape by number announces. -/
def digitCount? (letter : UInt8) : Option Nat :=
  match letter with
  | 0x78 => some 2
  | 0x75 => some 4
  | 0x55 => some 8
  | _ => none

/-- The item that an escape by number stands for: two digits from `80` on are a stray byte. -/
def numbered (width code : Nat) : Glyph :=
  if width = 2 ∧ 0x80 ≤ code then .stray code.toUInt8 else .char (Char.ofNat code)

/-- The item that an escape stands for, after its backslash, and what follows it. -/
def escape? : Bytes → Option (Glyph × Bytes)
  | [] => none
  | letter :: rest =>
    match shortCode? letter with
    | some code => some (.char (Char.ofNat code), rest)
    | none =>
      (digitCount? letter).map fun width ↦
        (numbered width (hexNumber (rest.take width)), rest.drop width)

/-- The item that stands at the front of a text between quotes, and what follows it. -/
def front? : Bytes → Option (Glyph × Bytes)
  | [] => none
  | b :: rest =>
    if b = 0x5C then escape? rest
    else (Utf8.first? b rest).map fun r ↦ (.char r.1, rest.drop r.2)

/-- Every short escape is read back. -/
theorem shortCode?_of_shortEscape? {code : Nat} {letter : UInt8}
    (h : shortEscape? code = some letter) : shortCode? letter = some code := by
  unfold shortEscape? at h
  split at h
  all_goals cases h
  all_goals rfl

-- An escape by number is read back as long as the number has room in its digits.
private theorem front?_digits {letter : UInt8} {width code : Nat}
    (hletter : shortCode? letter = none) (hwidth : digitCount? letter = some width)
    (hcode : code < 16 ^ width) (rest : Bytes) :
    front? (0x5C :: letter :: Bytes.hex width code ++ rest) = some (numbered width code, rest) := by
  have htake : (Bytes.hex width code ++ rest).take width = Bytes.hex width code := by simp
  have hdrop : (Bytes.hex width code ++ rest).drop width = rest := by simp
  simp only [List.cons_append, front?, ↓reduceIte, escape?, hletter, hwidth, Option.map_some, htake,
    hdrop, hexNumber_hex, Nat.mod_eq_of_lt hcode]

private theorem toNat_lt (c : Char) : c.toNat < 0x110000 := by
  rcases c.valid with h | h
  · exact Nat.lt_trans h (by decide)
  · exact h.2

-- So is a character that is spelled by its number: two digits are left to those below `80`.
private theorem front?_codeEscape (c : Char) (rest : Bytes) :
    front? (codeEscape c.toNat ++ rest) = some (.char c, rest) := by
  have hc := toNat_lt c
  have hchar {width : Nat} (h : ¬ (width = 2 ∧ 0x80 ≤ c.toNat)) :
      numbered width c.toNat = .char c := by
    rw [numbered, if_neg h, Char.ofNat_toNat]
  unfold codeEscape
  split
  · next h =>
    simp only [Bool.or_eq_true, decide_eq_true_eq] at h
    rw [front?_digits rfl rfl (by omega), hchar (by omega)]
  · split
    · rw [front?_digits rfl rfl (by omega), hchar (by omega)]
    · rw [front?_digits rfl rfl (by omega), hchar (by omega)]

-- A character that stands for itself is taken whole.
private theorem front?_encode (c : Char) (hc : c.toNat ≠ 0x5C) (rest : Bytes) :
    front? (String.utf8EncodeChar c ++ rest) = some (.char c, rest) := by
  have hformed := Utf8.formed_encode c
  cases he : String.utf8EncodeChar c with
  | nil => exact absurd he String.utf8EncodeChar_ne_nil
  | cons b tail =>
    rw [he] at hformed
    have hb : b ≠ 0x5C := by
      rintro rfl
      rcases hformed.mem_cases 0x5C List.mem_cons_self with h | h
      · exact hc h.symm
      · exact absurd h (by decide)
    rw [List.cons_append, front?, if_neg hb, hformed.first?_eq rest, Char.ofNat_toNat]
    simp

/-- The spelling of an item is taken off the front, whatever follows it. A stray byte has to be one,
that is, not ASCII. -/
theorem front?_item (g : Glyph) (hg : ∀ b, g = .stray b → 0x80 ≤ b.toNat) (rest : Bytes) :
    front? (item g ++ rest) = some (g, rest) := by
  cases g with
  | stray b =>
    have hb := hg b rfl
    rw [item, front?_digits rfl rfl (UInt8.toNat_lt b), numbered, if_pos ⟨rfl, hb⟩,
      Nat.toUInt8, UInt8.ofNat_toNat]
  | char c =>
    rw [item]
    split
    · next letter h =>
      have hcode := shortCode?_of_shortEscape? h
      simp [front?, escape?, hcode]
    · next h =>
      split
      · have hback : c.toNat ≠ 0x5C := by
          intro hc
          simp [shortEscape?, hc] at h
        exact front?_encode c hback rest
      · exact front?_codeEscape c rest

/-! ### Different bytes, different spellings -/

private theorem item_ne_nil (g : Glyph) (hg : ∀ b, g = .stray b → 0x80 ≤ b.toNat) :
    item g ≠ [] := by
  intro h
  have hfront := front?_item g hg []
  rw [h] at hfront
  simp [front?] at hfront

/-- The spellings of items, one after the other, are equal only if the items are. -/
theorem flatMap_item_inj {gs hs : List Glyph}
    (hgs : ∀ b, .stray b ∈ gs → 0x80 ≤ b.toNat) (hhs : ∀ b, .stray b ∈ hs → 0x80 ≤ b.toNat)
    (h : gs.flatMap item = hs.flatMap item) : gs = hs := by
  induction gs generalizing hs with
  | nil =>
    cases hs with
    | nil => rfl
    | cons g hs =>
      have hne := item_ne_nil g fun b hb ↦ hhs b (by simp [hb])
      simp [hne] at h
  | cons g gs ih =>
    have hg := front?_item g (fun b hb ↦ hgs b (by simp [hb])) (gs.flatMap item)
    cases hs with
    | nil =>
      rw [← List.flatMap_cons, h] at hg
      simp [front?] at hg
    | cons g' hs =>
      have hg' := front?_item g' (fun b hb ↦ hhs b (by simp [hb])) (hs.flatMap item)
      rw [← List.flatMap_cons, ← h, List.flatMap_cons, hg] at hg'
      obtain ⟨rfl, hrest⟩ := Prod.mk.inj (Option.some.inj hg')
      rw [ih (fun b hb ↦ hgs b (List.mem_cons_of_mem g hb))
        (fun b hb ↦ hhs b (List.mem_cons_of_mem g hb)) hrest]

end Text.Quoted

/-- Different byte strings have different quoted spellings, also where they are no UTF-8. -/
theorem Text.quoted_inj {a b : Bytes} (h : quoted a = quoted b) : a = b := by
  have hitems : (Utf8.glyphs a).flatMap Quoted.item = (Utf8.glyphs b).flatMap Quoted.item :=
    List.append_cancel_right (List.cons.inj h).2
  have hglyphs : Utf8.glyphs a = Utf8.glyphs b :=
    Quoted.flatMap_item_inj (fun _ ↦ Utf8.le_of_stray_mem a) (fun _ ↦ Utf8.le_of_stray_mem b) hitems
  rw [← Utf8.flatMap_bytes_glyphs a, hglyphs, Utf8.flatMap_bytes_glyphs]

end GrammarCode
