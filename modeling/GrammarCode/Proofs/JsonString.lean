import GrammarCode.Json.Printer
import GrammarCode.Json.Reader
import GrammarCode.Proofs.Utf8

/-!
# JSON strings read back

An item of a string is written as a short escape, by its number or as it is. In each form the reader
takes it whole and gives back the character that it shows, so a string is read back with its stray
bytes replaced.
-/

namespace GrammarCode

namespace Json

private theorem hexValue?_hexDigit {n : Nat} (h : n < 16) :
    hexValue? (Bytes.hexDigit n) = some n := by
  have all : ∀ n : Fin 16, hexValue? (Bytes.hexDigit n.val) = some n.val := by decide
  exact all ⟨n, h⟩

/-- Four hexadecimal digits give their number back. -/
theorem hex4?_hex {code : Nat} (h : code < 0x10000) (rest : Bytes) :
    hex4? (Bytes.hex 4 code ++ rest) = some code := by
  have hd (n : Nat) : hexValue? (Bytes.hexDigit (n % 16)) = some (n % 16) :=
    hexValue?_hexDigit (Nat.mod_lt n (by decide))
  simp only [Bytes.hex, List.nil_append, List.cons_append, hex4?, hd, Option.bind_eq_bind,
    Option.bind_some, Option.pure_def, Option.some.injEq]
  omega

/-- The bytes that stand for themselves between quotes. -/
def isVerbatim (b : UInt8) : Prop := 0x20 ≤ b.toNat ∧ b.toNat ≠ 0x22 ∧ b.toNat ≠ 0x5C

/-- An item of a string is written as a short escape, by its number, or as it is. -/
theorem stringItem_cases (markup : Bool) (g : Glyph) :
    (∃ e b, stringItem markup g = [0x5C, e] ∧ shortEscape? e = some b ∧
        String.utf8EncodeChar g.shown = [b]) ∨
      (stringItem markup g = unicodeEscape g.shown.toNat ∧ g.shown.toNat < 0xD800) ∨
      (stringItem markup g = String.utf8EncodeChar g.shown ∧
        ∀ b ∈ String.utf8EncodeChar g.shown, isVerbatim b) := by
  have hshown {n : Nat} (h : g.shown.toNat = n) : g.shown = Char.ofNat n := by
    rw [← h, Char.ofNat_toNat]
  unfold stringItem
  dsimp only
  split
  · next h => exact Or.inl ⟨0x22, 0x22, rfl, rfl, by rw [hshown h]; rfl⟩
  · next h => exact Or.inl ⟨0x5C, 0x5C, rfl, rfl, by rw [hshown h]; rfl⟩
  · next h => exact Or.inl ⟨0x62, 0x08, rfl, rfl, by rw [hshown h]; rfl⟩
  · next h => exact Or.inl ⟨0x66, 0x0C, rfl, rfl, by rw [hshown h]; rfl⟩
  · next h => exact Or.inl ⟨0x6E, 0x0A, rfl, rfl, by rw [hshown h]; rfl⟩
  · next h => exact Or.inl ⟨0x72, 0x0D, rfl, rfl, by rw [hshown h]; rfl⟩
  · next h => exact Or.inl ⟨0x74, 0x09, rfl, rfl, by rw [hshown h]; rfl⟩
  · next hquote hback _ _ _ _ _ =>
    split
    · next h =>
      refine Or.inr (Or.inl ⟨rfl, ?_⟩)
      simp only [isMarkup, Bool.or_eq_true, Bool.and_eq_true, decide_eq_true_eq] at h
      omega
    · next h =>
      refine Or.inr (Or.inr ⟨rfl, fun b hb ↦ ?_⟩)
      simp only [Bool.or_eq_true, decide_eq_true_eq, not_or] at h
      rcases (Utf8.formed_encode g.shown).mem_cases b hb with he | he
      · rw [isVerbatim, he]
        exact ⟨Nat.le_of_not_lt h.1.1.1, hquote, hback⟩
      · rw [isVerbatim]
        omega

-- The bytes of an escape are kept as they are.
private theorem rawString_held (held rest : Bytes) :
    rawString held.length (held ++ rest) =
      (rawString 0 rest).map fun r ↦ (held ++ r.1, r.2) := by
  induction held with
  | nil => simp
  | cons b more ih =>
    rw [List.length_cons, List.cons_append, rawString, ih, Option.map_map]
    rfl

private theorem rawString_verbatim (bytes rest : Bytes) (h : ∀ b ∈ bytes, isVerbatim b) :
    rawString 0 (bytes ++ rest) = (rawString 0 rest).map fun r ↦ (bytes ++ r.1, r.2) := by
  induction bytes with
  | nil => simp
  | cons b more ih =>
    obtain ⟨hlow, hquote, hback⟩ := h b List.mem_cons_self
    have h1 : ¬ b = 0x22 := fun he ↦ hquote (congrArg UInt8.toNat he)
    have h2 : ¬ b < 0x20 := by
      rw [UInt8.lt_iff_toNat_lt]
      exact Nat.not_lt.mpr hlow
    have h3 : ¬ b = 0x5C := fun he ↦ hback (congrArg UInt8.toNat he)
    refine (rawString.eq_def 0 (b :: (more ++ rest))).trans ?_
    simp only [if_neg h1, if_neg h2, if_neg h3, ih fun x hx ↦ h x (List.mem_cons_of_mem b hx),
      Option.map_map]
    rfl

-- An escape is kept with the bytes that belong to it.
private theorem rawString_escape {e : UInt8} {digits rest : Bytes}
    (h : (shortEscape? e).isSome = true ∧ digits = [] ∨
      e = 0x75 ∧ digits.length = 4 ∧ (hex4? (digits ++ rest)).isSome = true) :
    rawString 0 (0x5C :: e :: digits ++ rest) =
      (rawString 0 rest).map fun r ↦ (0x5C :: e :: digits ++ r.1, r.2) := by
  have hheld := rawString_held (e :: digits) rest
  refine (rawString.eq_def 0 (0x5C :: e :: (digits ++ rest))).trans ?_
  rcases h with ⟨hshort, rfl⟩ | ⟨rfl, hlength, hhex⟩
  · rw [List.length_singleton] at hheld
    simp only [hshort, if_true]
    exact (congrArg (Option.map _) hheld).trans (Option.map_map _ _ _)
  · rw [List.length_cons, hlength] at hheld
    simp only [hhex]
    exact (congrArg (Option.map _) hheld).trans (Option.map_map _ _ _)

/-- The reader takes an item of a string whole. -/
theorem rawString_stringItem (markup : Bool) (g : Glyph) (rest : Bytes) :
    rawString 0 (stringItem markup g ++ rest) =
      (rawString 0 rest).map fun r ↦ (stringItem markup g ++ r.1, r.2) := by
  rcases stringItem_cases markup g with ⟨e, b, hitem, hshort, -⟩ | ⟨hitem, hcode⟩ | ⟨hitem, hplain⟩
  · rw [hitem]
    exact rawString_escape (Or.inl ⟨by rw [hshort]; rfl, rfl⟩)
  · have hhex := hex4?_hex (show g.shown.toNat < 0x10000 by omega) rest
    rw [hitem]
    exact rawString_escape (Or.inr ⟨rfl, Bytes.length_hex 4 _, by rw [hhex]; rfl⟩)
  · rw [hitem]
    exact rawString_verbatim _ rest hplain

/-- What belongs to an escape already undone is passed over. -/
theorem unescapeAfter_eq (skip : Nat) (b : Bytes) :
    unescapeAfter skip b = unescapeAfter 0 (b.drop skip) := by
  induction skip generalizing b with
  | zero => rfl
  | succ k ih =>
    cases b with
    | nil => rfl
    | cons x rest => exact ih rest

private theorem unescapeAfter_verbatim (bytes rest : Bytes) (h : ∀ b ∈ bytes, isVerbatim b) :
    unescapeAfter 0 (bytes ++ rest) = bytes ++ unescapeAfter 0 rest := by
  induction bytes with
  | nil => rfl
  | cons b more ih =>
    have hback : ¬ b = 0x5C := fun he ↦ (h b List.mem_cons_self).2.2 (congrArg UInt8.toNat he)
    rw [List.cons_append, unescapeAfter, if_neg hback,
      ih fun x hx ↦ h x (List.mem_cons_of_mem b hx), List.cons_append]

private theorem unescapeAfter_short {e b : UInt8} (h : shortEscape? e = some b) (rest : Bytes) :
    unescapeAfter 0 (0x5C :: e :: rest) = b :: unescapeAfter 0 rest := by
  have hunicode : unicodeAt? (0x5C :: e :: rest) = none := by
    unfold unicodeAt?
    split
    · next digits heq =>
      obtain rfl : e = 0x75 := by simpa using (List.cons.inj (List.cons.inj heq).2).1
      have hnone : shortEscape? 0x75 = none := rfl
      rw [hnone] at h
      cases h
    · rfl
  rw [unescapeAfter, if_pos rfl, hunicode]
  simp only [List.head?_cons, Option.bind_some, h, unescapeAfter_eq 1, List.drop_succ_cons,
    List.drop_zero]

private theorem unescapeAfter_unicode {code : Nat} (h : code < 0xD800) (rest : Bytes) :
    unescapeAfter 0 (unicodeEscape code ++ rest) =
      String.utf8EncodeChar (Char.ofNat code) ++ unescapeAfter 0 rest := by
  have hhex := hex4?_hex (show code < 0x10000 by omega) rest
  have hpair (next : Option Nat) : next.bind (pairCode? code) = none := by
    cases next with
    | none => rfl
    | some low =>
      have : ¬ 0xD800 ≤ code := by omega
      simp [pairCode?, this]
  have hbytes : codeBytes code = String.utf8EncodeChar (Char.ofNat code) := by
    rw [codeBytes, if_neg (by simp; omega)]
  have hdrop : (0x75 :: (Bytes.hex 4 code ++ rest)).drop 5 = rest := by
    rw [List.drop_succ_cons]
    exact List.drop_left' (Bytes.length_hex 4 code)
  rw [unicodeEscape, List.cons_append, List.cons_append, unescapeAfter, if_pos rfl, unicodeAt?,
    hhex]
  simp only [hpair, hbytes, unescapeAfter_eq 5, hdrop]

/-- Undoing the escapes of an item gives the character that it shows. -/
theorem unescapeAfter_stringItem (markup : Bool) (g : Glyph) (rest : Bytes) :
    unescapeAfter 0 (stringItem markup g ++ rest) =
      String.utf8EncodeChar g.shown ++ unescapeAfter 0 rest := by
  rcases stringItem_cases markup g with ⟨e, b, hitem, hshort, hb⟩ | ⟨hitem, hcode⟩ | ⟨hitem, hplain⟩
  · rw [hitem, hb]
    exact unescapeAfter_short hshort rest
  · rw [hitem, unescapeAfter_unicode hcode, Char.ofNat_toNat]
  · rw [hitem]
    exact unescapeAfter_verbatim _ rest hplain

private theorem rawString_items (markup : Bool) (gs : List Glyph) (rest : Bytes) :
    rawString 0 (gs.flatMap (stringItem markup) ++ 0x22 :: rest) =
      some (gs.flatMap (stringItem markup), rest) := by
  induction gs with
  | nil => rfl
  | cons g more ih =>
    rw [List.flatMap_cons, List.append_assoc, rawString_stringItem, ih]
    rfl

private theorem unescapeAfter_items (markup : Bool) (gs : List Glyph) :
    unescapeAfter 0 (gs.flatMap (stringItem markup)) =
      (gs.map Glyph.shown).flatMap String.utf8EncodeChar := by
  induction gs with
  | nil => rfl
  | cons g more ih =>
    rw [List.flatMap_cons, unescapeAfter_stringItem, ih, List.map_cons, List.flatMap_cons]

/-- A string opens with a quote and is closed by another before what follows it. -/
theorem stringText_append (markup : Bool) (s rest : Bytes) :
    stringText markup s ++ rest =
      0x22 :: ((Utf8.glyphs s).flatMap (stringItem markup) ++ 0x22 :: rest) := by
  simp [stringText]

/-- A string is read back as the text that it shows. -/
theorem string?_items (markup : Bool) (s rest : Bytes) :
    string? ((Utf8.glyphs s).flatMap (stringItem markup) ++ 0x22 :: rest) =
      some (Utf8.repair s, rest) := by
  rw [string?, rawString_items, Option.map_some, unescape, unescapeAfter_items,
    Utf8.repair_encode, ← Utf8.repair_eq]

/-- A stray byte is written as the character that it shows; writing that character by its number
would be read back alike. -/
example : string? (stringItem true (.stray 0xFF) ++ [0x22]) =
    string? (unicodeEscape 0xFFFD ++ [0x22]) := by decide

end Json

end GrammarCode
