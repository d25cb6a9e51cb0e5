import GrammarCode.Text.Utf8

/-!
# Readings of bytes as UTF-8

A reading loses no byte, and the encoding of characters reads as these characters. So the text that
a byte string shows is well-formed, and a well-formed byte string shows itself.
-/

namespace GrammarCode

namespace Utf8

/-! ### Well-formed sequences -/

/-- The sequences that encode one character, with its number. The second byte keeps out overlong
forms, surrogates and numbers that are too large. -/
inductive Formed : Bytes → Nat → Prop where
  | one (b : UInt8) (high : b.toNat < 0x80) : Formed [b] b.toNat
  | two (b x : UInt8) (low : 0xC2 ≤ b.toNat) (high : b.toNat < 0xE0) (hx : isTail x = true) :
    Formed [b, x] (b.toNat % 32 * 64 + payload x)
  | three (b x y : UInt8) (low : 0xE0 ≤ b.toNat) (high : b.toNat < 0xF0) (hx : isTail x = true)
      (hy : isTail y = true) (overlong : b.toNat = 0xE0 → 0xA0 ≤ x.toNat)
      (surrogate : b.toNat = 0xED → x.toNat ≤ 0x9F) :
    Formed [b, x, y] (b.toNat % 16 * 4096 + payload x * 64 + payload y)
  | four (b x y z : UInt8) (low : 0xF0 ≤ b.toNat) (high : b.toNat < 0xF5) (hx : isTail x = true)
      (hy : isTail y = true) (hz : isTail z = true) (overlong : b.toNat = 0xF0 → 0x90 ≤ x.toNat)
      (large : b.toNat = 0xF4 → x.toNat ≤ 0x8F) :
    Formed [b, x, y, z]
      (b.toNat % 8 * 262144 + payload x * 4096 + payload y * 64 + payload z)

private theorem toNat_byte {n : Nat} (h : n < 256) : (UInt8.ofNat n).toNat = n := by
  rw [UInt8.toNat_ofNat']
  omega

private theorem ofNat_byte {n : Nat} {b : UInt8} (h : n = b.toNat) : UInt8.ofNat n = b := by
  rw [h, UInt8.ofNat_toNat]

/-- A character made from a valid code has that code. -/
theorem val_ofNat {n : Nat} (h : n.isValidChar) : (Char.ofNat n).val.toNat = n := by
  rw [Char.ofNat, dif_pos h]
  rfl

private theorem isTail_iff (b : UInt8) : isTail b = true ↔ 0x80 ≤ b.toNat ∧ b.toNat ≤ 0xBF := by
  simp [isTail, UInt8.le_iff_toNat_le]

private theorem isTail_ofNat (n : Nat) : isTail (UInt8.ofNat (n % 64 + 0x80)) = true := by
  rw [isTail_iff, toNat_byte (by omega)]
  omega

private theorem payload_ofNat (n : Nat) : payload (UInt8.ofNat (n % 64 + 0x80)) = n % 64 := by
  rw [payload, toNat_byte (by omega)]
  omega

/-- The encoding of a character is well-formed. -/
theorem formed_encode (c : Char) : Formed (String.utf8EncodeChar c) c.toNat := by
  have hvalid : c.val.toNat < 0xD800 ∨ 0xDFFF < c.val.toNat ∧ c.val.toNat < 0x110000 := c.valid
  change Formed _ c.val.toNat
  fun_cases String.utf8EncodeChar c with
  | case1 v h =>
    have hb := toNat_byte (show v < 256 by omega)
    have hf := Formed.one (UInt8.ofNat v) (by omega)
    rwa [hb] at hf
  | case2 v h1 h =>
    have hb := toNat_byte (show v / 64 % 32 + 0xC0 < 256 by omega)
    have hf := Formed.two (UInt8.ofNat (v / 64 % 32 + 0xC0)) _ (by omega) (by omega)
      (isTail_ofNat v)
    rwa [hb, payload_ofNat, show (v / 64 % 32 + 0xC0) % 32 * 64 + v % 64 = v by omega] at hf
  | case3 v h1 h2 h =>
    have hb := toNat_byte (show v / 4096 % 16 + 0xE0 < 256 by omega)
    have hx := toNat_byte (show v / 64 % 64 + 0x80 < 256 by omega)
    have hf := Formed.three (UInt8.ofNat (v / 4096 % 16 + 0xE0)) _ _ (by omega) (by omega)
      (isTail_ofNat (v / 64)) (isTail_ofNat v) (by omega) (by omega)
    rwa [hb, payload_ofNat, payload_ofNat,
      show (v / 4096 % 16 + 0xE0) % 16 * 4096 + v / 64 % 64 * 64 + v % 64 = v by omega] at hf
  | case4 v h1 h2 h =>
    have hb := toNat_byte (show v / 262144 % 8 + 0xF0 < 256 by omega)
    have hx := toNat_byte (show v / 4096 % 64 + 0x80 < 256 by omega)
    have hf := Formed.four (UInt8.ofNat (v / 262144 % 8 + 0xF0)) _ _ _ (by omega) (by omega)
      (isTail_ofNat (v / 4096)) (isTail_ofNat (v / 64)) (isTail_ofNat v) (by omega) (by omega)
    rwa [hb, payload_ofNat, payload_ofNat, payload_ofNat,
      show (v / 262144 % 8 + 0xF0) % 8 * 262144 + v / 4096 % 64 * 4096 + v / 64 % 64 * 64 +
        v % 64 = v by omega] at hf

-- What a tail byte has as a number.
private theorem toNat_tail {b : UInt8} (h : isTail b = true) :
    b.toNat = payload b + 0x80 ∧ payload b < 64 := by
  rw [isTail_iff] at h
  rw [payload]
  omega

/-- A well-formed sequence is the encoding of the character with its number. -/
theorem Formed.encode_eq {s : Bytes} {n : Nat} (h : Formed s n) :
    String.utf8EncodeChar (Char.ofNat n) = s := by
  unfold String.utf8EncodeChar
  cases h with
  | one b high =>
    have hv := val_ofNat (n := b.toNat) (Or.inl (by omega))
    simp only [hv]
    rw [if_pos (by omega), UInt8.ofNat_toNat]
  | two b x low high hx =>
    have hx := toNat_tail hx
    have hv := val_ofNat (n := b.toNat % 32 * 64 + payload x) (Or.inl (by omega))
    simp only [hv]
    rw [if_neg (by omega), if_pos (by omega), ofNat_byte (b := b) (by omega),
      ofNat_byte (b := x) (by omega)]
  | three b x y low high hx hy overlong surrogate =>
    have hx := toNat_tail hx
    have hy := toNat_tail hy
    have hv := val_ofNat (n := b.toNat % 16 * 4096 + payload x * 64 + payload y)
      (by rw [Nat.isValidChar]; omega)
    simp only [hv]
    rw [if_neg (by omega), if_neg (by omega), if_pos (by omega), ofNat_byte (b := b) (by omega),
      ofNat_byte (b := x) (by omega), ofNat_byte (b := y) (by omega)]
  | four b x y z low high hx hy hz overlong large =>
    have hx := toNat_tail hx
    have hy := toNat_tail hy
    have hz := toNat_tail hz
    have hv := val_ofNat
      (n := b.toNat % 8 * 262144 + payload x * 4096 + payload y * 64 + payload z)
      (by rw [Nat.isValidChar]; omega)
    simp only [hv]
    rw [if_neg (by omega), if_neg (by omega), if_neg (by omega), ofNat_byte (b := b) (by omega),
      ofNat_byte (b := x) (by omega), ofNat_byte (b := y) (by omega),
      ofNat_byte (b := z) (by omega)]

/-- A byte of a well-formed sequence is its number, or is not ASCII. -/
theorem Formed.mem_cases {s : Bytes} {n : Nat} (h : Formed s n) :
    ∀ b ∈ s, b.toNat = n ∨ 0x80 ≤ b.toNat := by
  have htail {b : UInt8} (hb : isTail b = true) : 0x80 ≤ b.toNat := ((isTail_iff b).mp hb).1
  cases h with
  | one b high => simp
  | two b x low high hx =>
    simp only [List.mem_cons, List.not_mem_nil, or_false, forall_eq_or_imp, forall_eq]
    exact ⟨Or.inr (by omega), Or.inr (htail hx)⟩
  | three b x y low high hx hy overlong surrogate =>
    simp only [List.mem_cons, List.not_mem_nil, or_false, forall_eq_or_imp, forall_eq]
    exact ⟨Or.inr (by omega), Or.inr (htail hx), Or.inr (htail hy)⟩
  | four b x y z low high hx hy hz overlong large =>
    simp only [List.mem_cons, List.not_mem_nil, or_false, forall_eq_or_imp, forall_eq]
    exact ⟨Or.inr (by omega), Or.inr (htail hx), Or.inr (htail hy), Or.inr (htail hz)⟩

private theorem not_lt_byte {b m : UInt8} (h : m.toNat ≤ b.toNat) : ¬ b < m := by
  rw [UInt8.lt_iff_toNat_lt]
  omega

private theorem lower_iff {p : Prop} [Decidable p] {x l : UInt8} (hl : 0x80 ≤ l.toNat) :
    (if p then l else 0x80) ≤ x ↔ 0x80 ≤ x.toNat ∧ (p → l.toNat ≤ x.toNat) := by
  rw [UInt8.le_iff_toNat_le]
  by_cases hp : p
  · simp only [hp, if_true, forall_const]
    omega
  · simp [hp]

private theorem upper_iff {p : Prop} [Decidable p] {x h : UInt8} (hh : h.toNat ≤ 0xBF) :
    (x ≤ if p then h else 0xBF) ↔ x.toNat ≤ 0xBF ∧ (p → x.toNat ≤ h.toNat) := by
  rw [UInt8.le_iff_toNat_le]
  by_cases hp : p
  · simp only [hp, if_true, forall_const]
    omega
  · simp [hp]

-- The bounds that a first byte sets for the second one.
private theorem bounds_iff {b x : UInt8} (low high l h : UInt8) (hl : 0x80 ≤ l.toNat)
    (hh : h.toNat ≤ 0xBF) :
    (decide ((if b = low then l else 0x80) ≤ x) && decide (x ≤ if b = high then h else 0xBF)) =
        true ↔
      isTail x = true ∧ (b.toNat = low.toNat → l.toNat ≤ x.toNat) ∧
        (b.toNat = high.toNat → x.toNat ≤ h.toNat) := by
  rw [isTail_iff, Bool.and_eq_true, decide_eq_true_eq, decide_eq_true_eq, lower_iff hl,
    upper_iff hh, UInt8.toNat_inj, UInt8.toNat_inj]
  exact ⟨fun ⟨⟨h1, h2⟩, h3, h4⟩ ↦ ⟨⟨h1, h3⟩, h2, h4⟩, fun ⟨⟨h1, h3⟩, h2, h4⟩ ↦ ⟨⟨h1, h2⟩, h3, h4⟩⟩

/-- A well-formed sequence is taken whole, whatever follows it. -/
theorem Formed.first?_eq {b : UInt8} {tail : Bytes} {n : Nat} (h : Formed (b :: tail) n)
    (rest : Bytes) : first? b (tail ++ rest) = some (Char.ofNat n, tail.length) := by
  unfold first?
  cases h with
  | one b high =>
    exact if_pos (UInt8.lt_iff_toNat_lt.mpr high)
  | two b x low high hx =>
    have h1 : ¬ b < 0x80 := not_lt_byte (Nat.le_trans (by decide) low)
    have h2 : ¬ b < 0xC2 := not_lt_byte low
    have h3 : b < 0xE0 := UInt8.lt_iff_toNat_lt.mpr high
    simp only [if_neg h1, if_neg h2, if_pos h3, List.cons_append, if_pos hx]
    rfl
  | three b x y low high hx hy overlong surrogate =>
    have h1 : ¬ b < 0x80 := not_lt_byte (Nat.le_trans (by decide) low)
    have h2 : ¬ b < 0xC2 := not_lt_byte (Nat.le_trans (by decide) low)
    have h3 : ¬ b < 0xE0 := not_lt_byte low
    have h4 : b < 0xF0 := UInt8.lt_iff_toNat_lt.mpr high
    have hb := (bounds_iff 0xE0 0xED 0xA0 0x9F (by decide) (by decide)).mpr
      ⟨hx, overlong, surrogate⟩
    simp only [if_neg h1, if_neg h2, if_neg h3, if_pos h4, List.cons_append, hb, hy, Bool.and_self,
      ↓reduceIte]
    rfl
  | four b x y z low high hx hy hz overlong large =>
    have h1 : ¬ b < 0x80 := not_lt_byte (Nat.le_trans (by decide) low)
    have h2 : ¬ b < 0xC2 := not_lt_byte (Nat.le_trans (by decide) low)
    have h3 : ¬ b < 0xE0 := not_lt_byte (Nat.le_trans (by decide) low)
    have h4 : ¬ b < 0xF0 := not_lt_byte low
    have h5 : b < 0xF5 := UInt8.lt_iff_toNat_lt.mpr high
    have hb := (bounds_iff 0xF0 0xF4 0x90 0x8F (by decide) (by decide)).mpr
      ⟨hx, overlong, large⟩
    simp only [if_neg h1, if_neg h2, if_neg h3, if_neg h4, if_pos h5, List.cons_append, hb, hy, hz,
      Bool.and_self, ↓reduceIte]
    rfl

/-- Whatever is taken for a character is a well-formed sequence. -/
theorem formed_of_first? {b : UInt8} {rest : Bytes} {c : Char} {k : Nat}
    (h : first? b rest = some (c, k)) :
    ∃ n, c = Char.ofNat n ∧ Formed (b :: rest.take k) n := by
  revert h
  fun_cases first? b rest with
  | case1 rest high =>
    rintro ⟨⟩
    exact ⟨_, rfl, Formed.one b (UInt8.lt_iff_toNat_lt.mp high)⟩
  | case3 h1 low high x t hx =>
    rintro ⟨⟩
    exact ⟨_, rfl, Formed.two b x (UInt8.not_lt.mp low) (UInt8.lt_iff_toNat_lt.mp high) hx⟩
  | case6 h1 h2 low high x y t l h hx =>
    rintro ⟨⟩
    obtain ⟨hb, hy⟩ := Bool.and_eq_true_iff.mp hx
    obtain ⟨hx, overlong, surrogate⟩ := (bounds_iff _ _ _ _ (by decide) (by decide)).mp hb
    exact ⟨_, rfl, Formed.three b x y (UInt8.not_lt.mp low) (UInt8.lt_iff_toNat_lt.mp high) hx hy
      overlong surrogate⟩
  | case9 h1 h2 h3 low high x y z t l h hx =>
    rintro ⟨⟩
    obtain ⟨hbounds, hz⟩ := Bool.and_eq_true_iff.mp hx
    obtain ⟨hb, hy⟩ := Bool.and_eq_true_iff.mp hbounds
    obtain ⟨hx, overlong, large⟩ := (bounds_iff _ _ _ _ (by decide) (by decide)).mp hb
    exact ⟨_, rfl, Formed.four b x y z (UInt8.not_lt.mp low) (UInt8.lt_iff_toNat_lt.mp high) hx hy
      hz overlong large⟩
  | case2 | case4 | case5 | case7 | case8 | case10 | case11 | case12 =>
    intro h
    cases h

/-! ### Readings -/

/-- What belongs to a character already taken is passed over. -/
theorem glyphsAfter_eq (skip : Nat) (b : Bytes) : glyphsAfter skip b = glyphs (b.drop skip) := by
  induction skip generalizing b with
  | zero => rfl
  | succ k ih =>
    cases b with
    | nil => rfl
    | cons x rest => exact ih rest

/-- A character reads as itself, whatever follows it. -/
theorem glyphs_encode_append (c : Char) (rest : Bytes) :
    glyphs (String.utf8EncodeChar c ++ rest) = .char c :: glyphs rest := by
  have hc := formed_encode c
  cases he : String.utf8EncodeChar c with
  | nil => exact absurd he String.utf8EncodeChar_ne_nil
  | cons b tail =>
    rw [he] at hc
    have hfirst := hc.first?_eq rest
    rw [Char.ofNat_toNat] at hfirst
    rw [List.cons_append, glyphs, glyphsAfter, hfirst]
    simp only [glyphsAfter_eq, List.drop_left]

/-- Encoded characters read as these characters. -/
theorem glyphs_encode (cs : List Char) :
    glyphs (cs.flatMap String.utf8EncodeChar) = cs.map .char := by
  induction cs with
  | nil => rfl
  | cons c rest ih => rw [List.flatMap_cons, glyphs_encode_append, ih, List.map_cons]

/-- A byte string is read either as a character and what follows it, or as a stray byte and what
follows that. -/
theorem glyphs_cons (b : UInt8) (rest : Bytes) :
    (∃ c more, String.utf8EncodeChar c ++ more = b :: rest ∧
        glyphs (b :: rest) = .char c :: glyphs more) ∨
      glyphs (b :: rest) = .stray b :: glyphs rest := by
  rw [glyphs, glyphsAfter]
  cases h : first? b rest with
  | none => exact Or.inr rfl
  | some r =>
    obtain ⟨c, k⟩ := r
    obtain ⟨n, rfl, hn⟩ := formed_of_first? h
    refine Or.inl ⟨Char.ofNat n, rest.drop k, ?_, ?_⟩
    · rw [hn.encode_eq, List.cons_append, List.take_append_drop]
    · simp only [glyphsAfter_eq]

/-- A reading loses no byte. -/
theorem flatMap_bytes_glyphs (b : Bytes) : (glyphs b).flatMap Glyph.bytes = b := by
  induction hn : b.length using Nat.strongRecOn generalizing b with
  | ind n ih =>
    cases b with
    | nil => rfl
    | cons x rest =>
      rcases glyphs_cons x rest with ⟨c, more, hmore, hg⟩ | hg
      · have hlength := congrArg List.length hmore
        have hpos := List.length_pos_iff.mpr (String.utf8EncodeChar_ne_nil (c := c))
        rw [List.length_append] at hlength
        rw [hg, List.flatMap_cons, ih more.length (by omega) more rfl, Glyph.bytes, hmore]
      · rw [List.length_cons] at hn
        rw [hg, List.flatMap_cons, ih rest.length (by omega) rest rfl]
        rfl

/-! ### The text that a byte string shows -/

/-- The text that a byte string shows is that of its characters, with U+FFFD for stray bytes. -/
theorem repair_eq (b : Bytes) :
    repair b = ((glyphs b).map Glyph.shown).flatMap String.utf8EncodeChar := by
  rw [repair, List.flatMap_map]

/-- Encoded characters show themselves. -/
theorem repair_encode (cs : List Char) :
    repair (cs.flatMap String.utf8EncodeChar) = cs.flatMap String.utf8EncodeChar := by
  rw [repair_eq, glyphs_encode, List.map_map]
  congr 1
  exact List.map_id cs

/-- So do the bytes of a string. -/
@[simp] theorem repair_ofString (s : String) : repair (Bytes.ofString s) = Bytes.ofString s :=
  repair_encode s.toList

/-- What a byte string shows is well-formed. -/
theorem isValid_repair (b : Bytes) : isValid (repair b) = true := by
  rw [repair_eq, isValid, glyphs_encode, List.all_map]
  exact List.all_eq_true.mpr fun _ _ ↦ rfl

/-- Bytes that are all ASCII are well-formed. -/
theorem isValid_of_ascii {b : Bytes} (h : ∀ x ∈ b, x.toNat < 0x80) : isValid b = true := by
  induction b with
  | nil => rfl
  | cons x rest ih =>
    have hx : String.utf8EncodeChar (Char.ofNat x.toNat) = [x] :=
      (Formed.one x (h x List.mem_cons_self)).encode_eq
    have hglyphs := glyphs_encode_append (Char.ofNat x.toNat) rest
    rw [hx] at hglyphs
    have hrest : isValid rest = true := ih fun y hy ↦ h y (List.mem_cons_of_mem x hy)
    rw [isValid] at hrest ⊢
    rw [← List.singleton_append, hglyphs, List.all_cons, hrest]
    rfl

/-- Well-formed byte strings show themselves. -/
theorem repair_of_isValid {b : Bytes} (h : isValid b = true) : repair b = b := by
  have hall := List.all_eq_true.mp h
  calc repair b = (glyphs b).flatMap Glyph.bytes := by
        rw [repair, List.flatMap_def, List.flatMap_def]
        congr 1
        apply List.map_congr_left
        intro g hg
        cases g with
        | char c => rfl
        | stray x => exact absurd (hall _ hg) Bool.false_ne_true
    _ = b := flatMap_bytes_glyphs b

/-- A byte string that shows nothing is empty. -/
theorem repair_eq_nil_iff (b : Bytes) : repair b = [] ↔ b = [] := by
  constructor
  · intro h
    cases b with
    | nil => rfl
    | cons x rest =>
      have hne (c : Char) := String.utf8EncodeChar_ne_nil (c := c)
      rcases glyphs_cons x rest with ⟨c, more, -, hg⟩ | hg
      · simp [repair, hg, hne] at h
      · simp [repair, hg, hne] at h
  · rintro rfl
    rfl

end Utf8

end GrammarCode
