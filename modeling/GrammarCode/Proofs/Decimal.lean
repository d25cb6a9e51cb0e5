import GrammarCode.Program.Serial

/-!
# Decimal numbers

The decimal text of a number has digits only, no zero in front, and gives the number back: as the
value of its digits, and as a JSON number of 64 bits.
-/

namespace GrammarCode

namespace Bytes

/-- The byte of a decimal digit. -/
def digitByte (d : Nat) : UInt8 := (0x30 + d).toUInt8

private theorem toNat_digitByte {d : Nat} (h : d < 10) : (digitByte d).toNat = 0x30 + d := by
  rw [digitByte, Nat.toUInt8, UInt8.toNat_ofNat']
  omega

private theorem digitChar_byte {d : Nat} (h : d < 10) :
    (Nat.digitChar d).toNat.toUInt8 = digitByte d := by
  have all : ∀ d : Fin 10, (Nat.digitChar d.val).toNat.toUInt8 = digitByte d.val := by decide
  exact all ⟨d, h⟩

/-- The last digit stands at the end, behind the text of the other ones. -/
theorem decimalNat_eq (n : Nat) :
    decimalNat n = (if n < 10 then [] else decimalNat (n / 10)) ++ [digitByte (n % 10)] := by
  rw [decimalNat, Nat.toDigits_eq_if (by decide)]
  split
  · next h => simp [digitChar_byte h, Nat.mod_eq_of_lt h]
  · simp [decimalNat, digitChar_byte (Nat.mod_lt n (by decide))]

/-- Induction over decimal texts, from the last digit. -/
theorem decimal_induction {motive : Nat → Prop} (digit : ∀ n, n < 10 → motive n)
    (more : ∀ n, ¬ n < 10 → motive (n / 10) → motive n) (n : Nat) : motive n := by
  induction n using Nat.strongRecOn with
  | ind n ih =>
    by_cases h : n < 10
    · exact digit n h
    · exact more n h (ih (n / 10) (by omega))

private theorem isDigit_digitByte {d : Nat} (h : d < 10) : Json.isDigit (digitByte d) = true := by
  have hd := toNat_digitByte h
  simp only [Json.isDigit, Bool.and_eq_true, decide_eq_true_eq, UInt8.le_iff_toNat_le]
  rw [hd]
  exact ⟨by simp, by simp; omega⟩

/-- A decimal text has digits only. -/
theorem isDigit_of_mem_decimalNat (n : Nat) : ∀ b ∈ decimalNat n, Json.isDigit b = true := by
  have last (n : Nat) : Json.isDigit (digitByte (n % 10)) = true :=
    isDigit_digitByte (Nat.mod_lt n (by decide))
  induction n using decimal_induction with
  | digit n h =>
    rw [decimalNat_eq, if_pos h]
    simpa using last n
  | more n h ih =>
    rw [decimalNat_eq, if_neg h]
    simpa [or_imp, forall_and, last n] using ih

private theorem digitsValue_append_digit (acc d : Nat) (ds : Bytes) (h : d < 10) :
    Serial.digitsValue acc (ds ++ [digitByte d]) = Serial.digitsValue acc ds * 10 + d := by
  simp only [Serial.digitsValue, List.foldl_append, List.foldl_cons, List.foldl_nil,
    toNat_digitByte h]
  omega

/-- The digits of a number have its value. -/
theorem digitsValue_decimalNat (n : Nat) : Serial.digitsValue 0 (decimalNat n) = n := by
  have hlast (n : Nat) : n % 10 < 10 := Nat.mod_lt n (by decide)
  induction n using decimal_induction with
  | digit n h =>
    rw [decimalNat_eq, if_pos h, digitsValue_append_digit 0 _ [] (hlast n)]
    simp only [Serial.digitsValue, List.foldl_nil]
    omega
  | more n h ih =>
    rw [decimalNat_eq, if_neg h, digitsValue_append_digit 0 _ _ (hlast n), ih]
    omega

/-- Different numbers have different texts. -/
theorem decimalNat_inj {m n : Nat} (h : decimalNat m = decimalNat n) : m = n := by
  rw [← digitsValue_decimalNat m, h, digitsValue_decimalNat]

/-- A decimal text has digits only, and a minus sign in front if the number is negative. -/
theorem mem_decimal_cases {n : Int} {b : UInt8} (h : b ∈ decimal n) :
    Json.isDigit b = true ∨ b = 0x2D := by
  cases n with
  | ofNat m => exact Or.inl (isDigit_of_mem_decimalNat m b h)
  | negSucc m =>
    rcases List.mem_cons.mp h with rfl | h
    · exact Or.inr rfl
    · exact Or.inl (isDigit_of_mem_decimalNat _ b h)

/-- Different integers have different texts. -/
theorem decimal_inj {m n : Int} (h : decimal m = decimal n) : m = n := by
  -- The minus sign of a negative number is no digit of the other text.
  have hsign (k l : Nat) : decimalNat k ≠ 0x2D :: decimalNat l := by
    intro he
    have hdigit := isDigit_of_mem_decimalNat k 0x2D (by rw [he]; exact List.mem_cons_self)
    exact absurd hdigit (by decide)
  cases m with
  | ofNat k =>
    cases n with
    | ofNat l => exact congrArg Int.ofNat (decimalNat_inj h)
    | negSucc l => exact absurd h (hsign k (l + 1))
  | negSucc k =>
    cases n with
    | ofNat l => exact absurd h.symm (hsign l (k + 1))
    | negSucc l =>
      have hkl := decimalNat_inj (List.cons.inj h).2
      exact congrArg Int.negSucc (Nat.succ.inj hkl)

/-- The text of a number that is not zero starts with another digit than zero. -/
theorem decimalNat_head (n : Nat) (hn : n ≠ 0) :
    ∃ b rest, decimalNat n = b :: rest ∧ b ≠ 0x30 := by
  induction n using decimal_induction with
  | digit n h =>
    refine ⟨digitByte n, [], ?_, ?_⟩
    · rw [decimalNat_eq, if_pos h, List.nil_append, Nat.mod_eq_of_lt h]
    · intro he
      have hv := congrArg UInt8.toNat he
      rw [toNat_digitByte h] at hv
      simp at hv
      omega
  | more n h ih =>
    obtain ⟨b, rest, hb, hz⟩ := ih (by omega)
    exact ⟨b, rest ++ [digitByte (n % 10)], by rw [decimalNat_eq, if_neg h, hb]; rfl, hz⟩

end Bytes

/-- The integers of 64 bits with sign. -/
def Integer.Fits64 (n : Int) : Prop := -(half64 : Int) ≤ n ∧ n < half64

instance (n : Int) : Decidable (Integer.Fits64 n) :=
  inferInstanceAs (Decidable (-(Integer.half64 : Int) ≤ n ∧ n < Integer.half64))

/-- A number of 64 bits is read back from its decimal text. -/
theorem Serial.int64?_decimal (n : Int) (h : Integer.Fits64 n) :
    Serial.int64? (Bytes.decimal n) = some n := by
  obtain ⟨hlow, hhigh⟩ := h
  have hall (m : Nat) : (Bytes.decimalNat m).all Json.isDigit = true :=
    List.all_eq_true.mpr (Bytes.isDigit_of_mem_decimalNat m)
  cases n with
  | ofNat m =>
    have hsign : ∀ ds, Bytes.decimalNat m ≠ 0x2D :: ds := by
      intro ds he
      have hd := Bytes.isDigit_of_mem_decimalNat m 0x2D (by rw [he]; exact List.mem_cons_self)
      exact absurd hd (by decide)
    rw [Bytes.decimal, Serial.int64?]
    · have hm : m < Integer.half64 := Int.ofNat_lt.mp hhigh
      rw [Bytes.digitsValue_decimalNat, hall, Bool.true_and, if_pos (decide_eq_true hm)]
      rfl
    · exact hsign
  | negSucc m =>
    have hm : m + 1 ≤ Integer.half64 := by omega
    simp only [Bytes.decimal, Serial.int64?, Bytes.digitsValue_decimalNat, hall, hm]
    rfl

end GrammarCode
