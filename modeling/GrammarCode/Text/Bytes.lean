/-!
# Byte strings

Patterns, names and file contents are byte strings: they need not be valid UTF-8. This module
holds the type, the spelling of strings and numbers in it, and joining with a separator.
-/

namespace GrammarCode

/-- A byte string. -/
abbrev Bytes := List UInt8

namespace Bytes

/-- The UTF-8 bytes of a string. -/
def ofString (s : String) : Bytes := s.toList.flatMap String.utf8EncodeChar

instance : Coe String Bytes := ⟨ofString⟩

/-- Several pieces of text, one after the other. -/
def cat (parts : List Bytes) : Bytes := parts.flatten

/-- The pieces in order with `sep` between neighbours. -/
def join (sep : Bytes) : List Bytes → Bytes
  | [] => []
  | [b] => b
  | b :: rest => b ++ sep ++ join sep rest

/-- `n` copies of one byte. -/
def fill (b : UInt8) (n : Nat) : Bytes := List.replicate n b

/-- The decimal digits of a natural number, without leading zeros. -/
def decimalNat (n : Nat) : Bytes := (Nat.toDigits 10 n).map fun c => c.toNat.toUInt8

/-- The decimal text of an integer, a minus sign before negative ones. -/
def decimal : Int → Bytes
  | .ofNat n => decimalNat n
  | .negSucc n => 0x2D :: decimalNat (n + 1)

/-- The lower-case hexadecimal digit of a number below sixteen. -/
def hexDigit (n : Nat) : UInt8 :=
  if n < 10 then (0x30 + n).toUInt8 else (0x57 + n).toUInt8

/-- The `width` low hexadecimal digits of `n`, most significant first. -/
def hex (width n : Nat) : Bytes :=
  match width with
  | 0 => []
  | w + 1 => hex w (n / 16) ++ [hexDigit (n % 16)]

/-- Whether a byte string contains the other one. -/
def contains (part : Bytes) : Bytes → Bool
  | [] => part.isEmpty
  | b :: rest => part.isPrefixOf (b :: rest) || contains part rest

/-- Order of byte strings, byte by byte, a proper beginning first. -/
def before : Bytes → Bytes → Bool
  | [], b => !b.isEmpty
  | _ :: _, [] => false
  | x :: xs, y :: ys => if x = y then before xs ys else x < y

/-- Upper-case form of the ASCII letters; every other byte is kept. -/
def upperAscii (b : Bytes) : Bytes :=
  b.map fun x => if 0x61 ≤ x && x ≤ 0x7A then x - 0x20 else x

@[simp] theorem join_nil (sep : Bytes) : join sep [] = [] := rfl

@[simp] theorem join_singleton (sep b : Bytes) : join sep [b] = b := rfl

theorem join_cons_cons (sep b c : Bytes) (rest : List Bytes) :
    join sep (b :: c :: rest) = b ++ sep ++ join sep (c :: rest) := rfl

/-- A byte of joined pieces is one of the separator or of a piece. -/
theorem mem_of_mem_join {sep : Bytes} {parts : List Bytes} {b : UInt8} (h : b ∈ join sep parts) :
    b ∈ sep ∨ ∃ part ∈ parts, b ∈ part := by
  fun_induction join sep parts with
  | case1 => cases h
  | case2 part => exact .inr ⟨part, List.mem_singleton_self part, h⟩
  | case3 part rest _ ih =>
    rcases List.mem_append.mp h with h | h
    · rcases List.mem_append.mp h with h | h
      · exact .inr ⟨part, List.mem_cons_self, h⟩
      · exact .inl h
    · rcases ih h with h | ⟨other, hother, h⟩
      · exact .inl h
      · exact .inr ⟨other, List.mem_cons_of_mem part hother, h⟩

@[simp] theorem length_fill (b : UInt8) (n : Nat) : (fill b n).length = n := by
  simp [fill]

@[simp] theorem length_hex (width n : Nat) : (hex width n).length = width := by
  induction width generalizing n with
  | zero => rfl
  | succ w ih => simp [hex, ih]

end Bytes

end GrammarCode
