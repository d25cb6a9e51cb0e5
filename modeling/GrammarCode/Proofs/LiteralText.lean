import GrammarCode.Proofs.ExpressionReader

/-!
# The text of a literal

Every byte of a pattern is written either as it is or as a backslash and a letter, and a backslash
or a quote is never written as it is. So the pattern can be read back from its text, and the text
says by itself where it ends: the first quote that no backslash takes with it closes the literal,
whatever follows.
-/

namespace GrammarCode

namespace Atom

open ExpressionReader (special unescape? escapeByte_cases)

theorem escape_cons (b : UInt8) (s : Bytes) : escape (b :: s) = escapeByte b ++ escape s :=
  List.flatMap_cons

/-- Newlines, tabs and carriage returns do not stand in the text of a pattern as they are. -/
theorem notMem_escape {b : UInt8} (hb : b ∈ [0x0A, 0x09, 0x0D]) (s : Bytes) : b ∉ escape s := by
  have hslash : b ≠ 0x5C := by
    rintro rfl
    exact absurd hb (by decide)
  have hspecial : b ∈ special := List.mem_cons_of_mem _ (List.mem_cons_of_mem _ hb)
  intro h
  obtain ⟨x, -, hx⟩ := List.mem_flatMap.mp h
  rcases escapeByte_cases x with ⟨he, hn⟩ | ⟨c, he, -, hn⟩
  · rw [he, List.mem_singleton] at hx
    exact hn (hx ▸ hspecial)
  · rw [he, List.mem_cons, List.mem_singleton] at hx
    rcases hx with hx | hx
    · exact hslash hx
    · exact hn (hx ▸ hb)

/-! ### Reading a pattern back -/

/-- Undoes the escapes of a text from left to right. A backslash before any other byte stays. -/
def unescape : Bytes → Bytes
  | 0x5C :: c :: rest =>
    match unescape? c with
    | some b => b :: unescape rest
    | none => 0x5C :: unescape (c :: rest)
  | b :: rest => b :: unescape rest
  | [] => []

theorem unescape_of_escape {b c : UInt8} (h : unescape? c = some b) (rest : Bytes) :
    unescape (0x5C :: c :: rest) = b :: unescape rest := by
  rw [unescape, h]

theorem unescape_cons {b : UInt8} (h : b ≠ 0x5C) (rest : Bytes) :
    unescape (b :: rest) = b :: unescape rest := by
  rw [unescape]
  rintro _ _ rfl
  exact absurd rfl h

theorem unescape_escape (s : Bytes) : unescape (escape s) = s := by
  induction s with
  | nil => rfl
  | cons b s ih =>
    rw [escape_cons]
    rcases escapeByte_cases b with ⟨he, hn⟩ | ⟨c, he, hc, -⟩
    · have hslash : b ≠ 0x5C := fun h ↦ hn (h ▸ List.mem_cons_self)
      rw [he, List.singleton_append, unescape_cons hslash, ih]
    · rw [he, List.cons_append, List.singleton_append, unescape_of_escape hc, ih]

/-! ### The closing quote -/

/-- How many bytes stand before the first quote, where a backslash takes the byte behind it with
it. -/
def quoteIndex? : Bytes → Option Nat
  | 0x5C :: _ :: rest => (quoteIndex? rest).map (· + 2)
  | b :: rest => if b = 0x27 then some 0 else (quoteIndex? rest).map (· + 1)
  | [] => none

/-- Where the quote stands that closes the literal at the front of a text. -/
def closingQuote? : Bytes → Option Nat
  | 0x27 :: rest => (quoteIndex? rest).map (· + 1)
  | _ => none

theorem quoteIndex?_cons {b : UInt8} (hslash : b ≠ 0x5C) (hquote : b ≠ 0x27) (rest : Bytes) :
    quoteIndex? (b :: rest) = (quoteIndex? rest).map (· + 1) := by
  rw [quoteIndex?, if_neg hquote]
  rintro _ _ rfl
  exact absurd rfl hslash

/-- No byte of an escaped pattern closes the literal; a quote right behind it does. -/
theorem quoteIndex?_escape (s rest : Bytes) :
    quoteIndex? (escape s ++ 0x27 :: rest) = some (escape s).length := by
  induction s with
  | nil => rfl
  | cons b s ih =>
    rw [escape_cons, List.append_assoc]
    rcases escapeByte_cases b with ⟨he, hn⟩ | ⟨c, he, -, -⟩
    · have hslash : b ≠ 0x5C := fun h ↦ hn (h ▸ List.mem_cons_self)
      have hquote : b ≠ 0x27 := fun h ↦ hn (h ▸ List.mem_cons_of_mem _ List.mem_cons_self)
      rw [he, List.singleton_append, quoteIndex?_cons hslash hquote, ih]
      rfl
    · rw [he, List.cons_append, List.singleton_append, quoteIndex?, ih]
      rfl

/-- Patterns can be told from their texts: none has a newline, a tab or a carriage return, and
undoing the escapes gives the pattern back. A literal is written as this text between quotes, and
the last byte is its closing quote, whatever follows. -/
theorem escape_reads_back :
    Function.Injective escape ∧
    ∀ s : Bytes,
      0x0A ∉ escape s ∧ 0x09 ∉ escape s ∧ 0x0D ∉ escape s ∧
      unescape (escape s) = s ∧
      ∃ text, (literal s).text? = some text ∧ text = 0x27 :: escape s ++ [0x27] ∧
        ∀ more, closingQuote? (text ++ more) = some (text.length - 1) := by
  refine ⟨Function.LeftInverse.injective unescape_escape, fun s ↦
    ⟨notMem_escape (by decide) s, notMem_escape (by decide) s, notMem_escape (by decide) s,
      unescape_escape s, _, rfl, rfl, fun more ↦ ?_⟩⟩
  rw [write, List.cons_append, List.append_assoc, closingQuote?, List.singleton_append,
    quoteIndex?_escape]
  simp

end Atom

end GrammarCode
