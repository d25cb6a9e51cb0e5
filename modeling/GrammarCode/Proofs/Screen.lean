import GrammarCode.Proofs.EscapeSequences
import GrammarCode.Proofs.Utf8
import GrammarCode.Text.Screen
import Mathlib.Algebra.Ring.Nat

/-!
# What is known of screens

The laws of a screen that those who lay text out rely on: clusters make up the text and its columns,
and a text in colour stands between complete escape sequences. The standard screen has them. Reading
bytes as characters and cutting characters into clusters are both done from the left, and what has
been read does not depend on what is still to come beyond the end of an item; so any part of a
reading, taken alone, reads as the same items.
-/

namespace GrammarCode

/-! ### Laws -/

namespace Text

/-- A printable character of ASCII. -/
def isPrintableAscii (b : UInt8) : Bool := 0x20 ≤ b && b ≤ 0x7E

theorem isPrintableAscii_iff (b : UInt8) :
    isPrintableAscii b = true ↔ 0x20 ≤ b.toNat ∧ b.toNat ≤ 0x7E := by
  simp [isPrintableAscii, UInt8.le_iff_toNat_le]

/-- Printable ASCII takes one column for each byte. -/
def Narrow (columns : Bytes → Nat) : Prop :=
  ∀ s, (∀ b ∈ s, isPrintableAscii b = true) → columns s = s.length

namespace Screen

variable (screen : Screen)

/-- The clusters of a text, one after the other, are the text. -/
def Partitions : Prop := ∀ s, (screen.clusters s).flatten = s

/-- A text takes the columns that its clusters take. -/
def AddsUp : Prop := ∀ s, screen.columns s = ((screen.clusters s).map screen.columns).sum

/-- Without colour a text is shown as it is; in colour it stands between complete escape
sequences. -/
structure PaintsAround : Prop where
  plain : ∀ attributes text, screen.paint false attributes text = text
  coloured : ∀ attributes text, ∃ on off : List Bytes,
    (∀ s ∈ on, Style.Complete s) ∧ (∀ s ∈ off, Style.Complete s) ∧
      screen.paint true attributes text = on.flatten ++ text ++ off.flatten

variable {screen}

/-- A text without ESC is displayed alike with colour and without. -/
theorem PaintsAround.displays (h : screen.PaintsAround) (attributes : List Attribute) {text : Bytes}
    (htext : 0x1B ∉ text) :
    Style.Displays (screen.paint true attributes text) (screen.paint false attributes text) := by
  have hsilent {ss : List Bytes} (hss : ∀ s ∈ ss, Style.Complete s) :
      Style.Displays ss.flatten [] := by
    induction ss with
    | nil => exact .nil
    | cons s ss ih =>
      rw [List.forall_mem_cons] at hss
      exact .sequence hss.1 (ih hss.2)
  obtain ⟨on, off, hon, hoff, hpainted⟩ := h.coloured attributes text
  have hdisplays := ((hsilent hon).append (.self htext)).append (hsilent hoff)
  rw [h.plain, hpainted]
  simpa using hdisplays

end Screen

end Text

/-! ### Parts of a reading -/

section Reading

variable {α β : Type} (read : α → List β) (join : List β → α)

/-- If a beginning of a reading reads as itself and the reading without its first item is one, so
does every part of a reading. -/
theorem read_join_of_isInfix (hfront : ∀ {xs a}, xs <+: read a → read (join xs) = xs)
    (htail : ∀ {x xs a}, read a = x :: xs → ∃ b, read b = xs) {xs : List β} {a : α}
    (h : xs <:+: read a) : read (join xs) = xs := by
  have hsuffix {ys : List β} {a : α} (h : ys <:+ read a) : ∃ b, read b = ys := by
    generalize hl : read a = l at h
    induction l generalizing a with
    | nil => exact ⟨a, by rw [hl, List.suffix_nil.mp h]⟩
    | cons x l ih =>
      rcases List.suffix_cons_iff.mp h with rfl | h
      · exact ⟨a, hl⟩
      · obtain ⟨b, hb⟩ := htail hl
        exact ih hb h
  obtain ⟨ys, hxs, hys⟩ := List.infix_iff_prefix_suffix.mp h
  obtain ⟨b, rfl⟩ := hsuffix hys
  exact hfront hxs

end Reading

namespace Utf8

private theorem glyphs_bytes_of_isPrefix {gs : List Glyph} {s : Bytes} (h : gs <+: glyphs s) :
    glyphs (gs.flatMap Glyph.bytes) = gs := by
  induction gs generalizing s with
  | nil => rfl
  | cons g gs ih =>
    cases s with
    | nil => cases List.prefix_nil.mp h
    | cons b rest =>
      rcases glyphs_cons b rest with ⟨c, more, hmore, hg⟩ | hg
      · rw [hg, List.cons_prefix_cons] at h
        obtain ⟨rfl, h⟩ := h
        rw [List.flatMap_cons, Glyph.bytes, glyphs_encode_append, ih h]
      · have hstray := hg
        rw [hg, List.cons_prefix_cons] at h
        obtain ⟨rfl, h⟩ := h
        obtain ⟨hs, hrest⟩ := h
        have hbytes : gs.flatMap Glyph.bytes ++ hs.flatMap Glyph.bytes = rest := by
          rw [← List.flatMap_append, hrest, flatMap_bytes_glyphs]
        rw [List.flatMap_cons, Glyph.bytes, List.singleton_append]
        rcases glyphs_cons b (gs.flatMap Glyph.bytes) with ⟨c, more, hmore, -⟩ | hg
        · -- A character that is whole in the shorter text would also be read in the longer one.
          rw [← hbytes, ← List.cons_append, ← hmore, List.append_assoc,
            glyphs_encode_append] at hstray
          cases hstray
        · rw [hg, ih ⟨hs, hrest⟩]

/-- The bytes of a part of a reading are read as this part. -/
theorem glyphs_bytes_of_isInfix {gs : List Glyph} {s : Bytes} (h : gs <:+: glyphs s) :
    glyphs (gs.flatMap Glyph.bytes) = gs := by
  refine read_join_of_isInfix glyphs _ glyphs_bytes_of_isPrefix (fun {g gs s} hs ↦ ?_) h
  cases s with
  | nil => cases hs
  | cons b rest =>
    rcases glyphs_cons b rest with ⟨c, more, -, hg⟩ | hg
    · exact ⟨more, (List.cons.inj (hg.symm.trans hs)).2⟩
    · exact ⟨rest, (List.cons.inj (hg.symm.trans hs)).2⟩

end Utf8

namespace Text.Cluster

/-- A new cluster starts as if nothing were before it. -/
theorem step_fst_of_snd {s : State} {k : BreakClass} (h : (step s k).2 = true) :
    (step s k).1 = entry k := by
  revert h
  unfold step
  split <;> intro h <;> first | rfl | cases h

private theorem splitFrom_of_isPrefix {s : State} {current rest : List Glyph}
    {cs : List (List Glyph)} (hne : cs ≠ []) (h : cs <+: splitFrom s current rest) :
    ∃ own, splitFrom s current own = cs := by
  induction rest generalizing s current cs with
  | nil =>
    refine ⟨[], ?_⟩
    obtain ⟨more, h⟩ := h
    cases cs with
    | nil => exact absurd rfl hne
    | cons c cs =>
      obtain ⟨rfl, hmore⟩ := List.cons.inj h
      rw [(List.append_eq_nil_iff.mp hmore).1, splitFrom]
  | cons g rest ih =>
    rw [splitFrom] at h
    split at h
    · next s' hstep =>
      cases cs with
      | nil => exact absurd rfl hne
      | cons c cs =>
        obtain ⟨rfl, hrest⟩ := List.cons_prefix_cons.mp h
        by_cases hcs : cs = []
        · exact ⟨[], by rw [hcs, splitFrom]⟩
        · obtain ⟨own, rfl⟩ := ih hcs hrest
          refine ⟨g :: own, ?_⟩
          rw [splitFrom, hstep]
    · next s' hstep =>
      obtain ⟨own, rfl⟩ := ih hne h
      refine ⟨g :: own, ?_⟩
      rw [splitFrom, hstep]

private theorem split_flatten_of_isPrefix {cs : List (List Glyph)} {text : List Glyph}
    (h : cs <+: split text) : split cs.flatten = cs := by
  by_cases hne : cs = []
  · rw [hne]
    rfl
  · cases text with
    | nil => exact absurd (List.prefix_nil.mp h) hne
    | cons g rest =>
      obtain ⟨own, rfl⟩ := splitFrom_of_isPrefix hne h
      rw [flatten_splitFrom]
      rfl

private theorem exists_split_of_splitFrom {s : State} {current rest c : List Glyph}
    {cs : List (List Glyph)} (h : splitFrom s current rest = c :: cs) :
    ∃ more, split more = cs := by
  induction rest generalizing s current with
  | nil => exact ⟨[], (List.cons.inj h).2⟩
  | cons g rest ih =>
    rw [splitFrom] at h
    split at h
    · next s' hstep =>
      have hentry : s' = entry (classOf g) := by
        have := step_fst_of_snd (s := s) (k := classOf g)
        rw [hstep] at this
        exact this rfl
      refine ⟨g :: rest, ?_⟩
      rw [← (List.cons.inj h).2, hentry]
      rfl
    · exact ih h

/-- Clusters that stand side by side in a text are the clusters of what they are together. -/
theorem split_flatten_of_isInfix {cs : List (List Glyph)} {text : List Glyph}
    (h : cs <:+: split text) : split cs.flatten = cs := by
  refine read_join_of_isInfix split _ split_flatten_of_isPrefix (fun {c cs text} ht ↦ ?_) h
  cases text with
  | nil => cases ht
  | cons g rest => exact exists_split_of_splitFrom ht

/-- Characters that belong with no other one are clusters by themselves. -/
theorem split_of_other {gs : List Glyph} (h : ∀ g ∈ gs, classOf g = .other) :
    split gs = gs.map fun g ↦ [g] := by
  have hfrom (g : Glyph) (rest : List Glyph) (hrest : ∀ x ∈ rest, classOf x = .other) :
      splitFrom .plain [g] rest = (g :: rest).map fun x ↦ [x] := by
    induction rest generalizing g with
    | nil => rfl
    | cons x rest ih =>
      rw [List.forall_mem_cons] at hrest
      rw [splitFrom, hrest.1]
      exact congrArg ([g] :: ·) (ih x hrest.2)
  cases gs with
  | nil => rfl
  | cons g rest =>
    rw [List.forall_mem_cons] at h
    rw [split, h.1]
    exact hfrom g rest h.2

theorem total_map_singleton {gs : List Glyph} (h : ∀ g ∈ gs, width [g] = 1) :
    total (gs.map fun g ↦ [g]) = gs.length := by
  induction gs with
  | nil => rfl
  | cons g rest ih =>
    rw [List.forall_mem_cons] at h
    rw [List.map_cons, total, h.1, ih h.2, List.length_cons, Nat.add_comm]

end Text.Cluster

namespace Text

/-! ### The standard screen -/

theorem flatten_map_bytes (cs : List (List Glyph)) :
    (cs.map Cluster.bytes).flatten = cs.flatten.flatMap Glyph.bytes := by
  induction cs with
  | nil => rfl
  | cons c cs ih =>
    rw [List.map_cons, List.flatten_cons, ih, List.flatten_cons, List.flatMap_append, Cluster.bytes]

@[simp] theorem flatten_clusters (s : Bytes) : (clusters s).flatten = s := by
  rw [clusters, flatten_map_bytes, glyphClusters, Cluster.flatten_split, Utf8.flatMap_bytes_glyphs]

/-- The bytes of clusters that stand side by side in a text have these clusters. -/
theorem glyphClusters_flatten_of_isInfix {cs : List (List Glyph)} {s : Bytes}
    (h : cs <:+: glyphClusters s) : glyphClusters (cs.map Cluster.bytes).flatten = cs := by
  have hglyphs : cs.flatten <:+: Utf8.glyphs s := by
    obtain ⟨before, behind, hs⟩ := h
    refine ⟨before.flatten, behind.flatten, ?_⟩
    rw [← List.flatten_append, ← List.flatten_append, hs, glyphClusters, Cluster.flatten_split]
  rw [flatten_map_bytes, glyphClusters, Utf8.glyphs_bytes_of_isInfix hglyphs,
    Cluster.split_flatten_of_isInfix h]

/-- A beginning of the clusters of a text is cut again as it was. -/
theorem clusters_flatten_of_isPrefix {cs : List Bytes} {s : Bytes} (h : cs <+: clusters s) :
    clusters cs.flatten = cs := by
  obtain ⟨gs, hgs, rfl⟩ := List.prefix_map_iff.mp h
  rw [clusters, glyphClusters_flatten_of_isInfix hgs.isInfix]

/-- A cluster takes the columns of its items also when it stands alone. -/
theorem columns_bytes {c : List Glyph} {s : Bytes} (h : c ∈ glyphClusters s) :
    columns (Cluster.bytes c) = Cluster.width c := by
  obtain ⟨before, behind, hs⟩ := List.append_of_mem h
  have hc : [c] <:+: glyphClusters s := ⟨before, behind, by simp [hs]⟩
  have hclusters := glyphClusters_flatten_of_isInfix hc
  rw [List.map_singleton, List.flatten_singleton] at hclusters
  rw [columns, hclusters]
  rfl

theorem columns_eq_sum (s : Bytes) : columns s = ((clusters s).map columns).sum := by
  have htotal {cs : List (List Glyph)} (hcs : ∀ c ∈ cs, c ∈ glyphClusters s) :
      Cluster.total cs = ((cs.map Cluster.bytes).map columns).sum := by
    induction cs with
    | nil => rfl
    | cons c cs ih =>
      rw [List.forall_mem_cons] at hcs
      rw [Cluster.total, ih hcs.2, List.map_cons, List.map_cons, List.sum_cons,
        columns_bytes hcs.1]
  exact htotal fun _ hc ↦ hc

/-- The characters of ASCII bytes. -/
theorem glyphs_of_ascii {b : Bytes} (h : ∀ x ∈ b, x.toNat < 0x80) :
    Utf8.glyphs b = b.map fun x ↦ .char (Char.ofNat x.toNat) := by
  induction b with
  | nil => rfl
  | cons x rest ih =>
    rw [List.forall_mem_cons] at h
    have hx : String.utf8EncodeChar (Char.ofNat x.toNat) = [x] := (Utf8.Formed.one x h.1).encode_eq
    have hglyphs := Utf8.glyphs_encode_append (Char.ofNat x.toNat) rest
    rw [hx, List.singleton_append, ih h.2] at hglyphs
    exact hglyphs

/-- A printable character of ASCII belongs with no other one and is one column wide. -/
theorem glyph_of_printable {b : UInt8} (h : isPrintableAscii b = true) :
    Cluster.classOf (.char (Char.ofNat b.toNat)) = .other ∧
      Cluster.width [.char (Char.ofNat b.toNat)] = 1 := by
  obtain ⟨hle, hge⟩ := (isPrintableAscii_iff b).mp h
  have hcode : (Char.ofNat b.toNat).toNat = b.toNat := Utf8.val_ofNat (Or.inl (by omega))
  have hclass : breakClass b.toNat = .other := by
    rw [breakClass, if_pos (by simp; omega)]
  have hother : Cluster.classOf (.char (Char.ofNat b.toNat)) = .other := by
    rw [Cluster.classOf, Glyph.shown, hcode, hclass]
  refine ⟨hother, ?_⟩
  rw [Cluster.width, hother]
  simp only [List.foldl_nil, Cluster.itemWidth, Glyph.shown, hcode, hclass]
  rw [if_neg (by omega), if_neg (by omega), if_pos (by omega)]

theorem narrow_columns : Narrow columns := by
  intro b h
  have hglyphs : Utf8.glyphs b = b.map fun x ↦ .char (Char.ofNat x.toNat) := by
    apply glyphs_of_ascii
    intro x hx
    have := (isPrintableAscii_iff x).mp (h x hx)
    omega
  have hglyph : ∀ g ∈ Utf8.glyphs b, Cluster.classOf g = .other ∧ Cluster.width [g] = 1 := by
    rw [hglyphs]
    intro g hg
    obtain ⟨x, hx, rfl⟩ := List.mem_map.mp hg
    exact glyph_of_printable (h x hx)
  rw [columns, glyphClusters, Cluster.split_of_other fun g hg ↦ (hglyph g hg).1,
    Cluster.total_map_singleton fun g hg ↦ (hglyph g hg).2, hglyphs, List.length_map]

namespace Screen

theorem standard_partitions : standard.Partitions := flatten_clusters

theorem standard_addsUp : standard.AddsUp := columns_eq_sum

theorem standard_paintsAround : standard.PaintsAround where
  plain _ _ := rfl
  coloured attributes text := by
    refine ⟨[Style.sequence (attributes.map Attribute.on)],
      [Style.sequence (attributes.map Attribute.off)], ?_, ?_, ?_⟩
    · exact List.forall_mem_singleton.mpr (Style.complete_sequence _)
    · exact List.forall_mem_singleton.mpr (Style.complete_sequence _)
    · simp [standard, Style.paint]

end Screen

end Text

end GrammarCode
