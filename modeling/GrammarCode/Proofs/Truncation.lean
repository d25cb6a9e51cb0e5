import GrammarCode.Program.Listing
import GrammarCode.Proofs.Screen

/-!
# Cutting texts between clusters

A text that is too wide keeps the longest beginning of whole clusters that leaves room for the dots.
Where clusters end and how wide they are is for the screen to say; all that is used of it is that
clusters make up the text and its columns.
-/

namespace GrammarCode

namespace Listing

variable {screen : Text.Screen}

theorem fitting_isPrefix (limit : Nat) (cs : List Bytes) : fitting screen limit cs <+: cs := by
  fun_induction fitting screen limit cs with
  | case1 => exact List.nil_prefix
  | case2 limit c rest _ ih => exact (List.prefix_cons_inj c).mpr ih
  | case3 => exact List.nil_prefix

theorem sum_fitting_le (limit : Nat) (cs : List Bytes) :
    ((fitting screen limit cs).map screen.columns).sum ≤ limit := by
  fun_induction fitting screen limit cs with
  | case1 => exact Nat.zero_le _
  | case2 limit c rest hc ih =>
    rw [List.map_cons, List.sum_cons]
    omega
  | case3 => exact Nat.zero_le _

/-- Every beginning within the limit is within the fitting one. -/
theorem isPrefix_fitting {limit : Nat} {cs ds : List Bytes} (h : ds <+: cs)
    (hd : (ds.map screen.columns).sum ≤ limit) : ds <+: fitting screen limit cs := by
  fun_induction fitting screen limit cs generalizing ds with
  | case1 => exact h
  | case2 limit c rest hc ih =>
    cases ds with
    | nil => exact List.nil_prefix
    | cons d ds =>
      obtain ⟨rfl, hrest⟩ := List.cons_prefix_cons.mp h
      rw [List.map_cons, List.sum_cons] at hd
      exact (List.prefix_cons_inj d).mpr (ih hrest (by omega))
  | case3 limit c rest hc =>
    cases ds with
    | nil => exact List.nil_prefix
    | cons d ds =>
      obtain ⟨rfl, -⟩ := List.cons_prefix_cons.mp h
      rw [List.map_cons, List.sum_cons] at hd
      omega

/-- The text of a beginning of the clusters of a text is a beginning of the text. -/
theorem flatten_isPrefix (hclusters : screen.Partitions) {cs : List Bytes} {s : Bytes}
    (h : cs <+: screen.clusters s) : cs.flatten <+: s := by
  obtain ⟨more, hmore⟩ := h
  exact ⟨more.flatten, by rw [← List.flatten_append, hmore, hclusters s]⟩

/-- A text that is not too wide is kept. Of any other text the longest beginning of whole clusters
is kept that leaves three columns for the dots; some clusters are always left out. The screen may be
any one on which clusters make up a text and its columns, and if it cuts what is kept as it cut the
text, then what is kept takes at most the columns that are left. -/
theorem truncate_keeps_longest (screen : Text.Screen) (hclusters : screen.Partitions)
    (hcolumns : screen.AddsUp) (s : Bytes) (width : Nat) (hwidth : 3 ≤ width) :
    (screen.columns s ≤ width → truncate screen s width = s) ∧
    (width < screen.columns s → ∃ kept left : List Bytes,
      kept ++ left = screen.clusters s ∧ left ≠ [] ∧
      truncate screen s width = kept.flatten ++ "..." ∧ kept.flatten <+: s ∧
      (kept.map screen.columns).sum + 3 ≤ width ∧
      (screen.clusters kept.flatten = kept → screen.columns kept.flatten + 3 ≤ width) ∧
      ∀ longer, longer <+: screen.clusters s → kept.length < longer.length →
        width < (longer.map screen.columns).sum + 3) := by
  refine ⟨fun hfits ↦ if_pos hfits, fun hwide ↦ ?_⟩
  have hkept : fitting screen (width - 3) (screen.clusters s) <+: screen.clusters s :=
    fitting_isPrefix (width - 3) (screen.clusters s)
  have hsum : ((fitting screen (width - 3) (screen.clusters s)).map screen.columns).sum + 3 ≤
      width := by
    have hfitting : ((fitting screen (width - 3) (screen.clusters s)).map screen.columns).sum ≤
        width - 3 := sum_fitting_le _ _
    omega
  have ⟨left, hleft⟩ := hkept
  refine ⟨_, left, hleft, ?_, if_neg (by omega), flatten_isPrefix hclusters hkept, hsum, ?_, ?_⟩
  · -- All clusters together are wider than the limit, so they are not all kept.
    rintro rfl
    rw [List.append_nil] at hleft
    rw [hleft, ← hcolumns s] at hsum
    omega
  · intro hagain
    rw [hcolumns, hagain]
    exact hsum
  · intro longer hlonger hlength
    refine Nat.lt_of_not_le fun hfits ↦ ?_
    have hle : (longer.map screen.columns).sum ≤ width - 3 := by omega
    have := (isPrefix_fitting hlonger hle).length_le
    omega

/-- Two letters and a third one with an accent fill the three columns in front of the dots, and a
control character that takes none is kept with them. -/
theorem truncate_keeps_longest_marked :
    let screen := Text.Screen.standard
    let s : Bytes := "abe\u0301\u0001fghi"
    3 ≤ 6 ∧ 6 < screen.columns s ∧ truncate screen s 6 = "abe\u0301\u0001..." ∧
      ∃ kept left, kept ++ left = screen.clusters s ∧
        truncate screen s 6 = kept.flatten ++ "..." ∧ screen.columns kept.flatten + 3 ≤ 6 ∧
        ∀ longer, longer <+: screen.clusters s → kept.length < longer.length →
          6 < (longer.map screen.columns).sum + 3 := by
  intro screen s
  have hwide : 6 < screen.columns s := by decide +kernel
  obtain ⟨kept, left, hkept, -, hcut, -, -, hcolumns, hlongest⟩ :=
    (truncate_keeps_longest screen Text.Screen.standard_partitions Text.Screen.standard_addsUp s 6
      (by decide)).2 hwide
  have hagain : screen.clusters kept.flatten = kept :=
    Text.clusters_flatten_of_isPrefix ⟨left, hkept⟩
  exact ⟨by decide, hwide, by decide +kernel, kept, left, hkept, hcut, hcolumns hagain, hlongest⟩

end Listing

end GrammarCode
