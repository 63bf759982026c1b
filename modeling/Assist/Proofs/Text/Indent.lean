import Assist.Proofs.Text.Search
import Assist.Text.Indent
import Mathlib.Data.List.TakeWhile
import Mathlib.Order.Bounds.Defs

/-!
# Blocks of lines

A block starts with a line that is not blank (`not_allBlank_of_blockLines`). Under a new indentation
its lines lose the most that all of them can lose (`isGreatest_commonIndent`), whether the first
line is given the new indentation or put behind it (`isBlockUnder_indentBlock`).
-/

namespace Assist.Text

/-! ## Lines -/

/-- One more character at the front of a text starts a line if it is a newline, and else makes the
first line longer. -/
theorem exists_splitOn_cons (c : Char) (text : List Char) :
    ∃ first rest, text.splitOn '\n' = first :: rest ∧
      (c :: text).splitOn '\n' =
        if c = '\n' then [] :: first :: rest else (c :: first) :: rest := by
  obtain ⟨first, rest, hlines⟩ := List.exists_cons_of_ne_nil (List.splitOn_ne_nil '\n' text)
  refine ⟨first, rest, hlines, ?_⟩
  rw [List.splitOn] at hlines ⊢
  rw [List.splitOnP_cons_eq_if_modifyHead, hlines, List.modifyHead_cons]
  simp only [beq_iff_eq]

theorem newline_not_mem_of_mem_splitOn {text line : List Char} (h : line ∈ text.splitOn '\n') :
    '\n' ∉ line := by
  induction text generalizing line with
  | nil =>
    rw [List.splitOn, List.splitOnP_nil, List.mem_singleton] at h
    rw [h]
    exact List.not_mem_nil
  | cons c text ih =>
    obtain ⟨first, rest, hlines, hcons⟩ := exists_splitOn_cons c text
    rw [hcons] at h
    rw [hlines] at ih
    split at h
    · rcases List.mem_cons.mp h with rfl | h
      · exact List.not_mem_nil
      · exact ih h
    · rename_i hc
      rcases List.mem_cons.mp h with rfl | h
      · rw [List.mem_cons, not_or]
        exact ⟨Ne.symm hc, ih List.mem_cons_self⟩
      · exact ih (List.mem_cons_of_mem first h)

/-- Every character of a text but its newlines is in one of its lines. -/
theorem exists_mem_splitOn {c : Char} {text : List Char} (hmem : c ∈ text) (hc : c ≠ '\n') :
    ∃ line ∈ text.splitOn '\n', c ∈ line := by
  induction text with
  | nil => exact absurd hmem List.not_mem_nil
  | cons d text ih =>
    obtain ⟨first, rest, hlines, hcons⟩ := exists_splitOn_cons d text
    rw [hcons]
    rw [hlines] at ih
    split
    · rename_i hd
      have hne : c ≠ d := fun h => hc (h.trans hd)
      obtain ⟨line, hline, hcline⟩ := ih ((List.mem_cons.mp hmem).resolve_left hne)
      exact ⟨line, List.mem_cons_of_mem _ hline, hcline⟩
    · rcases List.mem_cons.mp hmem with rfl | hmem
      · exact ⟨c :: first, List.mem_cons_self, List.mem_cons_self⟩
      · obtain ⟨line, hline, hcline⟩ := ih hmem
        rcases List.mem_cons.mp hline with rfl | hline
        · exact ⟨d :: line, List.mem_cons_self, List.mem_cons_of_mem d hcline⟩
        · exact ⟨line, List.mem_cons_of_mem _ hline, hcline⟩

theorem newline_not_mem_of_mem_blockLines {text line : List Char} (h : line ∈ blockLines text) :
    '\n' ∉ line :=
  newline_not_mem_of_mem_splitOn ((List.dropWhile_sublist allBlank).subset h)

/-- A block starts with a line that is not blank. -/
theorem not_allBlank_of_blockLines {text first : List Char} {rest : List (List Char)}
    (h : blockLines text = first :: rest) : allBlank first = false := by
  have hne : blockLines text ≠ [] := by
    rw [h]
    exact List.cons_ne_nil first rest
  have hfirst : (blockLines text).head hne = first := by simp only [h, List.head_cons]
  rw [← hfirst]
  exact List.head_dropWhile_not allBlank hne

/-- A text that is not blank has a line that is not. -/
theorem blockLines_ne_nil {c : Char} {text : List Char} (hmem : c ∈ text)
    (hc : isBlank c = false) : blockLines text ≠ [] := by
  intro hnil
  have hnewline : c ≠ '\n' := by
    rintro rfl
    exact absurd hc (by decide)
  obtain ⟨line, hline, hcline⟩ := exists_mem_splitOn hmem hnewline
  have hblank := List.dropWhile_eq_nil_iff.mp hnil line hline
  rw [List.all_eq_true.mp hblank c hcline] at hc
  cases hc

/-! ## The shared indentation -/

/-- Every line that is not blank is indented by at least `width`. -/
def IndentedBy (lines : List (List Char)) (width : Nat) : Prop :=
  ∀ line ∈ lines, allBlank line = false → width ≤ indentWidth line

theorem indentedBy_commonIndent (lines : List (List Char)) :
    IndentedBy lines (commonIndent lines) := by
  intro line hmem hblank
  have hwidth : indentWidth line ∈ (lines.filter (!allBlank ·)).map indentWidth :=
    List.mem_map_of_mem (List.mem_filter.mpr ⟨hmem, by rw [hblank]; rfl⟩)
  rw [commonIndent]
  cases hmin : ((lines.filter (!allBlank ·)).map indentWidth).min? with
  | none =>
    rw [List.min?_eq_none_iff] at hmin
    rw [hmin] at hwidth
    exact absurd hwidth List.not_mem_nil
  | some width => exact (List.min?_eq_some_iff.mp hmin).2 _ hwidth

/-- The common indentation is the most that all lines but the blank ones are indented by. -/
theorem isGreatest_commonIndent {lines : List (List Char)} {line : List Char} (hmem : line ∈ lines)
    (hblank : allBlank line = false) :
    IsGreatest {width | IndentedBy lines width} (commonIndent lines) := by
  refine ⟨indentedBy_commonIndent lines, fun width hwidth => ?_⟩
  rw [commonIndent]
  cases hmin : ((lines.filter (!allBlank ·)).map indentWidth).min? with
  | none =>
    rw [List.min?_eq_none_iff, List.map_eq_nil_iff, List.filter_eq_nil_iff] at hmin
    exact absurd (by rw [hblank]; rfl) (hmin line hmem)
  | some least =>
    obtain ⟨narrow, hnarrow, rfl⟩ := List.mem_map.mp (List.min?_eq_some_iff.mp hmin).1
    obtain ⟨hmem, hblank⟩ := List.mem_filter.mp hnarrow
    exact hwidth narrow hmem (by simpa using hblank)

/-- The characters that a line can lose are spaces and tabs. -/
theorem isIndent_of_mem_take {line : List Char} {drop : Nat} (hdrop : drop ≤ indentWidth line) :
    ∀ c ∈ line.take drop, isIndent c = true := by
  intro c hc
  have htake : line.take drop = (line.takeWhile isIndent).take drop := by
    conv_lhs => rw [← List.takeWhile_append_dropWhile (p := isIndent) (l := line)]
    rw [List.take_append_of_le_length hdrop]
  rw [htake] at hc
  exact List.all_eq_true.mp List.all_takeWhile c (List.mem_of_mem_take hc)

theorem length_take_of_le_indentWidth {line : List Char} {drop : Nat}
    (hdrop : drop ≤ indentWidth line) : (line.take drop).length = drop :=
  List.length_take_of_le (Nat.le_trans hdrop (List.takeWhile_sublist isIndent).length_le)

/-! ## A block under an indentation -/

/-- A line under an indentation is empty, or it starts with that indentation. -/
theorem indentLine_cases (indent : List Char) (drop : Nat) (line : List Char) :
    indentLine indent drop line = [] ∨ indent <+: indentLine indent drop line := by
  unfold indentLine
  split
  · exact Or.inl rfl
  · exact Or.inr (List.prefix_append _ _)

theorem newline_not_mem_indentLine {indent line : List Char} (hindent : '\n' ∉ indent)
    (hline : '\n' ∉ line) (drop : Nat) : '\n' ∉ indentLine indent drop line := by
  unfold indentLine
  split
  · exact List.not_mem_nil
  · rw [List.mem_append, not_or]
    exact ⟨hindent, fun hmem => hline (List.mem_of_mem_drop hmem)⟩

/-- `result` is the block of `text` under `indent`: its lines lose the most that all of them but the
blank ones can lose and take the indentation, and the blank ones become empty. -/
def IsBlockUnder (indent text result : List Char) : Prop :=
  ∃ drop, IsGreatest {width | IndentedBy (blockLines text) width} drop ∧
    result.splitOn '\n' = (blockLines text).map (indentLine indent drop)

theorem IsBlockUnder.line_cases {indent text result line : List Char}
    (h : IsBlockUnder indent text result) (hline : line ∈ result.splitOn '\n') :
    line = [] ∨ indent <+: line := by
  obtain ⟨drop, -, hlines⟩ := h
  rw [hlines] at hline
  obtain ⟨old, -, rfl⟩ := List.mem_map.mp hline
  exact indentLine_cases indent drop old

/-- The lines of a block under an indentation, whether its first line is given the indentation or
put behind it. -/
theorem splitOn_indentBlock {text indent : String} (indentFirst : Bool)
    (hindent : '\n' ∉ indent.toList) (hne : blockLines text.toList ≠ []) :
    ((if indentFirst then [] else indent.toList) ++
        (indentBlock text indent indentFirst).toList).splitOn '\n' =
      (blockLines text.toList).map
        (indentLine indent.toList (commonIndent (blockLines text.toList))) := by
  obtain ⟨first, rest, hlines⟩ := List.exists_cons_of_ne_nil hne
  have hfirst := not_allBlank_of_blockLines hlines
  have hjoin : (if indentFirst then [] else indent.toList) ++
      (indentBlock text indent indentFirst).toList =
        ['\n'].intercalate ((blockLines text.toList).map
          (indentLine indent.toList (commonIndent (blockLines text.toList)))) := by
    rw [indentBlock, String.toList_ofList, hlines, indentLines, List.map_cons]
    cases indentFirst with
    | true => rfl
    | false =>
      -- the first line is not blank, so it is the indentation and what is left of the line
      simp only [indentLine, hfirst]
      cases rest <;> simp [List.intercalate]
  rw [hjoin]
  refine List.splitOn_intercalate '\n' ?_ ?_
  · intro line hline
    obtain ⟨old, hold, rfl⟩ := List.mem_map.mp hline
    exact newline_not_mem_indentLine hindent (newline_not_mem_of_mem_blockLines hold) _
  · rwa [Ne, List.map_eq_nil_iff]

theorem isGreatest_commonIndent_blockLines {text : List Char} (hne : blockLines text ≠ []) :
    IsGreatest {width | IndentedBy (blockLines text) width} (commonIndent (blockLines text)) := by
  obtain ⟨first, rest, hlines⟩ := List.exists_cons_of_ne_nil hne
  refine isGreatest_commonIndent ?_ (not_allBlank_of_blockLines hlines)
  rw [hlines]
  exact List.mem_cons_self

/-- A block that is not blank is put under an indentation, whether its first line is given the
indentation or put behind it. -/
theorem isBlockUnder_indentBlock {text indent : String} (indentFirst : Bool)
    (hindent : '\n' ∉ indent.toList) {c : Char} (hmem : c ∈ text.toList)
    (hc : isBlank c = false) :
    IsBlockUnder indent.toList text.toList
      ((if indentFirst then [] else indent.toList) ++
        (indentBlock text indent indentFirst).toList) := by
  have hne := blockLines_ne_nil hmem hc
  exact ⟨_, isGreatest_commonIndent_blockLines hne, splitOn_indentBlock indentFirst hindent hne⟩

theorem newline_not_mem_indentOf (cs : List Char) : '\n' ∉ indentOf cs :=
  not_mem_afterLast '\n' (leadingBlank cs)

end Assist.Text
