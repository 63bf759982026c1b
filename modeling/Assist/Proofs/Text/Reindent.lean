import Assist.Proofs.Offsets.Text
import Mathlib.Data.List.Forall2
import Mathlib.Order.Bounds.Basic

/-!
# Indenting a block again

A block under an indentation has that indentation and no more in common
(`commonIndent_map_indentLine`). So a block that is moved twice stands as if it had been moved once,
to where it went last (`indentBlock_indentBlock`), and of its text only the indentation that all
lines share is ever lost: `Reindented` says what becomes of a line, and `indentBlock_composes` has
both.
-/

namespace Assist.Text

/-! ## Lines with less indentation -/

section Lines

variable {indent outer line : List Char} {drop : Nat}

theorem isBlank_of_isIndent {c : Char} (h : isIndent c = true) : isBlank c = true := by
  rw [isIndent, Bool.or_eq_true, beq_iff_eq, beq_iff_eq] at h
  rcases h with rfl | rfl <;> decide

theorem allBlank_of_isIndent (h : ∀ c ∈ indent, isIndent c = true) : allBlank indent = true :=
  List.all_eq_true.mpr fun c hc => isBlank_of_isIndent (h c hc)

/-- A line without some of its indentation is blank if the whole line is. -/
theorem allBlank_drop (hdrop : drop ≤ indentWidth line) :
    allBlank (line.drop drop) = allBlank line := by
  conv_rhs => rw [← List.take_append_drop drop line, allBlank_append,
    allBlank_of_isIndent (isIndent_of_mem_take hdrop), Bool.true_and]

theorem indentWidth_append (hindent : ∀ c ∈ indent, isIndent c = true) (line : List Char) :
    indentWidth (indent ++ line) = indent.length + indentWidth line := by
  rw [indentWidth, List.takeWhile_append_of_pos hindent, List.length_append, indentWidth]

/-- A line without some of its indentation has the rest of it behind new indentation. -/
theorem indentWidth_append_drop (hindent : ∀ c ∈ indent, isIndent c = true)
    (hdrop : drop ≤ indentWidth line) :
    indentWidth (indent ++ line.drop drop) = indent.length + (indentWidth line - drop) := by
  have hline := indentWidth_append (isIndent_of_mem_take hdrop) (line.drop drop)
  rw [List.take_append_drop, length_take_of_le_indentWidth hdrop] at hline
  rw [indentWidth_append hindent]
  omega

theorem indentLine_of_not_blank (hline : allBlank line = false) (indent : List Char) (drop : Nat) :
    indentLine indent drop line = indent ++ line.drop drop := by
  rw [indentLine, hline]
  rfl

/-- A line under an indentation is blank if it was blank before. -/
theorem allBlank_indentLine (hindent : ∀ c ∈ indent, isIndent c = true)
    (hdrop : allBlank line = false → drop ≤ indentWidth line) :
    allBlank (indentLine indent drop line) = allBlank line := by
  cases hline : allBlank line with
  | true =>
    rw [indentLine, hline]
    rfl
  | false =>
    rw [indentLine_of_not_blank hline, allBlank_append, allBlank_of_isIndent hindent,
      allBlank_drop (hdrop hline), hline]
    rfl

/-- A line that goes from one indentation to another stands as if it had not had the first. -/
theorem indentLine_indentLine (hindent : ∀ c ∈ indent, isIndent c = true)
    (hdrop : allBlank line = false → drop ≤ indentWidth line) :
    indentLine outer indent.length (indentLine indent drop line) = indentLine outer drop line := by
  have hblank := allBlank_indentLine hindent hdrop
  cases hline : allBlank line with
  | true =>
    rw [hline] at hblank
    rw [indentLine, if_pos hblank, indentLine, if_pos hline]
  | false =>
    rw [hline] at hblank
    rw [indentLine_of_not_blank hblank, indentLine_of_not_blank hline,
      indentLine_of_not_blank hline, List.drop_left]

end Lines

/-! ## Blocks -/

/-- The lines of a block under an indentation have that indentation and no more in common. -/
theorem commonIndent_map_indentLine {indent : List Char} {lines : List (List Char)}
    (hindent : ∀ c ∈ indent, isIndent c = true) {line : List Char} (hmem : line ∈ lines)
    (hline : allBlank line = false) :
    commonIndent (lines.map (indentLine indent (commonIndent lines))) = indent.length := by
  have hcommon := isGreatest_commonIndent hmem hline
  have hwidth : ∀ old ∈ lines, allBlank old = false →
      indentWidth (indentLine indent (commonIndent lines) old) =
        indent.length + (indentWidth old - commonIndent lines) := fun old hold hblank => by
    rw [indentLine_of_not_blank hblank, indentWidth_append_drop hindent (hcommon.1 old hold hblank)]
  have hblank : ∀ old ∈ lines,
      allBlank (indentLine indent (commonIndent lines) old) = allBlank old := fun old hold =>
    allBlank_indentLine hindent (hcommon.1 old hold)
  have hgreatest := isGreatest_commonIndent
    (List.mem_map_of_mem (f := indentLine indent (commonIndent lines)) hmem)
    ((hblank line hmem).trans hline)
  refine hgreatest.unique ⟨fun new hnew hnewBlank => ?_, fun width hindented => ?_⟩
  · obtain ⟨old, hold, rfl⟩ := List.mem_map.mp hnew
    rw [hwidth old hold ((hblank old hold).symm.trans hnewBlank)]
    exact Nat.le_add_right _ _
  · -- what the new lines share beyond the indentation, the old lines would have shared as well
    have hmore : IndentedBy lines (commonIndent lines + (width - indent.length)) := by
      intro old hold hold'
      have hle := hindented _ (List.mem_map_of_mem hold) ((hblank old hold).trans hold')
      have := hcommon.1 old hold hold'
      rw [hwidth old hold hold'] at hle
      omega
    have := hcommon.2 hmore
    omega

theorem newline_not_mem_of_isIndent {indent : List Char} (h : ∀ c ∈ indent, isIndent c = true) :
    '\n' ∉ indent := fun hmem => absurd (h '\n' hmem) (by decide)

/-- The lines of a block that was put under an indentation. -/
theorem blockLines_indentBlock {text indent : String}
    (hindent : ∀ c ∈ indent.toList, isIndent c = true) :
    blockLines (indentBlock text indent true).toList = (blockLines text.toList).map
      (indentLine indent.toList (commonIndent (blockLines text.toList))) := by
  cases hlines : blockLines text.toList with
  | nil =>
    rw [indentBlock, hlines]
    rfl
  | cons first rest =>
    have hne : blockLines text.toList ≠ [] := by
      rw [hlines]
      exact List.cons_ne_nil first rest
    have hsplit := splitOn_indentBlock true (newline_not_mem_of_isIndent hindent) hne
    rw [if_pos rfl, List.nil_append, hlines] at hsplit
    have hfirst :
        allBlank (indentLine indent.toList (commonIndent (first :: rest)) first) = false := by
      rw [allBlank_indentLine hindent
        (indentedBy_commonIndent (first :: rest) first List.mem_cons_self)]
      exact not_allBlank_of_blockLines hlines
    rw [blockLines, hsplit, List.map_cons, List.dropWhile_cons_of_neg (by simp [hfirst])]

/-- **A block that is moved twice** stands as if it had been moved once. -/
theorem indentBlock_indentBlock {text indent : String}
    (hindent : ∀ c ∈ indent.toList, isIndent c = true) (outer : String) (indentFirst : Bool) :
    indentBlock (indentBlock text indent true) outer indentFirst =
      indentBlock text outer indentFirst := by
  rw [indentBlock, blockLines_indentBlock hindent, indentBlock]
  cases hlines : blockLines text.toList with
  | nil => rfl
  | cons first rest =>
    have hshared := indentedBy_commonIndent (first :: rest)
    have hcommon := commonIndent_map_indentLine hindent (List.mem_cons_self (l := rest))
      (not_allBlank_of_blockLines hlines)
    have hline : ∀ (front : List Char), ∀ line ∈ first :: rest,
        indentLine front indent.toList.length
          (indentLine indent.toList (commonIndent (first :: rest)) line) =
            indentLine front (commonIndent (first :: rest)) line := fun front line hmem =>
      indentLine_indentLine hindent (hshared line hmem)
    rw [List.map_cons] at hcommon ⊢
    rw [indentLines, hcommon, indentLines, hline _ first List.mem_cons_self, List.map_map]
    have hrest : rest.map (indentLine outer.toList indent.toList.length ∘
        indentLine indent.toList (commonIndent (first :: rest))) =
          rest.map (indentLine outer.toList (commonIndent (first :: rest))) :=
      List.map_congr_left fun line hmem => hline _ line (List.mem_cons_of_mem first hmem)
    rw [hrest]

/-! ## What is kept -/

/-- The first `width` bytes of a line are spaces and tabs, and `rest` is what follows them. -/
def Loses (width : Nat) (line rest : List Char) : Prop :=
  ∃ front, line = front ++ rest ∧ (∀ c ∈ front, c = ' ' ∨ c = '\t') ∧ byteLen front = width

/-- What becomes of a line of a block: a blank one is empty now, and any other has traded the first
`width` bytes, which are spaces and tabs, for `indent`. -/
inductive Reindented (indent : List Char) (width : Nat) : List Char → List Char → Prop where
  | blank {line : List Char} (hblank : allBlank line = true) : Reindented indent width line []
  | code {line rest : List Char} (hblank : allBlank line = false) (hloses : Loses width line rest) :
      Reindented indent width line (indent ++ rest)

theorem isIndent_iff {c : Char} : isIndent c = true ↔ c = ' ' ∨ c = '\t' := by
  rw [isIndent, Bool.or_eq_true, beq_iff_eq, beq_iff_eq]

/-- A line without as many bytes as it starts with spaces and tabs. -/
theorem loses_drop {width : Nat} {line : List Char} (hwidth : width ≤ indentWidth line) :
    Loses width line (line.drop width) := by
  have hfront := isIndent_of_mem_take hwidth
  refine ⟨line.take width, (List.take_append_drop width line).symm,
    fun c hc => isIndent_iff.mp (hfront c hc), ?_⟩
  rw [Offsets.byteLen_of_isIndent hfront, length_take_of_le_indentWidth hwidth]

theorem exists_loses_iff {width : Nat} {line : List Char} :
    (∃ rest, Loses width line rest) ↔ width ≤ indentWidth line := by
  refine ⟨?_, fun hwidth => ⟨_, loses_drop hwidth⟩⟩
  rintro ⟨rest, front, rfl, hfront, rfl⟩
  have hindent : ∀ c ∈ front, isIndent c = true := fun c hc => isIndent_iff.mpr (hfront c hc)
  rw [Offsets.byteLen_of_isIndent hindent, indentWidth_append hindent]
  exact Nat.le_add_right _ _

/-- The lines of `result` are those of the block of `text`, each of which has traded the same number
of bytes for `indent`, and no more of them can be taken off every line that is not blank. -/
def KeepsLines (indent text result : List Char) : Prop :=
  ∃ width, IsGreatest {width | ∀ line ∈ blockLines text, allBlank line = false →
      ∃ rest, Loses width line rest} width ∧
    List.Forall₂ (Reindented indent width) (blockLines text) (result.splitOn '\n')

theorem keepsLines_indentBlock {text indent : String} (hindent : '\n' ∉ indent.toList)
    (hne : blockLines text.toList ≠ []) :
    KeepsLines indent.toList text.toList (indentBlock text indent true).toList := by
  refine ⟨commonIndent (blockLines text.toList), ?_, ?_⟩
  · simp only [exists_loses_iff]
    exact isGreatest_commonIndent_blockLines hne
  · have hsplit := splitOn_indentBlock true hindent hne
    rw [if_pos rfl, List.nil_append] at hsplit
    rw [hsplit, List.forall₂_map_right_iff, List.forall₂_same]
    intro line hmem
    cases hline : allBlank line with
    | true =>
      rw [indentLine, if_pos hline]
      exact .blank hline
    | false =>
      rw [indentLine_of_not_blank hline]
      exact .code hline (loses_drop (indentedBy_commonIndent _ line hmem hline))

/-- **Moving a block** to an indentation of spaces and tabs and then to another one is the same as
moving it to the second; and what a move does to a block that is not blank is that every line trades
the same number of bytes, as many as all of them can lose, for the indentation. -/
theorem indentBlock_composes (text indent outer : String)
    (hindent : ∀ c ∈ indent.toList, c = ' ' ∨ c = '\t') (houter : '\n' ∉ outer.toList) :
    (∀ indentFirst, indentBlock (indentBlock text indent true) outer indentFirst =
      indentBlock text outer indentFirst) ∧
    ((∃ line ∈ text.toList.splitOn '\n', allBlank line = false) →
      KeepsLines outer.toList text.toList (indentBlock text outer true).toList) := by
  refine ⟨indentBlock_indentBlock (fun c hc => isIndent_iff.mpr (hindent c hc)) outer, ?_⟩
  rintro ⟨line, hmem, hline⟩
  refine keepsLines_indentBlock houter fun hnil => ?_
  rw [List.dropWhile_eq_nil_iff.mp hnil line hmem] at hline
  cases hline

/-- A block with a blank line in front, tabs beside spaces, a line of wide blanks and a narrow last
line, moved under a tab and a space and then behind a sign. -/
def mixedBlock : String := " \n  \ta \x7b\n\u3000\n  \t  b\n  \x7d"

theorem indentBlock_composes_mixed :
    (∀ c ∈ "\t ".toList, c = ' ' ∨ c = '\t') ∧ '\n' ∉ "> ".toList ∧
      (∃ line ∈ mixedBlock.toList.splitOn '\n', allBlank line = false) ∧
      indentBlock (indentBlock mixedBlock "\t " true) "> " false =
        indentBlock mixedBlock "> " false ∧
      indentBlock mixedBlock "> " false = "\ta \x7b\n\n> \t  b\n> \x7d" ∧
      KeepsLines "> ".toList mixedBlock.toList (indentBlock mixedBlock "> " true).toList := by
  have hindent : ∀ c ∈ "\t ".toList, c = ' ' ∨ c = '\t' := by simp
  have houter : '\n' ∉ "> ".toList := by decide +kernel
  have hcode : ∃ line ∈ mixedBlock.toList.splitOn '\n', allBlank line = false := by decide +kernel
  obtain ⟨htwice, hkeeps⟩ := indentBlock_composes mixedBlock "\t " "> " hindent houter
  exact ⟨hindent, houter, hcode, htwice false, by decide +kernel, hkeeps hcode⟩

end Assist.Text
