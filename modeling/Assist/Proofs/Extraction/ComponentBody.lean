import Assist.Proofs.Extraction.Conservation
import Mathlib.Data.Option.Basic

/-!
# What a component keeps of the function

The function of a component is the host's function with another header. The header is taken to be
the first line, whether or not it ends with the brace of the body, so what follows the brace on that
line is replaced with it. `body_isSuffix_iff` says when the new text still ends with all that
followed the brace: when the brace is not on the first line, when nothing follows it, or when what
follows it on its line is what the new header ends with, which is the case if nothing does. The last
case is the layout in which the host writes its functions. The body of a function on one line is
lost (`body_of_one_line_lost`).
-/

namespace Assist.Extraction

open Assist.Text Assist.Signature Assist.Syntax

/-! ## The lines of a text -/

/-- The first line of a text. -/
def firstLine (text : List Char) : List Char := text.takeWhile (· != '\n')

/-- What follows the first line of a text. -/
def laterLines (text : List Char) : List Char := (text.dropWhile (· != '\n')).drop 1

theorem firstLine_append_laterLines {text : List Char} (h : '\n' ∈ text) :
    firstLine text ++ '\n' :: laterLines text = text := by
  induction text with
  | nil => exact absurd h (by simp)
  | cons c text ih =>
    by_cases hc : c = '\n'
    · subst hc
      rfl
    · have hmem : '\n' ∈ text := (List.mem_cons.mp h).resolve_left (Ne.symm hc)
      simpa [firstLine, laterLines, hc] using ih hmem

/-- A part without a newline belongs to the first line. -/
theorem laterLines_append_of_not_mem {xs : List Char} (h : '\n' ∉ xs) (ys : List Char) :
    laterLines (xs ++ ys) = laterLines ys := by
  have hall : ∀ c ∈ xs, (c != '\n') = true := by
    intro c hc
    rw [bne_iff_ne]
    rintro rfl
    exact h hc
  rw [laterLines, List.dropWhile_append_of_pos hall]
  rfl

theorem laterLines_append_of_mem {xs : List Char} (h : '\n' ∈ xs) (ys : List Char) :
    laterLines (xs ++ ys) = laterLines xs ++ ys := by
  induction xs with
  | nil => exact absurd h (by simp)
  | cons c xs ih =>
    by_cases hc : c = '\n'
    · subst hc
      rfl
    · have hmem : '\n' ∈ xs := (List.mem_cons.mp h).resolve_left (Ne.symm hc)
      simpa [laterLines, hc] using ih hmem

theorem laterLines_eq_nil {text : List Char} (h : '\n' ∉ text) : laterLines text = [] := by
  simpa [laterLines] using laterLines_append_of_not_mem h []

/-- If the first line gives way to `front`, what follows the brace is still the end of the text
exactly if the brace is on a later line, nothing follows it, or `front` ends with what follows it on
its line. -/
theorem suffix_of_new_header_iff {header rest front : List Char} :
    rest <:+ front ++ '\n' :: laterLines (header ++ '{' :: rest) ↔
      '\n' ∈ header ∨ rest = [] ∨ '\n' ∈ rest ∧ firstLine rest <:+ front := by
  by_cases hheader : '\n' ∈ header
  · rw [laterLines_append_of_mem hheader]
    refine ⟨fun _ => Or.inl hheader, fun _ => ?_⟩
    exact ⟨front ++ '\n' :: laterLines header ++ ['{'], by simp⟩
  · have hbrace : '\n' ∉ header ++ ['{'] := by simp [hheader]
    have hlater : laterLines (header ++ '{' :: rest) = laterLines rest := by
      simpa using laterLines_append_of_not_mem hbrace rest
    rw [hlater]
    by_cases hrest : '\n' ∈ rest
    · have hne : rest ≠ [] := List.ne_nil_of_mem hrest
      have hcut := @List.suffix_append_self_iff _ (firstLine rest) front ('\n' :: laterLines rest)
      rw [firstLine_append_laterLines hrest] at hcut
      rw [hcut]
      simp [hheader, hne, hrest]
    · -- the new text ends with the newline, so no other end of it is without one
      rw [laterLines_eq_nil hrest, List.suffix_concat_iff]
      constructor
      · rintro (hnil | ⟨t, rfl, -⟩)
        · exact Or.inr (Or.inl hnil)
        · exact absurd (by simp) hrest
      · rintro (h | hnil | ⟨h, -⟩)
        · exact absurd h hheader
        · exact Or.inl hnil
        · exact absurd h hrest

/-! ## The new text of the function -/

theorem trimStart_append_brace {ws header rest : List Char} (hws : allBlank ws = true) :
    trimStart (ws ++ header ++ '{' :: rest) = trimStart header ++ '{' :: rest := by
  have hblank : ∀ c ∈ ws, isBlank c = true := List.all_eq_true.mp hws
  rw [List.append_assoc, trimStart, List.dropWhile_append_of_pos hblank, List.dropWhile_append]
  split
  · rename_i hnil
    rw [trimStart, List.isEmpty_iff.mp hnil]
    rfl
  · rfl

theorem prefix_leadingBlank {ws text : List Char} (hws : allBlank ws = true) :
    ws <+: leadingBlank (ws ++ text) := by
  have hblank : ∀ c ∈ ws, isBlank c = true := List.all_eq_true.mp hws
  rw [leadingBlank, List.takeWhile_append_of_pos hblank]
  exact List.prefix_append _ _

theorem getLast?_of_openHeader? {printed header : List Char}
    (h : openHeader? printed = some header) : header.getLast? = some '{' := by
  simp only [openHeader?, Option.bind_eq_bind, Option.bind_eq_some_iff, Option.pure_def,
    Option.some.injEq] at h
  obtain ⟨stripped, -, _, hguard, rfl⟩ := h
  exact beq_iff_eq.mp ((Option.guard_eq_some' _).mp hguard)

variable {σ : Type} {edits : Request → StateM σ (Option EditInfo)} {tree : Tree}
  {request : Request} {s s' : σ} {info : EditInfo} {original script : Script}

/-- **What a component keeps.** The new text of the function starts with the blanks before the old
one, and it is `front` and the lines behind the first line of the old one. It ends with all that
followed the brace exactly if the brace is not on the first line, nothing follows it, or `front`
ends with what follows it on its line. -/
theorem body_isSuffix_iff {answer : EditInfo} {file : FileChanges} {ws header rest : List Char}
    (h : Yields (requestedEdit (Host.standard edits) tree request) s (some info) s')
    (hhost : HostEdit edits request s .component answer file original)
    (hinfo : info.edits = [⟨file.fileName, script.toChanges⟩])
    (htext : original.body.newText.toList = ws ++ header ++ '{' :: rest)
    (hws : allBlank ws = true) :
    ws <+: script.body.newText.toList ∧
      ∃ front, ws <+: front ∧ front.getLast? = some '{' ∧
        script.body.newText.toList =
          front ++ '\n' :: laterLines (trimStart header ++ '{' :: rest) ∧
        (rest <:+ script.body.newText.toList ↔
          '\n' ∈ trimStart header ∨ rest = [] ∨ '\n' ∈ rest ∧ firstLine rest <:+ front) := by
  obtain ⟨variant, answer', file', original', s₁, hhost', h⟩ := exists_hostEdit h
  obtain ⟨rfl, rfl, rfl, rfl⟩ := hhost.unique hhost'
  rw [if_pos rfl] at h
  obtain ⟨names, name, newHeader, arguments, renameAt, s₂, -, -, hheader, -, -, rfl⟩ :=
    yields_componentEdit.mp h
  obtain ⟨function, parameters, printed, s₃, -, -, -, hopen⟩ := yields_headerOfComponent.mp hheader
  simp only [List.cons.injEq, FileChanges.mk.injEq, true_and, and_true, Script.toChanges] at hinfo
  obtain ⟨-, hlast⟩ := List.append_inj' hinfo rfl
  have hbody : script.body.newText.toList = leadingBlank original.body.newText.toList ++
      newHeader ++ '\n' :: laterLines (trimStart header ++ '{' :: rest) := by
    simp only [List.cons.injEq, and_true] at hlast
    rw [← hlast.2, String.toList_ofList, laterLines, ← trimStart_append_brace hws, htext]
  have hfront : ws <+: leadingBlank original.body.newText.toList ++ newHeader := by
    rw [htext, List.append_assoc]
    exact (prefix_leadingBlank hws).trans (List.prefix_append _ _)
  have hbrace : (leadingBlank original.body.newText.toList ++ newHeader).getLast? = some '{' := by
    rw [List.getLast?_append, getLast?_of_openHeader? hopen]
    rfl
  refine ⟨?_, _, hfront, hbrace, hbody, ?_⟩
  · rw [hbody]
    exact hfront.trans (List.prefix_append _ _)
  · rw [hbody]
    exact suffix_of_new_header_iff

theorem body_isSuffix_sum :
    "\n".toList <+: sumElement.body.newText.toList ∧
      "\n    return 1 + 2;\n\x7d\n".toList <:+ sumElement.body.newText.toList := by
  have h : Yields (requestedEdit (sumHost [sumImport] "newFunction()" sumFunction) sumTree
      (sumRequest .component)) () (some (sumEdit .component sumElement 13)) () := by decide +kernel
  have hhost := hostEdit_sum .component [sumImport] "newFunction()" sumFunction
  have htext : sumFunction.toList = "\n".toList ++ "function newFunction() ".toList ++
      '{' :: "\n    return 1 + 2;\n\x7d\n".toList := by decide +kernel
  obtain ⟨hblanks, front, -, -, -, hrest⟩ := body_isSuffix_iff h hhost rfl htext (by decide +kernel)
  refine ⟨hblanks, hrest.mpr (Or.inr (Or.inr ⟨by decide +kernel, ?_⟩))⟩
  exact List.nil_suffix

/-- The changes that turn a function on one line into a component. -/
def sumEmptyElement : Script :=
  ⟨[], ⟨⟨12, 5⟩, "<ExtractedComponent />"⟩,
    ⟨⟨19, 0⟩, "\nfunction ExtractedComponent(\x7b\x7d: \x7b\x7d) \x7b\n"⟩⟩

theorem body_of_one_line_lost :
    (FunctionDecl.ofText? "function newFunction() \x7b").isSome = true ∧
    Yields (requestedEdit (sumHost [] "newFunction()"
        "\nfunction newFunction() \x7b return 1 + 2; \x7d\n") sumTree (sumRequest .component)) ()
      (some (sumEdit .component sumEmptyElement 13)) () ∧
    ¬ " return 1 + 2; \x7d\n".toList <:+ sumEmptyElement.body.newText.toList := by
  decide +kernel

end Assist.Extraction
