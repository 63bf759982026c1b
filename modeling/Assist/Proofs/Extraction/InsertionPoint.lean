import Assist.Proofs.Extraction.Relocation
import Assist.Proofs.Offsets.Tree

/-!
# Where an arrow function is inserted

An arrow function at the top of the file is inserted one byte before the end of the blanks that its
statement starts with. Blanks are Unicode blanks, some of which take two or three bytes, so that
byte need not be the start of a character: the function is inserted at a boundary exactly if the
last of the blanks takes one byte or there is none (`function_isBoundary_iff`). An arrow function
above the statement goes where the host would insert a constant, which is a boundary if all spans of
the host are between boundaries. In `function_inside_wide_blank` a statement follows an ideographic
space, and the edit that puts a function above it cannot be applied.
-/

namespace Assist.Extraction

open Assist.Text Assist.Syntax

variable {σ : Type} {host : Host (StateM σ)} {tree : Tree} {request : Request} {s s' : σ}
  {info : EditInfo} {variant : Variant} {script moved : Script}

/-- Whatever the host is asked, the changes of its answer lie between boundaries of `source`. -/
def SpansOnBoundaries (edits : Request → StateM σ (Option EditInfo)) (source : String) : Prop :=
  ∀ request s answer, (reply (edits request) s).1 = some answer →
    ∀ file ∈ answer.edits, ∀ change ∈ file.textChanges,
      isBoundary change.start source.toList = true ∧ isBoundary change.stop source.toList = true

/-- The statement at `offset` starts with no blanks, or the last of them takes one byte. -/
def AfterNarrowBlank (tree : Tree) (offset : Offset) : Prop :=
  ∀ statement ∈ tree.enclosing? 2 offset, ∀ text ∈ (tree.textWithTrivia statement).toOption,
    ∀ blank ∈ (leadingBlank text.toList).getLast?, blank.utf8Size = 1

instance (tree : Tree) (offset : Offset) : Decidable (AfterNarrowBlank tree offset) :=
  decidable_of_iff (((tree.enclosing? 2 offset).all fun statement =>
      (tree.textWithTrivia statement).toOption.all fun text =>
        (leadingBlank text.toList).getLast?.all fun blank => blank.utf8Size == 1) = true)
    (by simp [AfterNarrowBlank, Option.all_eq_true])

theorem toNat_of_aboveStatement {statement : NodeId} {text : String} {place : Offset}
    (htext : tree.textWithTrivia statement = .ok text)
    (h : aboveStatement tree statement = .ok place) :
    place.toNat =
      (tree.pos statement).toNat + max (byteLen (leadingBlank text.toList)) 1 - 1 := by
  rw [aboveStatement, htext] at h
  simp only [bind, Except.bind] at h
  split at h
  · rename_i hle
    cases h
    refine UInt32.toNat_ofNat_of_lt' ?_
    simp only [maxOffset, UInt32.size] at hle ⊢
    omega
  · cases h

/-- The place above a statement is a boundary exactly if the last of the blanks that the statement
starts with takes one byte. -/
theorem aboveStatement_isBoundary_iff (haligned : tree.Aligned) {offset place : Offset}
    {statement : NodeId} (hfound : tree.enclosing? 2 offset = some statement)
    (h : aboveStatement tree statement = .ok place) :
    isBoundary place.toNat tree.source.toList = true ↔ AfterNarrowBlank tree offset := by
  obtain ⟨before, cs, after, hsource, hbefore, -, htext⟩ :=
    Tree.exists_textBetween (haligned.isBoundary_pos statement) (haligned.isBoundary_stop statement)
  have hsplit : tree.source.toList = before ++ leadingBlank cs ++ (trimStart cs ++ after) := by
    rw [hsource, List.append_assoc before (leadingBlank cs), ← List.append_assoc (leadingBlank cs),
      leadingBlank_append_trimStart, List.append_assoc]
  have hplace := toNat_of_aboveStatement htext h
  rw [String.toList_ofList] at hplace
  have htrivia : tree.textWithTrivia statement = .ok (String.ofList cs) := htext
  rw [hplace, ← hbefore, hsplit, isBoundary_before_last_byte_iff, AfterNarrowBlank, hfound]
  simp only [Option.mem_some_iff, forall_eq', htrivia, Except.toOption, String.toList_ofList]

/-- A function that is moved above its statement starts at a boundary exactly if that statement
follows a narrow blank; one that is moved to where the host would insert a constant always does. -/
theorem moveFunction_isBoundary_iff (haligned : tree.Aligned)
    (hspans : SpansOnBoundaries host.edits tree.source)
    (h : Yields (moveFunction host tree request variant script) s moved s')
    (hbody : isBoundary script.body.start tree.source.toList = true) :
    isBoundary moved.body.start tree.source.toList = true ↔
      (variant ≠ .localArrow → AfterNarrowBlank tree request.selection.start) := by
  rw [yields_moveFunction] at h
  split at h
  · rename_i hlocal
    obtain ⟨constant, anchor, hconstant, hanchor, hmove⟩ := h
    obtain ⟨file, hfile, hchange⟩ := Option.bind_eq_some_iff.mp hanchor
    have hstart := (hspans _ s constant (by rw [(yields_editOf.mp hconstant).1]) file
      (List.mem_of_head? hfile) anchor (List.mem_of_head? hchange)).1
    obtain ⟨-, -, -, rfl⟩ := moveAboveAnchor_eq_ok_iff.mp hmove
    exact iff_of_true hstart fun hne => absurd hlocal hne
  · rename_i hlocal
    obtain ⟨-, h⟩ := h
    rw [imp_iff_right hlocal]
    split at h
    · rename_i statement hfound
      obtain ⟨place, hplace, hmove⟩ := h
      obtain ⟨-, -, -, rfl⟩ := Script.moveBody_eq_ok_iff.mp hmove
      exact aboveStatement_isBoundary_iff haligned hfound hplace
    · rename_i hnone
      rw [h]
      refine iff_of_true hbody fun statement hfound => ?_
      rw [hnone] at hfound
      cases hfound

/-- **The place of an arrow function.** On a tree over boundaries and with a host whose changes lie
between boundaries, the function of an arrow function starts at a boundary exactly if it goes where
the host would insert a constant or the statement it is put above follows a narrow blank. -/
theorem function_isBoundary_iff {origin : String} (haligned : tree.Aligned)
    (hspans : SpansOnBoundaries host.edits tree.source)
    (haction : Variant.ofActionName? request.actionName = some (origin, variant))
    (hvariant : variant ≠ .component)
    (h : Yields (requestedEdit host tree request) s (some info) s') :
    ∃ answer file script function, HostEdit host.edits request s variant answer file script ∧
      info.edits = [⟨file.fileName, script.leading ++ [function, script.callSite]⟩] ∧
      (isBoundary function.start tree.source.toList = true ↔
        (variant = .arrow → AfterNarrowBlank tree request.selection.start)) := by
  obtain ⟨variant', answer, file, script, s₁, hhost, h⟩ := exists_hostEdit h
  obtain ⟨origin', -, haction', hanswer⟩ := hhost.asked
  rw [haction, Option.some.injEq, Prod.mk.injEq] at haction'
  obtain ⟨rfl, rfl⟩ := haction'
  rw [if_neg hvariant] at h
  obtain ⟨name, arrow, moved, s₂, renameAt, -, -, hmove, -, rfl⟩ := yields_arrowEdit.mp h
  obtain ⟨hleading, hcallSite, -⟩ := moveFunction_frame hmove
  refine ⟨answer, file, script, moved.body, hhost, ?_, ?_⟩
  · rw [Script.toRelocatedChanges, hleading, hcallSite]
  · have hmem : script.body ∈ file.textChanges := by
      rw [hhost.changes, Script.toChanges]
      simp
    have hfile : file ∈ answer.edits := List.mem_of_head? hhost.first
    have hbody := (hspans _ s answer hanswer file hfile script.body hmem).1
    rw [moveFunction_isBoundary_iff haligned hspans hmove hbody]
    have hglobal : variant ≠ .localArrow ↔ variant = .arrow := by
      cases variant <;> simp at hvariant ⊢
    rw [hglobal]

/-! ## A wide blank -/

/-- A file of two statements with `blanks`, four bytes of them, in between. -/
def wideTree (blanks : String) : Tree :=
  (((Tree.empty ("log();" ++ blanks ++ "const sum = 1 + 2;\n")).addLeaf .expressionStatement 0
    6).addLeaf .variableStatement 6 28).addFile [⟨0⟩, ⟨1⟩]

/-- The changes that extract the sum of `wideTree`. -/
def wideScript : Script := { importScript with leading := [] }

/-- A host that has these changes. -/
def wideHost : Host (StateM Unit) :=
  Host.ofTable [("function_scope_0", ⟨[⟨"sum.ts", wideScript.toChanges⟩], none, none⟩)]

/-- A request for the sum of `wideTree` as an arrow function. -/
def wideRequest : Request := { sumRequest .arrow with selection := .range ⟨22, 27⟩ }

/-- The changes that turn the function into an arrow function, one byte before the second
statement. -/
def wideArrow : Script := { importArrow with leading := [] }

/-- A host with a table of edits has its spans at boundaries if all edits of the table do. -/
theorem spansOnBoundaries_ofTable {answers : List (String × EditInfo)} {source : String}
    (h : ∀ entry ∈ answers, ∀ file ∈ entry.2.edits, ∀ change ∈ file.textChanges,
      isBoundary change.start source.toList = true ∧ isBoundary change.stop source.toList = true) :
    SpansOnBoundaries (Host.ofTable answers).edits source := by
  intro request s answer hanswer
  have hlookup : answers.lookup request.actionName = some answer := hanswer
  obtain ⟨before, after, rfl, -⟩ := List.lookup_eq_some_iff.mp hlookup
  exact h (request.actionName, answer) (by simp)

theorem function_isBoundary_newline :
    ∃ answer file script function,
      HostEdit wideHost.edits wideRequest () .arrow answer file script ∧
      (sumEdit .arrow wideArrow 71).edits =
        [⟨file.fileName, script.leading ++ [function, script.callSite]⟩] ∧
      isBoundary function.start (wideTree "\u3000\n").source.toList = true := by
  have haligned : (wideTree "\u3000\n").Aligned := ⟨by decide +kernel, by decide +kernel⟩
  have hspans : SpansOnBoundaries wideHost.edits (wideTree "\u3000\n").source :=
    spansOnBoundaries_ofTable (by decide +kernel)
  have haction : Variant.ofActionName? wideRequest.actionName =
      some ("function_scope_0", .arrow) := by decide +kernel
  have h : Yields (requestedEdit wideHost (wideTree "\u3000\n") wideRequest) ()
      (some (sumEdit .arrow wideArrow 71)) () := by decide +kernel
  obtain ⟨answer, file, script, function, hhost, hedits, hiff⟩ :=
    function_isBoundary_iff haligned hspans haction (by decide) h
  exact ⟨answer, file, script, function, hhost, hedits, hiff.mpr (by decide +kernel)⟩

/-- A statement after an ideographic space, which takes three bytes: the function is inserted inside
the space, and the edit cannot be applied. -/
theorem function_inside_wide_blank :
    (wideTree "\n\u3000").Aligned ∧
      SpansOnBoundaries wideHost.edits (wideTree "\n\u3000").source ∧
      Yields (requestedEdit wideHost (wideTree "\n\u3000") wideRequest) ()
        (some (sumEdit .arrow wideArrow 71)) () ∧
      isBoundary wideArrow.body.start (wideTree "\n\u3000").source.toList = false ∧
      (applyChanges? (wideTree "\n\u3000").source (wideArrow.arranged .arrow)).isNone = true := by
  refine ⟨⟨by decide +kernel, by decide +kernel⟩, spansOnBoundaries_ofTable (by decide +kernel), ?_⟩
  simp only [applyChanges?, sortChanges_eq_foldr]
  decide +kernel

end Assist.Extraction
