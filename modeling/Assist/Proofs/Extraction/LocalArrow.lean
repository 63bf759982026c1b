import Assist.Proofs.Extraction.Conservation
import Assist.Proofs.Offsets.Partial
import Assist.Proofs.Text.Indent

/-!
# The lines of a local arrow function

An arrow function above the statement goes where the host would insert a constant. That place is the
start of a line, or it is behind the blanks that a line starts with (`LineBreaksAt`). In the first
case the function is indented like the constant and is followed by a line break. In the second case
its first line is put behind the blanks, the others are indented by them, and they are repeated
behind the line break, so that the statement is indented as before (`localArrow_on_lines`).
-/

namespace Assist.Extraction

open Assist.Text Assist.Signature Assist.Syntax Assist.Offsets

/-! ## The line of the anchor -/

/-- A line of `source` starts at `offset`, but for the blanks `lead` that are in front of it on the
line. The lines before are `earlier`, and `after` is what follows the offset, which does not start
with more blanks if there are some in front of it. -/
structure LineBreaksAt (source : String) (offset : Offset) (earlier lead after : List Char) :
    Prop where
  text : source.toList = earlier ++ lead ++ after
  place : byteLen (earlier ++ lead) = offset.toNat
  lines : ∀ c ∈ earlier.getLast?, c = '\n'
  oneLine : '\n' ∉ lead
  blank : allBlank lead = true
  clear : lead ≠ [] → ∀ c ∈ after.head?, isBlank c = false

variable {source : String} {offset : Offset} {earlier lead after : List Char}

theorem byteLen_pos {cs : List Char} (h : cs ≠ []) : 0 < byteLen cs := by
  obtain ⟨c, rest, rfl⟩ := List.exists_cons_of_ne_nil h
  have hpos := c.utf8Size_pos
  rw [byteLen_cons]
  omega

/-- The byte in front of a place behind some text is one of that text. -/
theorem exists_byteAt?_before (hsource : source.toList = earlier ++ lead ++ after)
    (hoffset : byteLen (earlier ++ lead) = offset.toNat) (hlead : lead ≠ []) :
    ∃ b, byteAt? source (offset.toNat - 1) = some b ∧ b ∈ utf8 lead := by
  have hpos : 0 < (utf8 lead).length := by
    rw [length_utf8]
    exact byteLen_pos hlead
  have hlast : offset.toNat - 1 = (utf8 earlier).length + ((utf8 lead).length - 1) := by
    rw [byteLen_append, ← length_utf8, ← length_utf8] at hoffset
    omega
  refine ⟨(utf8 lead)[(utf8 lead).length - 1], ?_, List.getElem_mem _⟩
  rw [byteAt?, hsource, utf8_append, utf8_append, List.append_assoc, hlast,
    List.getElem?_append_right (Nat.le_add_right _ _), Nat.add_sub_cancel_left,
    List.getElem?_append_left (by omega), List.getElem?_eq_getElem]

namespace LineBreaksAt

variable (h : LineBreaksAt source offset earlier lead after)
include h

/-- A line starts at the offset exactly if there are no blanks in front of it. -/
theorem startsLine_iff : startsLine source offset = true ↔ lead = [] := by
  rw [startsLine, Bool.or_eq_true, beq_iff_eq, beq_iff_eq]
  constructor
  · intro hstart
    by_contra hlead
    obtain ⟨b, hb, hmem⟩ := exists_byteAt?_before h.text h.place hlead
    rcases hstart with hzero | hnewline
    · have hplace := h.place
      have hpos := byteLen_pos hlead
      rw [hzero, byteLen_append, UInt32.toNat_zero] at hplace
      omega
    · rw [hb, Option.some.injEq] at hnewline
      subst hnewline
      exact h.oneLine (ofUInt8_mem_of_mem_utf8 (by decide) hmem)
  · rintro rfl
    rcases List.eq_nil_or_concat earlier with rfl | ⟨front, c, rfl⟩
    · left
      rw [← UInt32.toNat_inj, ← h.place]
      rfl
    · right
      obtain rfl : c = '\n' := h.lines c (by simp)
      have htext : source.toList = front ++ ['\n'] ++ after := by simpa using h.text
      have hplace : byteLen (front ++ ['\n']) = offset.toNat := by simpa using h.place
      obtain ⟨b, hb, hmem⟩ := exists_byteAt?_before htext hplace (List.cons_ne_nil _ _)
      rw [hb, List.mem_singleton.mp hmem]
      rfl

/-- The indentation of the line is the blanks in front of the offset. -/
theorem indentAt_eq (hlead : lead ≠ []) : (indentAt source offset).toList = lead := by
  have hcut : cut? offset.toNat source.toList = some (earlier ++ lead, after) :=
    cut?_eq_some_iff.mpr ⟨h.text, h.place⟩
  have hblanks : leadingBlank (lead ++ after) = lead := by
    have hafter : after.takeWhile isBlank = [] := by
      cases after with
      | nil => rfl
      | cons c after => exact List.takeWhile_cons_of_neg (by simp [h.clear hlead c rfl])
    rw [leadingBlank, List.takeWhile_append_of_pos (List.all_eq_true.mp h.blank), hafter,
      List.append_nil]
  have hline : afterLast '\n' ([] ++ lead) = lead := afterLast_append (by simp) h.oneLine
  rw [List.nil_append] at hline
  rw [indentAt, hcut]
  simp only [String.toList_ofList]
  rw [afterLast_append h.lines h.oneLine, Text.indentOf, hblanks, hline]

end LineBreaksAt

/-! ## The moved function -/

/-- The new text of an arrow function is not blank. -/
theorem mem_of_toArrow? {text arrow : List Char} (h : toArrow? text = some arrow) :
    '=' ∈ arrow := by
  simp only [toArrow?, Option.bind_eq_bind, Option.pure_def, Option.bind_eq_some_iff] at h
  obtain ⟨_, _, _, _, _, _, _, _, h⟩ := h
  cases h
  simp

/-- The indentation of a local arrow function: the blanks that are on its line, or the indentation
of the constant at the start of a line. -/
def indentOver (lead : List Char) (anchor : Change) : List Char :=
  if lead = [] then Text.indentOf anchor.newText.toList else lead

/-- A function that is moved to a line is a block under the indentation there, and it ends with a
line break and what was in front of the anchor. -/
theorem exists_block_of_moveAboveAnchor {anchor : Change} {script moved : Script} {c : Char}
    (h : moveAboveAnchor source anchor script = .ok moved)
    (hline : LineBreaksAt source anchor.span.start earlier lead after)
    (hmem : c ∈ script.body.newText.toList) (hc : isBlank c = false) :
    ∃ block, moved.body.newText.toList = block ++ '\n' :: lead ∧
      IsBlockUnder (indentOver lead anchor) script.body.newText.toList (lead ++ block) := by
  obtain ⟨-, -, -, rfl⟩ := moveAboveAnchor_eq_ok_iff.mp h
  by_cases hlead : lead = []
  · subst hlead
    have hnewline : '\n' ∉ (String.ofList (Text.indentOf anchor.newText.toList)).toList := by
      rw [String.toList_ofList]
      exact newline_not_mem_indentOf _
    have hblock := isBlockUnder_indentBlock true hnewline hmem hc
    rw [if_pos rfl, String.toList_ofList] at hblock
    refine ⟨_, ?_, hblock⟩
    rw [textAboveAnchor, if_pos (hline.startsLine_iff.mpr rfl)]
    simp
  · have hindent := hline.indentAt_eq hlead
    have hstart : startsLine source anchor.span.start = false :=
      Bool.eq_false_iff.mpr fun h => hlead (hline.startsLine_iff.mp h)
    have hnewline : '\n' ∉ (indentAt source anchor.span.start).toList := by
      rw [hindent]
      exact hline.oneLine
    have hblock := isBlockUnder_indentBlock false hnewline hmem hc
    rw [if_neg Bool.false_ne_true, hindent] at hblock
    rw [indentOver, if_neg hlead]
    refine ⟨_, ?_, hblock⟩
    rw [textAboveAnchor, hstart, if_neg Bool.false_ne_true]
    simp [hindent]

variable {σ : Type} {host : Host (StateM σ)} {tree : Tree} {request : Request} {s s' : σ}
  {info : EditInfo}

/-- **The lines of a local arrow function.** The function of a local arrow function is inserted
where the first change of the host's edit for a constant is, which is asked for after the edit of
the function. Where that is at the start of a line, or behind the blanks at the start of a line, the
edit puts a block of whole lines before that line: the arrow function under the indentation there,
every line of which is empty or starts with that indentation. What was in front of the anchor is put
in front of it again. -/
theorem localArrow_on_lines {origin : String}
    (haction : Variant.ofActionName? request.actionName = some (origin, .localArrow))
    (h : Yields (requestedEdit host tree request) s (some info) s') :
    ∃ answer file script constant anchor arrow function,
      HostEdit host.edits request s .localArrow answer file script ∧
      (reply (host.edits { request with actionName := constantAction })
        (reply (host.edits { request with actionName := origin }) s).2).1 = some constant ∧
      (constant.edits.head?.bind fun file => file.textChanges.head?) = some anchor ∧
      toArrow? script.body.newText.toList = some arrow ∧
      info.edits = [⟨file.fileName, script.leading ++ [function, script.callSite]⟩] ∧
      function.span = Span.emptyAt anchor.span.start ∧
      ∀ earlier lead after, LineBreaksAt tree.source anchor.span.start earlier lead after →
        ∃ block, function.newText.toList = block ++ '\n' :: lead ∧
          IsBlockUnder (indentOver lead anchor) arrow (lead ++ block) ∧
          ∀ line ∈ (lead ++ block).splitOn '\n', line = [] ∨ indentOver lead anchor <+: line := by
  obtain ⟨answer, file, script, arrow, moved, s₁, s₂, hhost, hreply, harrow, hmove, hedits⟩ :=
    exists_moved_of_requestedEdit haction (by decide) h
  rw [yields_moveFunction, if_pos rfl] at hmove
  obtain ⟨constant, anchor, hconstant, hanchor, hmove⟩ := hmove
  refine ⟨answer, file, script, constant, anchor, arrow, moved.body, hhost, ?_, hanchor, harrow,
    hedits, ?_, fun earlier lead after hline => ?_⟩
  · rw [hreply]
    rw [(yields_editOf.mp hconstant).1]
  · obtain ⟨-, -, -, rfl⟩ := moveAboveAnchor_eq_ok_iff.mp hmove
    rfl
  · obtain ⟨block, htext, hblock⟩ := exists_block_of_moveAboveAnchor hmove hline
      (by rw [String.toList_ofList]; exact mem_of_toArrow? harrow) (by decide)
    rw [String.toList_ofList] at hblock
    exact ⟨block, htext, hblock, fun line => hblock.line_cases⟩

/-! ## An anchor behind the indentation -/

/-- A file with a statement that is indented by four blanks. -/
def guardTree : Tree := (Tree.empty "if (ready) \x7b\n    log(a * 2);\n\x7d\n").addFile []

/-- The changes that extract the product of `guardTree` into a function at its end. -/
def guardScript : Script :=
  ⟨[], ⟨⟨21, 5⟩, "newFunction()"⟩,
    ⟨⟨31, 0⟩, "\nfunction newFunction() \x7b\n    return a * 2;\n\x7d\n"⟩⟩

/-- The insertion of a constant behind the indentation of the statement. -/
def guardConstant : Change := ⟨⟨17, 0⟩, "const newLocal = a * 2;\n    "⟩

/-- A host that has these edits. -/
def guardHost : Host (StateM Unit) :=
  Host.ofTable
    [("function_scope_0", ⟨[⟨"sum.ts", guardScript.toChanges⟩], none, none⟩),
     ("constant_scope_0",
       ⟨[⟨"sum.ts", [guardConstant, ⟨⟨21, 5⟩, "newLocal"⟩]⟩], none, none⟩)]

/-- A request for the product of `guardTree` as a local arrow function. -/
def guardRequest : Request := { sumRequest .localArrow with selection := .range ⟨21, 26⟩ }

/-- The changes that turn the function into an arrow function above the statement. -/
def guardArrow : Script :=
  { guardScript with
    body := ⟨⟨17, 0⟩,
      "const newFunction = () => \x7b\n        return a * 2;\n    \x7d\n\n    "⟩ }

theorem localArrow_on_lines_guard :
    ∃ answer file script arrow function block,
      HostEdit guardHost.edits guardRequest () .localArrow answer file script ∧
      toArrow? script.body.newText.toList = some arrow ∧
      (sumEdit .localArrow guardArrow 82).edits =
        [⟨file.fileName, script.leading ++ [function, script.callSite]⟩] ∧
      function.span = Span.emptyAt 17 ∧
      function.newText.toList = block ++ "\n    ".toList ∧
      IsBlockUnder "    ".toList arrow ("    ".toList ++ block) ∧
      ∀ line ∈ ("    ".toList ++ block).splitOn '\n', line = [] ∨ "    ".toList <+: line := by
  have haction : Variant.ofActionName? guardRequest.actionName =
      some ("function_scope_0", .localArrow) := by decide +kernel
  have h : Yields (requestedEdit guardHost guardTree guardRequest) ()
      (some (sumEdit .localArrow guardArrow 82)) () := by decide +kernel
  obtain ⟨answer, file, script, constant, anchor, arrow, function, hhost, hconstant, hanchor,
    harrow, hedits, hspan, hlines⟩ := localArrow_on_lines haction h
  -- the host's edit for a constant starts with the anchor
  obtain rfl : guardConstant = anchor := by
    have hanswer : (some ⟨[⟨"sum.ts", [guardConstant, ⟨⟨21, 5⟩, "newLocal"⟩]⟩], none, none⟩ :
        Option EditInfo) = some constant := hconstant
    cases hanswer
    exact Option.some.inj hanchor
  have hline : LineBreaksAt guardTree.source guardConstant.span.start "if (ready) \x7b\n".toList
      "    ".toList "log(a * 2);\n\x7d\n".toList := by
    have hbreak : "if (ready) \x7b\n".toList.getLast? = some '\n' := by decide +kernel
    have hfirst : "log(a * 2);\n\x7d\n".toList.head? = some 'l' := by decide +kernel
    refine ⟨by decide +kernel, by decide +kernel, ?_, by decide +kernel, by decide +kernel, ?_⟩
    · rw [hbreak]
      rintro c ⟨⟩
      rfl
    · rw [hfirst]
      rintro - c ⟨⟩
      decide
  obtain ⟨block, htext, hblock, hindent⟩ := hlines _ _ _ hline
  exact ⟨answer, file, script, arrow, function, block, hhost, harrow, hedits, hspan, htext, hblock,
    hindent⟩

end Assist.Extraction
