import Assist.Proofs.Extraction.Run
import Assist.Proofs.Extraction.Script

/-!
# What an extraction keeps of the host's edit

The edit of a variant is made from the first file of the host's edit (`HostEdit`). All changes but
the last two are carried over as they are. A component keeps the last two where they are and gives
them new texts; an arrow function keeps the call and is put before it, where it was or as an
insertion elsewhere (`requestedEdit_conserves`).
-/

namespace Assist.Extraction

open Assist.Text Assist.Signature Assist.Syntax

variable {σ : Type} {host : Host (StateM σ)} {tree : Tree} {request : Request} {s s' : σ}
  {info : EditInfo}

/-- What a request is made from: it asks for a variant of an action of the host, the host in state
`s` answers with `answer` for that action, and the changes of the first file are those of
`script`. -/
structure HostEdit (edits : Request → StateM σ (Option EditInfo)) (request : Request) (s : σ)
    (variant : Variant) (answer : EditInfo) (file : FileChanges) (script : Script) : Prop where
  asked : ∃ origin, request.actionName = variant.actionName origin ∧
    Variant.ofActionName? request.actionName = some (origin, variant) ∧
    (reply (edits { request with actionName := origin }) s).1 = some answer
  first : answer.edits.head? = some file
  changes : file.textChanges = script.toChanges

theorem actionName_of_ofActionName? {name origin : String} {variant : Variant}
    (h : Variant.ofActionName? name = some (origin, variant)) :
    name = variant.actionName origin := by
  obtain ⟨v, -, hv⟩ := List.exists_of_findSome?_eq_some h
  obtain ⟨cs, hcs, heq⟩ := Option.map_eq_some_iff.mp hv
  rw [Prod.mk.injEq] at heq
  obtain ⟨rfl, rfl⟩ := heq
  rw [stripEnd?_eq_some_iff] at hcs
  rw [Variant.actionName, ← String.toList_inj, String.toList_append, String.toList_ofList]
  exact hcs

/-- A request with an edit is made from an edit of the host. -/
theorem exists_hostEdit (h : Yields (requestedEdit host tree request) s (some info) s') :
    ∃ variant answer file script s₁,
      HostEdit host.edits request s variant answer file script ∧
      if variant = .component then
        Yields (componentEdit host tree request script file.fileName answer.renameFile) s₁ info s'
      else Yields (arrowEdit host tree request variant script file.fileName answer.renameFile)
        s₁ info s' := by
  obtain ⟨origin, variant, haction, h⟩ := yields_requestedEdit.mp h
  obtain ⟨answer, file, files, script, s₁, hanswer, hedits, hscript, h⟩ := yields_variantEdit.mp h
  refine ⟨variant, answer, file, script, s₁, ⟨⟨origin, ?_, haction, ?_⟩, ?_, ?_⟩, h⟩
  · exact actionName_of_ofActionName? haction
  · rw [(yields_editOf.mp hanswer).1]
  · rw [hedits]
    rfl
  · exact (Script.ofChanges_eq_ok_iff.mp hscript).2

/-- The edit that a request is made from is unique. -/
theorem HostEdit.unique {edits : Request → StateM σ (Option EditInfo)} {variant variant' : Variant}
    {answer answer' : EditInfo} {file file' : FileChanges} {script script' : Script}
    (h : HostEdit edits request s variant answer file script)
    (h' : HostEdit edits request s variant' answer' file' script') :
    variant = variant' ∧ answer = answer' ∧ file = file' ∧ script = script' := by
  obtain ⟨origin, -, haction, hanswer⟩ := h.asked
  obtain ⟨origin', -, haction', hanswer'⟩ := h'.asked
  rw [haction, Option.some.injEq, Prod.mk.injEq] at haction'
  obtain ⟨rfl, rfl⟩ := haction'
  rw [hanswer, Option.some.injEq] at hanswer'
  subst hanswer'
  have hfile : file = file' := by
    have hfirst := h.first
    rw [h'.first, Option.some.injEq] at hfirst
    exact hfirst.symm
  subst hfile
  have hchanges := h.changes
  rw [h'.changes] at hchanges
  obtain ⟨hleading, hlast⟩ := List.append_inj' hchanges rfl
  cases script
  cases script'
  simp_all

/-- The text that a function has above an anchor: the block of its text under the indentation there,
with a line break and, within a line, that indentation once more. -/
def textAboveAnchor (source : String) (anchor : Change) (text : String) : String :=
  if startsLine source anchor.span.start then
    indentBlock text (String.ofList (Text.indentOf anchor.newText.toList)) true ++ "\n"
  else
    indentBlock text (indentAt source anchor.span.start) false ++ "\n" ++
      indentAt source anchor.span.start

/-- Moving a function above an anchor makes it an insertion where the anchor starts. -/
theorem moveAboveAnchor_eq_ok_iff {source : String} {anchor : Change} {script moved : Script} :
    moveAboveAnchor source anchor script = .ok moved ↔
      script.callSite.stop ≤ maxOffset ∧ script.body.span.isEmpty = true ∧
        script.callSite.span.strictlyContains anchor.span.start = false ∧
        moved = { script with body := ⟨Span.emptyAt anchor.span.start,
          textAboveAnchor source anchor script.body.newText⟩ } := by
  have hmove : moveAboveAnchor source anchor script =
      (script.moveBody anchor.span.start).map fun placed => { placed with
        body := { placed.body with
          newText := textAboveAnchor source anchor placed.body.newText } } := by
    unfold moveAboveAnchor textAboveAnchor
    cases script.moveBody anchor.span.start with
    | error e => rfl
    | ok placed =>
      cases startsLine source anchor.span.start with
      | false => rfl
      | true =>
        simp only [if_true, String.append_empty]
        rfl
  rw [hmove]
  constructor
  · intro h
    cases hbody : script.moveBody anchor.span.start with
    | error e => simp [hbody, Except.map] at h
    | ok placed =>
      obtain ⟨hfit, hempty, hapart, rfl⟩ := Script.moveBody_eq_ok_iff.mp hbody
      rw [hbody, Except.map, Except.ok.injEq] at h
      exact ⟨hfit, hempty, hapart, h.symm⟩
  · rintro ⟨hfit, hempty, hapart, rfl⟩
    rw [Script.moveBody_eq_ok_iff.mpr ⟨hfit, hempty, hapart, rfl⟩]
    rfl

/-- A function that is moved stays as it is, or it becomes an insertion elsewhere that is not inside
the call. -/
theorem moveFunction_cases {variant : Variant} {script moved : Script}
    (h : Yields (moveFunction host tree request variant script) s moved s') :
    moved = script ∨ ∃ start newText,
      script.callSite.stop ≤ maxOffset ∧ script.callSite.span.strictlyContains start = false ∧
        moved = { script with body := ⟨Span.emptyAt start, newText⟩ } := by
  rw [yields_moveFunction] at h
  split at h
  · obtain ⟨constant, anchor, -, -, hmove⟩ := h
    obtain ⟨hfit, -, hapart, rfl⟩ := moveAboveAnchor_eq_ok_iff.mp hmove
    exact Or.inr ⟨anchor.span.start, _, hfit, hapart, rfl⟩
  · obtain ⟨-, h⟩ := h
    split at h
    · obtain ⟨start, -, hmove⟩ := h
      obtain ⟨hfit, -, hapart, rfl⟩ := Script.moveBody_eq_ok_iff.mp hmove
      exact Or.inr ⟨start, _, hfit, hapart, rfl⟩
    · exact Or.inl h

/-- Moving a function leaves the other changes alone, and its own span unless it becomes empty. -/
theorem moveFunction_frame {variant : Variant} {script moved : Script}
    (h : Yields (moveFunction host tree request variant script) s moved s') :
    moved.leading = script.leading ∧ moved.callSite = script.callSite ∧
      (moved.body.span = script.body.span ∨ moved.body.span.isEmpty = true) := by
  obtain rfl | ⟨start, newText, -, -, rfl⟩ := moveFunction_cases h
  · exact ⟨rfl, rfl, Or.inl rfl⟩
  · exact ⟨rfl, rfl, Or.inr rfl⟩

/-- The edit of an arrow function lists the function of the host, turned into an arrow function and
moved, before the call. It is moved once the host has answered for the action that it came from. -/
theorem exists_moved_of_requestedEdit {origin : String} {variant : Variant}
    (haction : Variant.ofActionName? request.actionName = some (origin, variant))
    (hvariant : variant ≠ .component)
    (h : Yields (requestedEdit host tree request) s (some info) s') :
    ∃ answer file script arrow moved s₁ s₂,
      HostEdit host.edits request s variant answer file script ∧
      reply (host.edits { request with actionName := origin }) s = (some answer, s₁) ∧
      toArrow? script.body.newText.toList = some arrow ∧
      Yields (moveFunction host tree request variant
        { script with body := { script.body with newText := String.ofList arrow } }) s₁ moved s₂ ∧
      info.edits = [⟨file.fileName, script.leading ++ [moved.body, script.callSite]⟩] := by
  obtain ⟨origin', variant', haction', h⟩ := yields_requestedEdit.mp h
  rw [haction, Option.some.injEq, Prod.mk.injEq] at haction'
  obtain ⟨rfl, rfl⟩ := haction'
  obtain ⟨answer, file, files, script, s₁, hanswer, hedits, hscript, h⟩ := yields_variantEdit.mp h
  obtain ⟨hreply, -⟩ := yields_editOf.mp hanswer
  rw [if_neg hvariant] at h
  obtain ⟨name, arrow, moved, s₂, renameAt, -, harrow, hmove, -, rfl⟩ := yields_arrowEdit.mp h
  obtain ⟨hleading, hcallSite, -⟩ := moveFunction_frame hmove
  refine ⟨answer, file, script, arrow, moved, s₁, s₂, ⟨⟨origin, ?_, haction, ?_⟩, ?_, ?_⟩, hreply,
    harrow, hmove, ?_⟩
  · exact actionName_of_ofActionName? haction
  · rw [hreply]
  · rw [hedits]
    rfl
  · exact (Script.ofChanges_eq_ok_iff.mp hscript).2
  · rw [Script.toRelocatedChanges, hleading, hcallSite]

/-- **Conservation of the host's edit.** The edit of a request has one file, that of the host's
edit, with as many changes as there, at least two, and the leading ones unchanged. A component keeps
the last two but for their texts; an arrow function comes before the call, which is unchanged, at
its old span or as an insertion. -/
theorem requestedEdit_conserves
    (h : Yields (requestedEdit host tree request) s (some info) s') :
    ∃ variant answer file script, HostEdit host.edits request s variant answer file script ∧
      info.renameFile = answer.renameFile ∧
      ∃ changes, info.edits = [⟨file.fileName, changes⟩] ∧
        2 ≤ file.textChanges.length ∧ changes.length = file.textChanges.length ∧
        if variant = .component then
          ∃ element component, changes = script.leading ++
            [{ script.callSite with newText := element }, { script.body with newText := component }]
        else ∃ function, changes = script.leading ++ [function, script.callSite] ∧
          (function.span = script.body.span ∨ function.span.isEmpty = true) := by
  obtain ⟨variant, answer, file, script, s₁, hhost, h⟩ := exists_hostEdit h
  refine ⟨variant, answer, file, script, hhost, ?_⟩
  have htwo : 2 ≤ file.textChanges.length := by simp [hhost.changes, Script.toChanges]
  split at h
  · rename_i hcomponent
    obtain ⟨names, name, header, arguments, renameAt, s₂, -, -, -, -, -, rfl⟩ :=
      yields_componentEdit.mp h
    refine ⟨rfl, _, rfl, htwo, by simp [hhost.changes, Script.toChanges], ?_⟩
    rw [if_pos hcomponent]
    exact ⟨_, _, rfl⟩
  · rename_i hcomponent
    obtain ⟨name, arrow, moved, s₂, renameAt, -, -, hmove, -, rfl⟩ := yields_arrowEdit.mp h
    obtain ⟨hleading, hcallSite, hspan⟩ := moveFunction_frame hmove
    refine ⟨rfl, _, rfl, htwo, by simp [hhost.changes, Script.toChanges, Script.toRelocatedChanges,
      hleading], ?_⟩
    rw [if_neg hcomponent]
    exact ⟨moved.body, by rw [Script.toRelocatedChanges, hleading, hcallSite], hspan⟩

/-! ## A sample -/

/-- A file of one statement. -/
def sumTree : Tree :=
  ((Tree.empty "const sum = 1 + 2;\n").addLeaf .variableStatement 0 18).addFile [⟨0⟩]

/-- The changes that extract the sum of `sumTree` into a function behind the statement. -/
def sumScript (leading : List Change) (callSite function : String) : Script :=
  ⟨leading, ⟨⟨12, 5⟩, callSite⟩, ⟨⟨19, 0⟩, function⟩⟩

/-- A host that has these changes. -/
def sumHost (leading : List Change) (callSite function : String) : Host (StateM Unit) :=
  Host.ofTable [("function_scope_0",
    ⟨[⟨"sum.ts", (sumScript leading callSite function).toChanges⟩], none, none⟩)]

/-- A request for a variant of that extraction. -/
def sumRequest (variant : Variant) : Request :=
  ⟨"sum.ts", Layout.standard, .range ⟨12, 17⟩, "Extract Symbol",
    variant.actionName "function_scope_0", ⟨false, .auto⟩⟩

theorem hostEdit_sum (variant : Variant) (leading : List Change) (callSite function : String) :
    HostEdit (sumHost leading callSite function).edits (sumRequest variant) () variant
      ⟨[⟨"sum.ts", (sumScript leading callSite function).toChanges⟩], none, none⟩
      ⟨"sum.ts", (sumScript leading callSite function).toChanges⟩
      (sumScript leading callSite function) := by
  refine ⟨⟨"function_scope_0", rfl, ?_, rfl⟩, rfl, rfl⟩
  cases variant <;> decide +kernel

/-- An insertion at the top of the file. -/
def sumImport : Change := ⟨⟨0, 0⟩, "import \"./log\";\n"⟩

/-- The text of the function that the host extracts. -/
def sumFunction : String := "\nfunction newFunction() \x7b\n    return 1 + 2;\n\x7d\n"

/-- The changes that turn it into an arrow function. -/
def sumArrow : Script :=
  ⟨[sumImport], ⟨⟨12, 5⟩, "newFunction()"⟩,
    ⟨⟨0, 0⟩, "\nconst newFunction = () => \x7b\n    return 1 + 2;\n\x7d\n"⟩⟩

/-- The changes that turn it into a component. -/
def sumElement : Script :=
  ⟨[sumImport], ⟨⟨12, 5⟩, "<ExtractedComponent />"⟩,
    ⟨⟨19, 0⟩, "\nfunction ExtractedComponent(\x7b\x7d: \x7b\x7d) \x7b\n    return 1 + 2;\n\x7d\n"⟩⟩

/-- An edit with the changes of a script that asks for a name at `offset`. -/
def sumEdit (variant : Variant) (script : Script) (offset : Offset) : EditInfo :=
  ⟨[⟨"sum.ts", script.arranged variant⟩], none, some offset⟩

theorem requestedEdit_conserves_sum :
    ∃ variant answer file script,
      HostEdit (sumHost [sumImport] "newFunction()" sumFunction).edits (sumRequest .arrow) ()
        variant answer file script ∧
      (sumEdit .arrow sumArrow 77).renameFile = answer.renameFile ∧
      ∃ changes, (sumEdit .arrow sumArrow 77).edits = [⟨file.fileName, changes⟩] ∧
        2 ≤ file.textChanges.length ∧ changes.length = file.textChanges.length ∧
        if variant = .component then
          ∃ element component, changes = script.leading ++
            [{ script.callSite with newText := element }, { script.body with newText := component }]
        else ∃ function, changes = script.leading ++ [function, script.callSite] ∧
          (function.span = script.body.span ∨ function.span.isEmpty = true) := by
  have h : Yields (requestedEdit (sumHost [sumImport] "newFunction()" sumFunction) sumTree
      (sumRequest .arrow)) () (some (sumEdit .arrow sumArrow 77)) () := by decide +kernel
  exact requestedEdit_conserves h

end Assist.Extraction
