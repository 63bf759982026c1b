import Assist.Extraction.Catalog
import Assist.Extraction.Edit
import Assist.Proofs.Offsets.Function
import Assist.Proofs.Offsets.Tree

/-!
# Edits by offset

The edit of a variant is made by the functions of the modules before: the tree is searched by the
start of the selection, and the texts of the host are cut and put together. On an aligned tree all
of this is done without a fault whatever the host answers, so the edit is that of the library
(`requestedEdit_eq`) and it fails by a refusal or not at all (`faultless_requestedEdit`). The same
holds of the question whether a selection is an element, on any tree (`withVariants_eq`).
-/

namespace Assist.Offsets

open Assist.Text Assist.Signature Assist.Syntax Assist.Extraction

/-! ## Steps without a fault -/

section Steps

variable {m : Type → Type} [Monad m] {α β : Type}

@[simp] theorem ofFault_ok (a : α) : (ofFault (.ok a) : ExceptT Failure m α) = pure a := rfl

variable [LawfulMonad m]

theorem ofRefusal_bind (x : Except Refusal α) (f : α → Except Refusal β) :
    (ofRefusal (x >>= f) : ExceptT Failure m β) = ofRefusal x >>= fun a => ofRefusal (f a) := by
  cases x with
  | ok a => exact (pure_bind a fun a => (ofRefusal (f a) : ExceptT Failure m β)).symm
  | error refusal =>
    apply ExceptT.ext
    rw [ExceptT.run_bind]
    show pure (Except.error (Failure.refused refusal)) = pure _ >>= _
    rw [pure_bind]
    rfl

/-- What the host need not be asked for. -/
@[simp] theorem liftM_pure_bind (a : α) (f : α → ExceptT Failure m β) :
    (liftM (pure a : m α) : ExceptT Failure m α) >>= f = f a := by
  have hlift : (liftM (pure a : m α) : ExceptT Failure m α) = pure a := by
    apply ExceptT.ext
    show Except.ok <$> pure a = pure (Except.ok a)
    rw [map_pure]
  rw [hlift, pure_bind]

/-- Whatever the host answers, the computation ends with a value or a refusal. -/
def Faultless (x : ExceptT Failure m α) : Prop :=
  ∃ answer : m (Except Refusal α), x.run = Except.mapError Failure.refused <$> answer

theorem faultless_ofRefusal (x : Except Refusal α) :
    Faultless (ofRefusal x : ExceptT Failure m α) :=
  ⟨pure x, (map_pure _ x).symm⟩

theorem faultless_pure (a : α) : Faultless (pure a : ExceptT Failure m α) :=
  faultless_ofRefusal (.ok a)

theorem faultless_ofFault {x : Except Fault α} (h : ∃ a, x = .ok a) :
    Faultless (ofFault x : ExceptT Failure m α) := by
  obtain ⟨a, rfl⟩ := h
  exact faultless_pure a

/-- A question to the host is no fault. -/
theorem faultless_liftM (question : m α) : Faultless (liftM question : ExceptT Failure m α) := by
  refine ⟨Except.ok <$> question, ?_⟩
  rw [← comp_map]
  rfl

theorem faultless_bind {x : ExceptT Failure m α} {f : α → ExceptT Failure m β} (hx : Faultless x)
    (hf : ∀ a, Faultless (f a)) : Faultless (x >>= f) := by
  obtain ⟨answer, hanswer⟩ := hx
  choose answers hanswers using hf
  refine ⟨answer >>= fun | .ok a => answers a | .error refusal => pure (.error refusal), ?_⟩
  rw [ExceptT.run_bind, hanswer, map_bind, bind_map_left]
  congr 1
  funext result
  cases result with
  | ok a => exact hanswers a
  | error refusal =>
    rw [map_pure]
    rfl

end Steps

/-! ## Edits -/

section Edit

variable {m : Type → Type} [Monad m]

/-- The indentation at the place where the host inserts a constant. -/
def anchorIndent (source : String) (anchor : Change) (atLineStart : Bool) : Except Fault String :=
  if atLineStart then do return String.ofList (← indentOf anchor.newText.toList)
  else indentAt source anchor.span.start

/-- Move the function to where the host would insert a constant, under the indentation there. -/
def moveAboveAnchor (source : String) (anchor : Change) (script : Script) :
    ExceptT Failure m Script := do
  let script ← ofRefusal (script.moveBody anchor.span.start)
  let atLineStart ← ofFault (startsLine source anchor.span.start)
  let indent ← ofFault (anchorIndent source anchor atLineStart)
  let block ← ofFault (indentBlock script.body.newText indent atLineStart)
  let newText := block ++ "\n" ++ (if atLineStart then "" else indent)
  return { script with body := { script.body with newText } }

variable (edits : Request → m (Option EditInfo)) (tree : Tree) (request : Request)

/-- Move the function to its place above the statement that is extracted from. -/
def moveFunction (variant : Variant) (script : Script) : ExceptT Failure m Script := do
  if variant = .localArrow then
    let constant ← editOf (Host.standard edits) request constantAction
    let anchor := constant.edits.head?.bind (·.textChanges.head?)
    let anchor ← ofRefusal (orRefuse anchor (.missingTextChanges 0))
    moveAboveAnchor tree.source anchor script
  else
    match ← ofFault (enclosing? tree 2 request.selection.start) with
    | some statement =>
      let start ← ofFault (aboveStatement tree statement)
      ofRefusal (script.moveBody start)
    | none => return script

/-- The edit of an arrow function. -/
def arrowEdit (variant : Variant) (script : Script) (fileName : String)
    (renameFile : Option String) : ExceptT Failure m EditInfo := do
  let text := script.body.newText.toList
  let name ← ofFault (declaredName? text).run
  let name ← ofRefusal (orRefuse name (.malformedFunctionText .functionHeader))
  let arrow ← ofFault (toArrow? text).run
  let arrow ← ofRefusal (orRefuse arrow (.malformedFunctionText .parameterList))
  let script := { script with body := { script.body with newText := String.ofList arrow } }
  let script ← moveFunction edits tree request variant script
  let edits := [⟨fileName, script.toRelocatedChanges⟩]
  let renameAt := locateName? edits fileName (String.ofList name) true
  return { edits, renameFile, renameAt }

/-- The header of the component that is made from the signature of a function. -/
def headerOfComponent (signature name : String) : ExceptT Failure m (List Char) := do
  let function ← ofFault (ofChars? signature.toList).run
  let function ← ofRefusal (orRefuse function (.malformedFunctionText .signature))
  let names ← ofRefusal (plainNames function.parameters)
  let printed := (componentOf name function names).print request.layout
  ofRefusal (orRefuse (openHeader? printed.toList) (.malformedFunctionText .componentBody))

/-- The edit of a component. -/
def componentEdit (script : Script) (fileName : String) (renameFile : Option String) :
    ExceptT Failure m EditInfo := do
  let text := script.body.newText.toList
  let indent ← ofFault (leadingBlank text)
  let function ← ofFault (textAfter (byteLen indent) text)
  let signature := function.takeWhile (· != '\n')
  let body := (function.dropWhile (· != '\n')).drop 1
  let names ← ofFault (usedNames tree)
  let name := freshName (names.contains ·) componentBaseName
  let header ← headerOfComponent request (String.ofList signature) name
  let arguments ← ofFault (argumentsOf? script.callSite.newText).run
  let arguments ← ofRefusal (orRefuse arguments (.malformedFunctionText .callSite))
  let newText := String.ofList (indent ++ header ++ '\n' :: body)
  let element := elementText name arguments
  let span := script.callSite.span
  let renameAt ← ofRefusal (orRefuse (Span.stop? ⟨span.start, 1⟩) (.invalidSpan span))
  let script := { script with
    body := { script.body with newText }
    callSite := { script.callSite with newText := element } }
  return { edits := [⟨fileName, script.toChanges⟩], renameFile, renameAt := some renameAt }

/-- The edit of a variant of the action `origin`. -/
def variantEdit (origin : String) (variant : Variant) : ExceptT Failure m EditInfo := do
  let edit ← editOf (Host.standard edits) request origin
  match edit.edits with
  | [] => ofRefusal (.error (.missingOriginEdit origin))
  | file :: _ =>
    let script ← ofRefusal (Script.ofChanges file.textChanges)
    match variant with
    | .component => componentEdit tree request script file.fileName edit.renameFile
    | _ => arrowEdit edits tree request variant script file.fileName edit.renameFile

/-- The edit of a requested action; `none` if the action is not a variant. -/
def requestedEdit : ExceptT Failure m (Option EditInfo) := do
  match Variant.ofActionName? request.actionName with
  | none => return none
  | some (origin, variant) => return some (← variantEdit edits tree request origin variant)

end Edit

section Agreement

variable {m : Type → Type} [Monad m] [LawfulMonad m] (edits : Request → m (Option EditInfo))
variable {tree : Tree} (request : Request)

theorem anchorIndent_eq (source : String) (anchor : Change) (atLineStart : Bool) :
    anchorIndent source anchor atLineStart =
      .ok (if atLineStart then String.ofList (Text.indentOf anchor.newText.toList)
        else Extraction.indentAt source anchor.span.start) := by
  cases atLineStart with
  | true => simp [anchorIndent, indentOf_eq]
  | false => simp [anchorIndent, indentAt_eq]

theorem moveAboveAnchor_eq (source : String) (anchor : Change) (script : Script) :
    moveAboveAnchor (m := m) source anchor script =
      ofRefusal (Extraction.moveAboveAnchor source anchor script) := by
  rw [moveAboveAnchor, Extraction.moveAboveAnchor, ofRefusal_bind]
  simp only [startsLine_eq, anchorIndent_eq, indentBlock_eq, ofFault_ok, pure_bind]
  rfl

theorem moveFunction_eq (h : tree.Aligned) (variant : Variant) (script : Script) :
    moveFunction edits tree request variant script =
      Extraction.moveFunction (Host.standard edits) tree request variant script := by
  rw [moveFunction, Extraction.moveFunction]
  simp only [moveAboveAnchor_eq, enclosing?_eq, ofFault_ok, pure_bind]
  split
  · rfl
  · show (match tree.enclosing? 2 request.selection.start with
      | some _ => _
      | none => _) = _
    cases hfound : tree.enclosing? 2 request.selection.start with
    | none => rfl
    | some statement =>
      obtain ⟨place, hplace, hplace'⟩ := aboveStatement_eq h hfound
      simp only [hplace, hplace']

theorem arrowEdit_eq (h : tree.Aligned) (variant : Variant) (script : Script) (fileName : String)
    (renameFile : Option String) :
    arrowEdit edits tree request variant script fileName renameFile =
      Extraction.arrowEdit (Host.standard edits) tree request variant script fileName
        renameFile := by
  simp only [arrowEdit, Extraction.arrowEdit, declaredName?_eq, toArrow?_eq, run_found, ofFault_ok,
    pure_bind, moveFunction_eq edits request h, Host.standard, liftM_pure_bind]

theorem headerOfComponent_eq (signature name : String) :
    headerOfComponent (m := m) request signature name =
      Extraction.headerOfComponent (Host.standard edits) request signature name := by
  simp only [headerOfComponent, Extraction.headerOfComponent, ofChars?_eq, run_found, ofFault_ok,
    pure_bind, Host.standard, liftM_pure_bind, FunctionDecl.ofText?]

theorem componentEdit_eq (h : tree.Aligned) (script : Script) (fileName : String)
    (renameFile : Option String) :
    componentEdit tree request script fileName renameFile =
      Extraction.componentEdit (Host.standard edits) tree request script fileName renameFile := by
  obtain ⟨names, hnames⟩ := h.exists_usedNames
  simp only [componentEdit, Extraction.componentEdit, leadingBlank_eq, textAfter_leadingBlank,
    usedNames_eq, hnames, argumentsOf?_eq, run_found, ofFault_ok, pure_bind,
    headerOfComponent_eq edits request, Host.standard, liftM_pure_bind]

theorem variantEdit_eq (h : tree.Aligned) (origin : String) (variant : Variant) :
    variantEdit edits tree request origin variant =
      Extraction.variantEdit (Host.standard edits) tree request origin variant := by
  unfold variantEdit Extraction.variantEdit
  refine bind_congr fun edit => ?_
  cases edit.edits with
  | nil => rfl
  | cons file files =>
    refine bind_congr fun script => ?_
    cases variant with
    | component => exact componentEdit_eq edits request h script _ _
    | arrow => exact arrowEdit_eq edits request h .arrow script _ _
    | localArrow => exact arrowEdit_eq edits request h .localArrow script _ _

/-- On an aligned tree the edit by offset is the edit of the library. -/
theorem requestedEdit_eq (h : tree.Aligned) :
    requestedEdit edits tree request =
      Extraction.requestedEdit (Host.standard edits) tree request := by
  unfold requestedEdit Extraction.requestedEdit
  cases Variant.ofActionName? request.actionName with
  | none => rfl
  | some read =>
    obtain ⟨origin, variant⟩ := read
    exact congrArg (· >>= _) (variantEdit_eq edits request h origin variant)

end Agreement

/-! ## Edits without a fault -/

section Faultless

variable {m : Type → Type} [Monad m] [LawfulMonad m] (host : Host m)
variable {tree : Tree} (request : Request)

theorem faultless_editOf (actionName : String) : Faultless (editOf host request actionName) :=
  faultless_bind (faultless_liftM _) fun _ => faultless_ofRefusal _

theorem faultless_moveFunction (h : tree.Aligned) (variant : Variant) (script : Script) :
    Faultless (Extraction.moveFunction host tree request variant script) := by
  unfold Extraction.moveFunction
  split
  · exact faultless_bind (faultless_editOf host request _) fun _ =>
      faultless_bind (faultless_ofRefusal _) fun _ => faultless_ofRefusal _
  · split
    · rename_i statement hfound
      obtain ⟨place, -, hplace⟩ := aboveStatement_eq h hfound
      exact faultless_bind (faultless_ofFault ⟨place, hplace⟩) fun _ => faultless_ofRefusal _
    · exact faultless_pure _

theorem faultless_arrowEdit (h : tree.Aligned) (variant : Variant) (script : Script)
    (fileName : String) (renameFile : Option String) :
    Faultless (Extraction.arrowEdit host tree request variant script fileName renameFile) :=
  faultless_bind (faultless_ofRefusal _) fun _ =>
    faultless_bind (faultless_ofRefusal _) fun _ =>
      faultless_bind (faultless_moveFunction host request h _ _) fun _ =>
        faultless_bind (faultless_liftM _) fun _ => faultless_pure _

theorem faultless_headerOfComponent (signature name : String) :
    Faultless (Extraction.headerOfComponent host request signature name) :=
  faultless_bind (faultless_liftM _) fun _ =>
    faultless_bind (faultless_ofRefusal _) fun _ =>
      faultless_bind (faultless_ofRefusal _) fun _ =>
        faultless_bind (faultless_liftM _) fun _ => faultless_ofRefusal _

theorem faultless_componentEdit (h : tree.Aligned) (script : Script) (fileName : String)
    (renameFile : Option String) :
    Faultless (Extraction.componentEdit host tree request script fileName renameFile) :=
  faultless_bind (faultless_ofFault h.exists_usedNames) fun _ =>
    faultless_bind (faultless_liftM _) fun _ =>
      faultless_bind (faultless_headerOfComponent host request _ _) fun _ =>
        faultless_bind (faultless_ofRefusal _) fun _ =>
          faultless_bind (faultless_ofRefusal _) fun _ => faultless_pure _

theorem faultless_variantEdit (h : tree.Aligned) (origin : String) (variant : Variant) :
    Faultless (Extraction.variantEdit host tree request origin variant) := by
  refine faultless_bind (faultless_editOf host request origin) fun edit => ?_
  split
  · exact faultless_ofRefusal _
  · refine faultless_bind (faultless_ofRefusal _) fun script => ?_
    split
    · exact faultless_componentEdit host request h _ _ _
    · exact faultless_arrowEdit host request h _ _ _ _

/-- On an aligned tree an edit fails by a refusal or not at all, whatever the host answers. -/
theorem faultless_requestedEdit (h : tree.Aligned) :
    Faultless (Extraction.requestedEdit host tree request) := by
  unfold Extraction.requestedEdit
  split
  · exact faultless_pure _
  · exact faultless_bind (faultless_variantEdit host request h _ _) fun _ => faultless_pure _

end Faultless

/-! ## Offers -/

/-- Whether a range covers exactly one JSX element. -/
def selectsElement (tree : Tree) (range : Range) : Except Fault Bool := do
  if range.isEmpty then return false
  else
    let first? ← innermost? tree range.pos
    let last? ← innermostTouching? tree range.stop
    match first?, last? with
    | some first, some last =>
      let first := tree.nameOwner first
      return (← start tree first) == range.pos && match tree.kind first, tree.kind last with
        | .jsxSelfClosingElement, _ => first == last && tree.stop first == range.stop
        | .jsxOpeningElement, .jsxClosingElement =>
          tree.stop last == range.stop && match tree.parent? last with
            | some element =>
              tree.kind element == .jsxElement && (tree.children element).head? == some first
            | none => false
        | _, _ => false
    | _, _ => return false

theorem selectsElement_eq (tree : Tree) (range : Range) :
    selectsElement tree range = .ok (Extraction.selectsElement tree range) := by
  simp only [selectsElement, Extraction.selectsElement, innermost?_eq, innermostTouching?_eq,
    start_eq, ok_bind, pure_eq_ok]
  split
  · rfl
  · cases tree.innermost? range.pos <;> cases tree.innermostTouching? range.stop <;> rfl

/-- The refactoring with the variants that fit the selection. -/
def withVariants (refactor : RefactorInfo) (tree : Tree) (selection : Selection) :
    Except Fault RefactorInfo :=
  let arrows := { refactor with actions := refactor.actions ++ refactor.arrowOffers }
  match refactor.fileExtraction?, selection.toRange? with
  | some action, some range => do
    if ← selectsElement tree range then
      return { refactor with
        actions := refactor.actions.filter (!startsWith functionScopeLead ·.name)
          ++ [Variant.component.offer action (some componentKind)] }
    else return arrows
  | _, _ => return arrows

theorem withVariants_eq (refactor : RefactorInfo) (tree : Tree) (selection : Selection) :
    withVariants refactor tree selection = .ok (refactor.withVariants tree selection) := by
  rw [withVariants, RefactorInfo.withVariants]
  cases refactor.fileExtraction? with
  | none => rfl
  | some action =>
    cases selection.toRange? with
    | none => rfl
    | some range =>
      simp only [selectsElement_eq, ok_bind]
      cases hselects : Extraction.selectsElement tree range <;>
        simp [Option.filter, hselects]

end Assist.Offsets
