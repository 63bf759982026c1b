import Assist.Extraction.Action
import Assist.Syntax.Locate
import Assist.Text.Span

/-!
# Offering the variants

The variants are offered beside the actions of the host: an arrow function for an extraction into an
inner scope, and another for one into the scope of the file. Where exactly one JSX element is
selected, a component is offered in the place of all extractions of functions.
-/

namespace Assist.Extraction

open Assist.Text Assist.Syntax

/-- The kind of the action that extracts a component. -/
def componentKind : String := "refactor.extract.jsx"

/-- How the names of the host's extractions of functions start. -/
def functionScopeLead : String := "function_scope"

/-- How the host describes an extraction into an inner scope. -/
def innerScopeLead : String := "Extract to inner function in"

/-- How the host describes an extraction into the scope of the file. -/
def fileScopeDescriptions : List String :=
  ["Extract to function in global scope", "Extract to function in module scope"]

/-- Whether `text` starts with `lead`. -/
def startsWith (lead text : String) : Bool := (stripStart? lead.toList text.toList).isSome

/-- Whether a range covers exactly one JSX element: a self-closing one, or one from its opening tag
to its own closing tag. -/
def selectsElement (tree : Tree) (range : Range) : Bool :=
  if range.isEmpty then false
  else match tree.innermost? range.pos, tree.innermostTouching? range.stop with
    | some first, some last =>
      let first := tree.nameOwner first
      tree.start first == range.pos && match tree.kind first, tree.kind last with
        | .jsxSelfClosingElement, _ => first == last && tree.stop first == range.stop
        | .jsxOpeningElement, .jsxClosingElement =>
          tree.stop last == range.stop && match tree.parent? last with
            | some element =>
              tree.kind element == .jsxElement && (tree.children element).head? == some first
            | none => false
        | _, _ => false
    | _, _ => false

/-- A variant of an action as it is offered. -/
def Variant.offer (variant : Variant) (origin : ActionInfo) (kind : Option String) : ActionInfo :=
  ⟨variant.actionName origin.name, variant.description, kind, none⟩

namespace RefactorInfo

/-- The actions that can be used. -/
def applicable (refactor : RefactorInfo) : List ActionInfo :=
  refactor.actions.filter (·.notApplicableReason.isNone)

/-- The first extraction into an inner scope. -/
def innerExtraction? (refactor : RefactorInfo) : Option ActionInfo :=
  refactor.applicable.find? fun action => startsWith innerScopeLead action.description

/-- The first extraction into the scope of the file. -/
def fileExtraction? (refactor : RefactorInfo) : Option ActionInfo :=
  refactor.applicable.find? fun action => fileScopeDescriptions.contains action.description

/-- The kind under which arrow functions are offered: that of the first action that can be used. -/
def arrowKind (refactor : RefactorInfo) : Option String :=
  refactor.applicable.head?.bind ActionInfo.kind

/-- The arrow functions that are offered. -/
def arrowOffers (refactor : RefactorInfo) : List ActionInfo :=
  (refactor.innerExtraction?.map fun action =>
      Variant.localArrow.offer action refactor.arrowKind).toList
    ++ (refactor.fileExtraction?.map fun action =>
      Variant.arrow.offer action refactor.arrowKind).toList

/-- The refactoring with the variants that fit the selection. -/
def withVariants (refactor : RefactorInfo) (tree : Tree) (selection : Selection) : RefactorInfo :=
  match refactor.fileExtraction?, selection.toRange?.filter (selectsElement tree) with
  | some action, some _ =>
    { refactor with
      actions := refactor.actions.filter (!startsWith functionScopeLead ·.name)
        ++ [Variant.component.offer action (some componentKind)] }
  | _, _ => { refactor with actions := refactor.actions ++ refactor.arrowOffers }

end RefactorInfo

end Assist.Extraction
