import Assist.Extraction.Action
import Assist.Extraction.Arrow
import Assist.Extraction.Component
import Assist.Extraction.Host
import Assist.Extraction.Script
import Assist.Syntax.Locate
import Assist.Syntax.Walk
import Assist.Text.Indent

/-!
# The edit of a variant

The edit of a variant is made from the host's edit of the action it came from. For an arrow function
the declaration is turned into a constant and inserted above the statement that is extracted from,
before the call. For a component the declaration and the call take their new form where they are. An
edit that does not have the form of an extraction is refused as a whole.
-/

namespace Assist.Extraction

open Assist.Text Assist.Signature Assist.Syntax

/-- The host's action that extracts a constant, which is inserted above the statement. -/
def constantAction : String := "constant_scope_0"

/-- A step that the edit has to pass. -/
def ofRefusal {m : Type → Type} [Monad m] {α : Type} (result : Except Refusal α) :
    ExceptT Failure m α :=
  ExceptT.mk (pure (result.mapError Failure.refused))

/-- A step that the tree has to pass. -/
def ofFault {m : Type → Type} [Monad m] {α : Type} (result : Except Fault α) :
    ExceptT Failure m α :=
  ExceptT.mk (pure (result.mapError Failure.fault))

/-- A value that has to be there. -/
def orRefuse {α : Type} (value : Option α) (error : Refusal) : Except Refusal α :=
  match value with
  | some value => .ok value
  | none => .error error

/-- The indentation of the line of `source` that `offset` is in, or of the first line if it is in
none. -/
def indentAt (source : String) (offset : Offset) : String :=
  match cut? offset.toNat source.toList with
  | some (before, after) => String.ofList (indentOf (afterLast '\n' before ++ after))
  | none => String.ofList (indentOf source.toList)

/-- Where a function goes above the node `statement`: before the last byte of the whitespace that
the node starts with. -/
def aboveStatement (tree : Tree) (statement : NodeId) : Except Fault Offset := do
  let text ← tree.textWithTrivia statement
  let blanks := byteLen (leadingBlank text.toList)
  let start := (tree.pos statement).toNat + max blanks 1
  if start ≤ maxOffset then return UInt32.ofNat (start - 1) else throw .offsetOverflow

/-- Move the function to where the host would insert a constant, under the indentation there. The
host inserts it at the start of a line with the indentation in its text, or after the indentation
that is on the line. -/
def moveAboveAnchor (source : String) (anchor : Change) (script : Script) :
    Except Refusal Script := do
  let script ← script.moveBody anchor.span.start
  let atLineStart := startsLine source anchor.span.start
  let indent := if atLineStart then String.ofList (indentOf anchor.newText.toList)
    else indentAt source anchor.span.start
  let newText := indentBlock script.body.newText indent atLineStart ++ "\n"
    ++ (if atLineStart then "" else indent)
  return { script with body := { script.body with newText } }

section Edit

variable {m : Type → Type} [Monad m] (host : Host m) (tree : Tree) (request : Request)

/-- The host's edit of an action. One without files is as good as none. -/
def editOf (actionName : String) : ExceptT Failure m EditInfo := do
  let edit ← host.edits { request with actionName }
  ofRefusal (orRefuse (edit.filter (!·.edits.isEmpty)) (.missingOriginEdit actionName))

/-- Move the function to its place above the statement that is extracted from. -/
def moveFunction (variant : Variant) (script : Script) : ExceptT Failure m Script := do
  if variant = .localArrow then
    let constant ← editOf host request constantAction
    let anchor := constant.edits.head?.bind (·.textChanges.head?)
    let anchor ← ofRefusal (orRefuse anchor (.missingTextChanges 0))
    ofRefusal (moveAboveAnchor tree.source anchor script)
  else
    match tree.enclosing? 2 request.selection.start with
    | some statement =>
      let start ← ofFault (aboveStatement tree statement)
      ofRefusal (script.moveBody start)
    | none => return script

/-- The edit of an arrow function. -/
def arrowEdit (variant : Variant) (script : Script) (fileName : String)
    (renameFile : Option String) : ExceptT Failure m EditInfo := do
  let text := script.body.newText.toList
  let name ← ofRefusal (orRefuse (declaredName? text) (.malformedFunctionText .functionHeader))
  let arrow ← ofRefusal (orRefuse (toArrow? text) (.malformedFunctionText .parameterList))
  let script := { script with body := { script.body with newText := String.ofList arrow } }
  let script ← moveFunction host tree request variant script
  let edits := [⟨fileName, script.toRelocatedChanges⟩]
  let renameAt ← host.locateName edits fileName (String.ofList name) true
  return { edits, renameFile, renameAt }

/-- The header of the component that is made from the signature of a function. -/
def headerOfComponent (signature name : String) : ExceptT Failure m (List Char) := do
  let function ← host.readSignature signature
  let function ← ofRefusal (orRefuse function (.malformedFunctionText .signature))
  let names ← ofRefusal (plainNames function.parameters)
  let printed ← host.writeSignature (componentOf name function names) request.layout
  ofRefusal (orRefuse (openHeader? printed.toList) (.malformedFunctionText .componentBody))

/-- The edit of a component. Its name is asked for in the element that stands for the call. -/
def componentEdit (script : Script) (fileName : String) (renameFile : Option String) :
    ExceptT Failure m EditInfo := do
  let text := script.body.newText.toList
  let function := trimStart text
  let signature := function.takeWhile (· != '\n')
  let body := (function.dropWhile (· != '\n')).drop 1
  let names ← ofFault tree.usedNames
  let name ← host.freshName componentBaseName names
  let header ← headerOfComponent host request (String.ofList signature) name
  let arguments ← ofRefusal
    (orRefuse (argumentsOf? script.callSite.newText) (.malformedFunctionText .callSite))
  let newText := String.ofList (leadingBlank text ++ header ++ '\n' :: body)
  let element := elementText name arguments
  let span := script.callSite.span
  let renameAt ← ofRefusal (orRefuse (Span.stop? ⟨span.start, 1⟩) (.invalidSpan span))
  let script := { script with
    body := { script.body with newText }
    callSite := { script.callSite with newText := element } }
  return { edits := [⟨fileName, script.toChanges⟩], renameFile, renameAt := some renameAt }

/-- The edit of a variant of the action `origin`. -/
def variantEdit (origin : String) (variant : Variant) : ExceptT Failure m EditInfo := do
  let edit ← editOf host request origin
  match edit.edits with
  | [] => ofRefusal (.error (.missingOriginEdit origin))
  | file :: _ =>
    let script ← ofRefusal (Script.ofChanges file.textChanges)
    match variant with
    | .component => componentEdit host tree request script file.fileName edit.renameFile
    | _ => arrowEdit host tree request variant script file.fileName edit.renameFile

/-- The edit of a requested action; `none` if the action is not a variant. -/
def requestedEdit : ExceptT Failure m (Option EditInfo) := do
  match Variant.ofActionName? request.actionName with
  | none => return none
  | some (origin, variant) => return some (← variantEdit host tree request origin variant)

end Edit

end Assist.Extraction
