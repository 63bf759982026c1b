import Assist.Extraction.Action
import Assist.Extraction.Host
import Assist.Wire.Settings
import Assist.Wire.Signature
import Assist.Wire.Text

/-!
# Refactorings on the wire

Actions, edits and the requests for them. What a value does not have is left out when it is
written.
-/

namespace Assist.Wire

open Assist.Extraction Assist.Signature

instance : Wire Change where
  write change := .object [("span", write change.span), ("newText", write change.newText)]
  read? json := do
    match ← slots? ["span", "newText"] json with
    | [span, newText] => return ⟨← span.required, ← newText.required⟩
    | _ => none

instance : Wire FileChanges where
  write file := .object
    [("fileName", write file.fileName), ("textChanges", write file.textChanges)]
  read? json := do
    match ← slots? ["fileName", "textChanges"] json with
    | [fileName, textChanges] => return ⟨← fileName.required, ← textChanges.required⟩
    | _ => none

instance : Wire EditInfo where
  write edit := .object <|
    [("edits", write edit.edits)] ++ unlessNone "renameFilename" edit.renameFile
      ++ unlessNone "renameLocation" edit.renameAt
  read? json := do
    match ← slots? ["edits", "renameFilename", "renameLocation"] json with
    | [edits, renameFile, renameAt] =>
      return ⟨← edits.required, ← renameFile.optionalOr, ← renameAt.optionalOr⟩
    | _ => none

instance : Wire ActionInfo where
  write action := .object <|
    [("name", write action.name), ("description", write action.description)]
      ++ unlessNone "kind" action.kind
      ++ unlessNone "notApplicableReason" action.notApplicableReason
  read? json := do
    match ← slots? ["name", "description", "kind", "notApplicableReason"] json with
    | [name, description, kind, notApplicableReason] =>
      return { name := ← name.required, description := ← description.required
               kind := ← kind.optionalOr, notApplicableReason := ← notApplicableReason.optionalOr }
    | _ => none

instance : Wire RefactorInfo where
  write refactor := .object
    [("name", write refactor.name), ("description", write refactor.description),
      ("actions", write refactor.actions)]
  read? json := do
    match ← slots? ["name", "description", "actions"] json with
    | [name, description, actions] =>
      return ⟨← name.required, ← description.required, ← actions.required⟩
    | _ => none

instance : Wire Request where
  write request := .object
    [("fileName", write request.fileName), ("format", write request.layout),
      ("positionOrRange", write request.selection), ("refactorName", write request.refactorName),
      ("actionName", write request.actionName), ("preferences", write request.preferences)]
  read? json := do
    match ← slots? ["fileName", "format", "positionOrRange", "refactorName", "actionName",
        "preferences"] json with
    | [fileName, layout, selection, refactorName, actionName, preferences] =>
      return { fileName := ← fileName.required
               layout := ← layout.withDefault Layout.standard
               selection := ← selection.required
               refactorName := ← refactorName.required
               actionName := ← actionName.required
               preferences := ← preferences.withDefault Preferences.standard }
    | _ => none

end Assist.Wire
