import Assist.Completion.Entry
import Assist.Wire.Basic

/-!
# Completion entries on the wire

What an entry does not have is left out when it is written.
-/

namespace Assist.Wire

open Assist.Completion

instance : Wire LabelDetails where
  write details := .object
    (unlessNone "detail" details.detail ++ unlessNone "description" details.description)
  read? json := do
    match ← slots? ["detail", "description"] json with
    | [detail, description] => return ⟨← detail.optionalOr, ← description.optionalOr⟩
    | _ => none

instance : Wire Entry where
  write entry := .object <|
    [("name", write entry.name), ("kind", write entry.kind)]
      ++ unlessNone "kindModifiers" entry.kindModifiers
      ++ [("sortText", write entry.sortText)]
      ++ unlessNone "insertText" entry.insertText
      ++ (if entry.isSnippet then [("isSnippet", write true)] else [])
      ++ unlessNone "labelDetails" entry.labelDetails
  read? json := do
    match ← slots? ["name", "kind", "kindModifiers", "sortText", "insertText", "isSnippet",
        "labelDetails"] json with
    | [name, kind, kindModifiers, sortText, insertText, isSnippet, labelDetails] =>
      return { name := ← name.required, kind := ← kind.required
               kindModifiers := ← kindModifiers.optionalOr, sortText := ← sortText.required
               insertText := ← insertText.optionalOr, isSnippet := ← isSnippet.withDefault false
               labelDetails := ← labelDetails.optionalOr }
    | _ => none

end Assist.Wire
