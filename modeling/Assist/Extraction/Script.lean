import Assist.Extraction.Change
import Assist.Extraction.Refusal

/-!
# The changes of an extraction

The edit of an extraction ends in two changes: the selection becomes a call, and the new function is
inserted. Whatever comes before, such as new imports, is carried along. The insertion can be moved,
but not into the text that the call replaces.
-/

namespace Assist.Extraction

open Assist.Text

/-- The changes of an extraction by what they are for. -/
structure Script where
  leading : List Change
  callSite : Change
  body : Change
  deriving DecidableEq, Repr

namespace Script

/-- The script of a list of changes. Every span has to end at an offset, and there have to be a call
and a function. -/
def ofChanges (changes : List Change) : Except Refusal Script :=
  match changes.find? (·.span.stop?.isNone) with
  | some change => .error (.invalidSpan change.span)
  | none =>
    match changes.reverse with
    | body :: callSite :: leading => .ok ⟨leading.reverse, callSite, body⟩
    | _ => .error (.missingTextChanges changes.length)

/-- Move the insertion of the function to `start`. -/
def moveBody (script : Script) (start : Offset) : Except Refusal Script :=
  if script.callSite.span.stop?.isNone then .error (.invalidSpan script.callSite.span)
  else if !script.body.span.isEmpty then .error (.relocatedReplacement script.body.span)
  else if script.callSite.span.strictlyContains start then
    .error (.overlappingChanges start script.callSite.span)
  else .ok { script with body := { script.body with span := Span.emptyAt start } }

/-- The changes in the order of the host, the function last. -/
def toChanges (script : Script) : List Change :=
  script.leading ++ [script.callSite, script.body]

/-- The changes with the function before the call, for a function above it. -/
def toRelocatedChanges (script : Script) : List Change :=
  script.leading ++ [script.body, script.callSite]

end Script

end Assist.Extraction
