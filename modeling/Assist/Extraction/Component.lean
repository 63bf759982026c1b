import Assist.Extraction.Refusal
import Assist.Signature.Parser
import Assist.Signature.Printer

/-!
# From a function to a component

A component takes the parameters of a function as one object: its parameter is an object pattern
over their names with an inline object type over their types. The call of the function becomes an
element that gives every argument as an attribute of the same name.
-/

namespace Assist.Extraction

open Assist.Text Assist.Signature

/-- The base of the names of components. -/
def componentBaseName : String := "ExtractedComponent"

/-- The text of a call without a semicolon after it and braces around it. -/
def bareCall (text : List Char) : List Char :=
  let call := trim text
  let call := trimEnd ((stripEnd? [';'] call).getD call)
  match (stripStart? ['{'] call).bind (stripEnd? ['}']) with
  | some inner => trim inner
  | none => call

/-- The arguments of the call that a text is. -/
def argumentsOf? (text : String) : Option (List String) := do
  let (_, tail) ← splitAtFirst? ['('] (bareCall text.toList)
  let close ← closeOf? tail
  guard (allBlank (tail.drop (close + 1)))
  return (topLevelPieces ',' ((tail.take close).drop 1)).map String.ofList

/-- The element of a component with the given attributes. -/
def elementText (name : String) (arguments : List String) : String :=
  "<" ++ name ++ " "
    ++ String.join (arguments.map fun argument => argument ++ "=\x7b" ++ argument ++ "\x7d ")
    ++ "/>"

/-- The names of parameters, if all of them are plain. -/
def plainNames (parameters : List Parameter) : Except Refusal (List String) :=
  parameters.mapM fun parameter =>
    match parameter.name.identifier? with
    | some name => .ok name
    | none => .error (.malformedFunctionText .parameter)

/-- The component of a function whose parameters have the given names. -/
def componentOf (name : String) (function : FunctionDecl) (names : List String) : FunctionDecl where
  modifiers := []
  generator := false
  name := name
  typeParameters := none
  parameters :=
    [{ rest := false
       name := .object (names.map fun name => ⟨none, name⟩)
       optional := false
       type? := some (.literal (names.zipWith
         (fun name parameter => .mk name parameter.optional parameter.type?) function.parameters))
       initializer := none }]
  returnType := function.returnType
  body := some []

/-- The header of a declaration up to the brace that opens its empty body. -/
def openHeader? (printed : List Char) : Option (List Char) := do
  let header ← stripEnd? ['}'] (trimEnd printed)
  let header := trimEnd header
  guard (header.getLast? == some '{')
  return header

end Assist.Extraction
