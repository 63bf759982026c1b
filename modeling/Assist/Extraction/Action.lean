import Assist.Text.Search

/-!
# Refactor actions

The host offers actions by name. A variant of an action has the name of the action with an ending
that tells which variant it is, so that the action it came from can be read off the name.
-/

namespace Assist.Extraction

open Assist.Text

/-- An action of a refactoring. -/
structure ActionInfo where
  name : String
  description : String
  kind : Option String
  /-- Why the action cannot be used here; `none` if it can. -/
  notApplicableReason : Option String
  deriving DecidableEq, Repr

/-- A refactoring with its actions. -/
structure RefactorInfo where
  name : String
  description : String
  actions : List ActionInfo
  deriving DecidableEq, Repr

/-- A way to extract a function that the host does not have. -/
inductive Variant where
  /-- An arrow function at the top of the file. -/
  | arrow
  /-- An arrow function above the statement. -/
  | localArrow
  /-- A component at the top of the file. -/
  | component
  deriving DecidableEq, Repr

namespace Variant

/-- The name of a variant. -/
def name : Variant → String
  | arrow => "Arrow"
  | localArrow => "LocalArrow"
  | component => "Jsx"

/-- The ending of the names of a variant. -/
def ending : Variant → String
  | arrow => "_arrow"
  | localArrow => "_local_arrow"
  | component => "_jsx"

/-- What an editor shows for a variant. -/
def description : Variant → String
  | arrow => "Extract to arrow function in global scope above"
  | localArrow => "Extract to arrow function above"
  | component => "Extract to JSX component"

/-- The name of a variant of the action `origin`. -/
def actionName (variant : Variant) (origin : String) : String := origin ++ variant.ending

/-- The action and the variant that a name stands for. The longer of two endings is tried first. -/
def ofActionName? (name : String) : Option (String × Variant) :=
  [localArrow, arrow, component].findSome? fun variant =>
    (stripEnd? variant.ending.toList name.toList).map fun origin => (String.ofList origin, variant)

end Variant

end Assist.Extraction
