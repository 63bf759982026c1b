import Assist.Text.Blank

/-!
# The format of a log

The format is asked for by name, in letters of either case and with blanks around it. A name that is
not known asks for plain text.
-/

namespace Assist

/-- How a log is written. -/
inductive LogFormat where
  | text
  | tree
  | json
  deriving DecidableEq, Repr

namespace LogFormat

/-- The name of a format. -/
def name : LogFormat → String
  | text => "Text"
  | tree => "Tree"
  | json => "Json"

/-- The format that a name asks for. The names of the formats are ASCII, and no letter beyond ASCII
has a letter of them as its lower case, so the lower case of ASCII is enough. -/
def ofName (name : String) : LogFormat :=
  match String.ofList ((Text.trim name.toList).map Char.toLower) with
  | "tree" => tree
  | "json" => json
  | _ => text

end LogFormat

end Assist
