import Assist.Text.Blank
import Assist.Text.Search

/-!
# Completion entries

The entries of a completion list, in the order in which they are shown. The sort key of an entry
means nothing here beyond its equality.
-/

namespace Assist.Completion

open Assist.Text

/-- What is shown beside the name of an entry. -/
structure LabelDetails where
  detail : Option String
  description : Option String
  deriving DecidableEq, Repr

/-- An entry of a completion list. -/
structure Entry where
  name : String
  kind : String
  kindModifiers : Option String
  sortText : String
  /-- The text to insert, if it is not the name. -/
  insertText : Option String
  /-- Whether the text to insert has places for the cursor such as `$1`. -/
  isSnippet : Bool
  labelDetails : Option LabelDetails
  deriving DecidableEq, Repr

namespace Entry

/-- An entry that inserts its name. -/
def plain (name kind sortText : String) : Entry :=
  ⟨name, kind, none, sortText, none, false, none⟩

/-- The detail shown beside the name. -/
def detail? (entry : Entry) : Option String := entry.labelDetails.bind LabelDetails.detail

/-- Whether an entry inserts a whole method. The host shows the parameters of such a method as its
detail: it starts with `(`, and its first line ends with `)`. -/
def isMethodSnippet (entry : Entry) : Bool :=
  match entry.detail? with
  | none => false
  | some detail =>
    detail.toList.head? == some '('
      && (trimEnd (detail.toList.takeWhile (· != '\n'))).getLast? == some ')'

end Entry

end Assist.Completion
