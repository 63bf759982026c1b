/-!
# Settings and preferences

`Settings` are the settings of the completion of object literals, as a settings file gives them.
`Preferences` are what the editor says about a user: whether it wants method snippets, and which
quotes.
-/

namespace Assist

/-- Where a new completion entry goes, seen from the entry it comes from. -/
inductive Placement where
  /-- Before the entry. -/
  | above
  /-- After the entry. -/
  | below
  /-- In the place of the entry. -/
  | remove
  deriving DecidableEq, Repr, Inhabited

/-- The settings of the completion of object literals. -/
structure Settings where
  /-- Whether values are offered for properties that are not functions. -/
  offerValues : Bool
  /-- Where the entry with the value goes. -/
  placement : Placement
  /-- Whether the cursor goes on a line of its own between brackets. -/
  cursorOnOwnLine : Bool
  /-- Whether a property without a known shape is offered with an empty value. -/
  offerEmptyValue : Bool
  deriving DecidableEq, Repr

/-- The settings where a file gives none. -/
def Settings.standard : Settings := ⟨true, .below, true, false⟩

/-- Which quotes a user wants. -/
inductive QuoteStyle where
  /-- Those that the file uses. -/
  | auto
  | double
  | single
  deriving DecidableEq, Repr, Inhabited

/-- What the editor says about a user. -/
structure Preferences where
  /-- Whether the host was asked for snippets of whole methods. -/
  methodSnippets : Bool
  quotes : QuoteStyle
  deriving DecidableEq, Repr

/-- The preferences where the editor says nothing. -/
def Preferences.standard : Preferences := ⟨false, .auto⟩

end Assist
