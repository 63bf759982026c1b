import Assist.Settings.Basic
import Assist.Syntax.Walk
import Assist.Types.Shape

/-!
# Snippets for values

The value that is offered for a property follows the shape of its type: a string in quotes, a choice
of two booleans, an empty array or an empty object, with a place for the cursor inside.
-/

namespace Assist.Completion

open Assist.Syntax Assist.Types

/-- The quote of the first string literal of a file, if there is one. A literal that does not start
with a single quote counts as double-quoted. -/
def quoteOfFile? (tree : Tree) : Except Fault (Option Char) :=
  match tree.first? fun n => tree.kind n == .stringLiteral with
  | none => .ok none
  | some n => do
    let text ← tree.textOf n
    return some (if text.toList.head? == some '\x27' then '\x27' else '"')

/-- The quote for strings that the library writes: the one a user wants, else the one the file uses,
else a double quote. -/
def quoteFor (tree : Tree) (preferences : Preferences) : Except Fault Char :=
  match preferences.quotes with
  | .single => .ok '\x27'
  | .double => .ok '"'
  | .auto => do return (← quoteOfFile? tree).getD '"'

/-- The value offered for a property: the text to insert after its name, and the text to show. -/
structure Snippet where
  insert : String
  preview : String
  deriving DecidableEq, Repr

/-- What stands between the brackets of an array or an object. -/
def bracketed (settings : Settings) : String :=
  if settings.cursorOnOwnLine then "\n\t$1\n" else "$1"

/-- The value offered for a type that is not a function. -/
def snippetFor? (tree : Tree) (preferences : Preferences) (settings : Settings) :
    ValueShape → Except Fault (Option Snippet)
  | .string => do
    let quote := (← quoteFor tree preferences).toString
    return some ⟨": " ++ quote ++ "$1" ++ quote ++ ",$0", ": " ++ quote ++ quote ++ ","⟩
  | .boolean => .ok (some ⟨": $\x7b1|true,false|\x7d,$0", ": true/false,"⟩)
  | .array => .ok (some ⟨": [" ++ bracketed settings ++ "],$0", ": [],"⟩)
  | .plainObject => .ok (some ⟨": \x7b" ++ bracketed settings ++ "\x7d,$0", ": \x7b\x7d,"⟩)
  | .function => .ok none
  | .none => .ok (if settings.offerEmptyValue then some ⟨": $0,", ": ,"⟩ else none)

end Assist.Completion
