import Assist.Signature.Scan
import Assist.Text.Search

/-!
# From a function to an arrow function

`function f(a) {` becomes `const f = (a) => {`. The text is not read as a whole: the first keyword,
the first parenthesis and the bracket that closes it are enough.
-/

namespace Assist.Extraction

open Assist.Text Assist.Signature

/-- The keyword of a function with the blank after it. -/
def functionKeyword : List Char := "function ".toList

/-- The name of the first function that `text` declares. -/
def declaredName? (text : List Char) : Option (List Char) := do
  let (_, found) ← splitAtFirst? functionKeyword text
  let declared := found.drop functionKeyword.length
  let (name, _, _) ← splitAtChar? (fun c => c == '(' || c == '<') declared
  let name := trim name
  guard (!name.isEmpty)
  return name

/-- Split what follows the parameters at the brace of the body: the first one at the end of a line,
else the first one. -/
def splitAtBody? (text : List Char) : Option (List Char × List Char) :=
  (splitAtFirst? ['{', '\n'] text).or (splitAtFirst? ['{'] text)

/-- The first function of `text` as a constant that is an arrow function. -/
def toArrow? (text : List Char) : Option (List Char) := do
  let (before, found) ← splitAtFirst? functionKeyword text
  let declared := before ++ "const ".toList ++ found.drop functionKeyword.length
  let (head, tail) ← splitAtFirst? ['('] declared
  let close ← closeOf? tail
  let (gap, body) ← splitAtBody? (tail.drop close)
  return head ++ " = ".toList ++ tail.take close ++ gap ++ "=> ".toList ++ body

end Assist.Extraction
