import Assist.Text.Blank
import Assist.Text.Search

/-!
# Indentation

The indentation of a text is the part of its leading whitespace after the last newline.
`indentBlock` replaces the indentation that all lines of a block share: the leading blank lines go,
every line that is not blank loses the same number of spaces and tabs and takes the new indentation,
and a blank line becomes empty.
-/

namespace Assist.Text

/-- The leading whitespace of `cs` after its last newline: the indentation of the first line that is
not blank. -/
def indentOf (cs : List Char) : List Char := afterLast '\n' (leadingBlank cs)

/-- The characters that indent a line of code. -/
def isIndent (c : Char) : Bool := c == ' ' || c == '\t'

/-- How many spaces and tabs a line starts with. -/
def indentWidth (line : List Char) : Nat := (line.takeWhile isIndent).length

/-- The least indentation of the lines that are not blank, or zero if all are blank. -/
def commonIndent (lines : List (List Char)) : Nat :=
  ((lines.filter (!allBlank ·)).map indentWidth).min?.getD 0

/-- One line of a block under a new indentation: `drop` characters less, and empty if it is
blank. -/
def indentLine (indent : List Char) (drop : Nat) (line : List Char) : List Char :=
  if allBlank line then [] else indent ++ line.drop drop

/-- The lines of a block under a new indentation; the first is indented only if asked for. -/
def indentLines (indent : List Char) (indentFirst : Bool) :
    List (List Char) → List (List Char)
  | [] => []
  | first :: rest =>
    let drop := commonIndent (first :: rest)
    indentLine (if indentFirst then indent else []) drop first
      :: rest.map (indentLine indent drop)

/-- The lines of `text` from the first that is not blank. -/
def blockLines (text : List Char) : List (List Char) :=
  (text.splitOn '\n').dropWhile allBlank

/-- `text` under the indentation `indent`. The first line takes it only if `indentFirst` holds: text
placed after indentation that is already on its line does not need it again. -/
def indentBlock (text indent : String) (indentFirst : Bool) : String :=
  String.ofList <|
    ['\n'].intercalate (indentLines indent.toList indentFirst (blockLines text.toList))

end Assist.Text
