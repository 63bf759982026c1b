import Assist.Text.Search
import Assist.Text.Span

/-!
# Text changes

A change replaces a span of a file by a new text. A list of changes is applied by position, not by
its order: only insertions at one offset keep their order. Changes that overlap, reach past the end
of the file or cut a character cannot be applied.

`locateName?` finds a name in a file after its changes. It trusts the order of the list: each
change is moved by what the changes before it in the list added and took away.
-/

namespace Assist.Extraction

open Assist.Text

/-- The replacement of a span by a new text. -/
structure Change where
  span : Span
  newText : String
  deriving DecidableEq, Repr

/-- The changes of a file. -/
structure FileChanges where
  fileName : String
  textChanges : List Change
  deriving DecidableEq, Repr

/-- The edit of a refactoring: its changes by file, and where the editor asks for a new name. -/
structure EditInfo where
  edits : List FileChanges
  /-- The file that gets a new name. -/
  renameFile : Option String
  /-- Where a name is to be given. -/
  renameAt : Option Offset
  deriving DecidableEq, Repr

/-- Apply changes in order of position to the part of a file that starts at `cursor`. -/
def applyFrom? (cursor : Nat) (text : List Char) : List Change → Option (List Char)
  | [] => some text
  | change :: changes => do
    let stop ← change.span.stop?
    guard (cursor ≤ change.span.start.toNat)
    let (kept, text) ← cut? (change.span.start.toNat - cursor) text
    let (_, text) ← cut? change.span.length.toNat text
    let rest ← applyFrom? stop.toNat text changes
    return kept ++ change.newText.toList ++ rest

/-- Changes in order of position; those that start together keep their order. -/
def sortChanges (changes : List Change) : List Change :=
  changes.mergeSort fun a b => a.span.start ≤ b.span.start

/-- Apply changes to a file. -/
def applyChanges? (text : String) (changes : List Change) : Option String :=
  (applyFrom? 0 text.toList (sortChanges changes)).map String.ofList

/-- The characters after which a name is looked for in a text, in the order in which they are
tried. -/
def nameLeads : List Char := [' ', '.', '"']

/-- The byte offset of `name` in `text`: at its start, or after one of `nameLeads`. -/
def mentionAt? (text name : List Char) : Option Nat :=
  if name.isEmpty then none
  else if (stripStart? name text).isSome then some 0
  else (nameLeads.findSome? fun lead => splitAtFirst? (lead :: name) text).map fun (before, _) =>
    byteLen before + 1

/-- How many bytes a change adds to a file. -/
def Change.growth (change : Change) : Int :=
  byteLen change.newText.toList - change.span.length.toNat

/-- The offset of `name` after the changes: that of the first change that mentions it or, with
`preferLast`, of the last one, which is `last` if there is none among `changes`. The changes before
added `delta` bytes. There is no answer once a mention is not at an offset. -/
def locateFrom? (name : List Char) (preferLast : Bool) (delta : Int) (last : Option Offset) :
    List Change → Option Offset
  | [] => last
  | change :: changes =>
    let next := delta + change.growth
    match mentionAt? change.newText.toList name with
    | none => locateFrom? name preferLast next last changes
    | some index =>
      let location : Int := change.span.start.toNat + delta + index
      if 0 ≤ location ∧ location ≤ maxOffset then
        let location := UInt32.ofNat location.toNat
        if preferLast then locateFrom? name preferLast next (some location) changes
        else some location
      else none

/-- The offset of `name` in a file after its changes. -/
def locateName? (edits : List FileChanges) (fileName name : String) (preferLast : Bool) :
    Option Offset :=
  let changes := (edits.filter (·.fileName == fileName)).flatMap FileChanges.textChanges
  locateFrom? name.toList preferLast 0 none changes

end Assist.Extraction
