import Assist.Fault
import Assist.Text.Blank
import Assist.Text.Bytes

/-!
# Scanning code for brackets

A scan reads a text character by character and keeps three things: whether it stands inside a string
literal, how many brackets are open, and the character before. `(`, `[`, `{` and `<` open a
bracket; `)`, `]`, `}` and `>` close one, apart from the `>` of an arrow `=>`. Nothing inside a
string literal counts, and a backslash there takes the next character with it.

`marks` lists the characters outside string literals with the number of brackets open before each.
The questions that a reader of signatures asks (where a bracket closes, where the top-level commas
are) are questions about this list.
-/

namespace Assist.Signature

open Assist.Text

/-- What a scan stands in: code, a string literal, or a string literal after a backslash. -/
inductive Region where
  | code
  | quoted (quote : Char)
  | escaped (quote : Char)
  deriving DecidableEq, Repr

/-- The state of a scan. -/
structure Scan where
  region : Region
  /-- The number of brackets open, below zero once more were closed than opened. It has no limit. A
  signed counter of 32 bits has this value as long as it stays between `-2 ^ 31` and `2 ^ 31 - 1`,
  so in every text with fewer than `2 ^ 31` brackets; beyond that such a counter overflows. -/
  depth : Int
  /-- The last character of code, or the quote of the last string literal. -/
  prev : Char
  deriving DecidableEq, Repr

/-- The characters that delimit string literals. -/
def isQuote (c : Char) : Bool := c == '"' || c == '\x27' || c == '\x60'

/-- The characters that open a bracket. -/
def opens (c : Char) : Bool := c == '(' || c == '[' || c == '{' || c == '<'

/-- Whether `c` closes a bracket when it stands after `prev`. -/
def closes (prev c : Char) : Bool :=
  c == ')' || c == ']' || c == '}' || (c == '>' && prev != '=')

namespace Scan

/-- The state before a text. -/
def initial : Scan := ⟨.code, 0, '\x00'⟩

/-- The number of brackets open after the character of code `c`. -/
def depthAfter (s : Scan) (c : Char) : Int :=
  if opens c then s.depth + 1 else if closes s.prev c then s.depth - 1 else s.depth

/-- The state after one more character. -/
def step (s : Scan) (c : Char) : Scan :=
  match s.region with
  | .code => if isQuote c then ⟨.quoted c, s.depth, c⟩ else ⟨.code, s.depthAfter c, c⟩
  | .quoted quote =>
    if c = '\\' then { s with region := .escaped quote }
    else if c = quote then { s with region := .code }
    else s
  | .escaped quote => { s with region := .quoted quote }

/-- Whether the next character `c` is code. -/
def isCode (s : Scan) (c : Char) : Bool := s.region == .code && !isQuote c

end Scan

/-- A character of code: its place in the text, and the number of brackets open before it. -/
structure Mark where
  index : Nat
  char : Char
  depth : Int
  deriving DecidableEq, Repr

/-- The marks of a text whose first character is at `index` and is read in state `s`. -/
def marksFrom (s : Scan) (index : Nat) : List Char → List Mark
  | [] => []
  | c :: cs =>
    if s.isCode c then ⟨index, c, s.depth⟩ :: marksFrom (s.step c) (index + 1) cs
    else marksFrom (s.step c) (index + 1) cs

/-- The characters of code in a text. -/
def marks (cs : List Char) : List Mark := marksFrom Scan.initial 0 cs

/-- The first mark after the start of the text that closes the only open bracket. A string literal
between two marks does not come between them here: `prev` is the character of the last mark. -/
def closeAmong? (prev : Char) : List Mark → Option Nat
  | [] => none
  | m :: ms =>
    if 0 < m.index && m.depth == 1 && closes prev m.char then some m.index
    else closeAmong? m.char ms

/-- The place of the bracket that closes the one `cs` starts with. -/
def closeOf? : List Char → Option Nat
  | [] => none
  | c :: cs => if opens c then closeAmong? '\x00' (marks (c :: cs)) else none

/-- The pieces of a text read in state `s` between the occurrences of `separator` outside brackets
and string literals. -/
def piecesFrom (separator : Char) (s : Scan) : List Char → List (List Char)
  | [] => [[]]
  | c :: cs =>
    let rest := piecesFrom separator (s.step c) cs
    if s.isCode c && c == separator && s.depth == 0 then [] :: rest
    else match rest with
      | [] => [[c]]
      | piece :: pieces => (c :: piece) :: pieces

/-- Trim the pieces of a text and leave out the empty ones. -/
def tidyPieces (pieces : List (List Char)) : List (List Char) :=
  (pieces.map trim).filter (!·.isEmpty)

/-- The trimmed pieces of a text between the occurrences of `separator` outside brackets and string
literals, without the empty ones. -/
def topLevelPieces (separator : Char) (cs : List Char) : List (List Char) :=
  tidyPieces (piecesFrom separator Scan.initial cs)

/-- The place of the first `=` outside brackets and string literals that is not part of `=>`. -/
def initializerAt? (cs : List Char) : Option Nat :=
  ((marks cs).find? fun m => m.char == '=' && m.depth == 0 && cs[m.index + 1]? != some '>').map
    Mark.index

/-- The place of the last `target` outside brackets and string literals. -/
def lastTopLevel? (target : Char) (cs : List Char) : Option Nat :=
  ((marks cs).filter fun m => m.char == target && m.depth == 0).getLast?.map Mark.index

/-- The byte offset in `text` of the bracket that closes the one at the byte offset `opening`. -/
def closingBracket? (text : String) (opening : Nat) : Option Nat := do
  let (_, tail) ← cut? opening text.toList
  let close ← closeOf? tail
  return opening + byteLen (tail.take close)

/-- The trimmed, non-empty pieces of `text` between the occurrences of an ASCII character outside
brackets and string literals. -/
def splitCode (separator : Char) (text : String) : List String :=
  (topLevelPieces separator text.toList).map String.ofList

/-- `splitCode` for a separator given as a byte. A byte that is only a part of longer characters
never separates: a text with such a character outside brackets and string literals cannot be cut. -/
def splitCodeAtByte (separator : UInt8) (text : String) : Except Fault (List String) :=
  if separator < 128 then .ok (splitCode (Char.ofNat separator.toNat) text)
  else if (marks text.toList).any fun m =>
      m.depth == 0 && (String.utf8EncodeChar m.char).contains separator then
    .error .splitCharacter
  else .ok ((tidyPieces [text.toList]).map String.ofList)

end Assist.Signature
