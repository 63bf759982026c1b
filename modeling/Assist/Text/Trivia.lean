import Assist.Text.Bytes

/-!
# Trivia

The trivia before a token are its whitespace and comments: an ASCII blank, `//` up to the end of the
line, or a block comment up to its first close. `dropTrivia` takes all of it off the front of a list
of bytes; an unclosed block comment takes everything. `afterTrivia` does the same from one offset of
a file up to another.
-/

namespace Assist.Text

/-- The bytes that separate tokens: space, tab, the line ends, vertical tab and form feed. -/
def isTriviaBlank (b : UInt8) : Bool :=
  b == 0x20 || b == 0x09 || b == 0x0D || b == 0x0A || b == 0x0B || b == 0x0C

/-- Where a scan for trivia stands: between items, in a line comment or in a block comment. -/
inductive TriviaMode where
  | between
  | line
  | block
  deriving DecidableEq, Repr

/-- What is left of `bs` once the trivia at its front are gone, from inside an item of the given
mode. A line comment leaves its line end, which is a blank, to the next item. -/
def dropTriviaFrom : TriviaMode → List UInt8 → List UInt8
  | _, [] => []
  | .between, 0x2F :: 0x2F :: bs => dropTriviaFrom .line bs
  | .between, 0x2F :: 0x2A :: bs => dropTriviaFrom .block bs
  | .between, b :: bs => if isTriviaBlank b then dropTriviaFrom .between bs else b :: bs
  | .line, b :: bs =>
    if b == 0x0A || b == 0x0D then dropTriviaFrom .between bs else dropTriviaFrom .line bs
  | .block, 0x2A :: 0x2F :: bs => dropTriviaFrom .between bs
  | .block, _ :: bs => dropTriviaFrom .block bs

/-- What is left of `bs` once the trivia at its front are gone. -/
def dropTrivia (bs : List UInt8) : List UInt8 := dropTriviaFrom .between bs

/-- The bytes of `bs` from `pos` up to `stop`. -/
def window (pos stop : Nat) (bs : List UInt8) : List UInt8 := (bs.drop pos).take (stop - pos)

/-- The offset of the first byte at or after `pos` that is not trivia, looking no further than
`stop` and the end of the file. -/
def afterTrivia (source : String) (pos stop : Offset) : Offset :=
  let bs := window pos.toNat stop.toNat (utf8 source.toList)
  UInt32.ofNat (pos.toNat + (bs.length - (dropTrivia bs).length))

/-- The byte of `source` at `offset`. -/
def byteAt? (source : String) (offset : Nat) : Option UInt8 := (utf8 source.toList)[offset]?

/-- Whether a line of `source` starts at `offset`. -/
def startsLine (source : String) (offset : Offset) : Bool :=
  offset == 0 || byteAt? source (offset.toNat - 1) == some 0x0A

end Assist.Text
