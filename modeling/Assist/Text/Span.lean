import Assist.Text.Bytes

/-!
# Spans, ranges and selections

A `Span` is a start and a length, as edits use it; a `Range` is a pair of bounds, as a selection in
an editor uses it. Offsets are 32-bit words, so the end of a span may not exist: `stop?` says
whether it does, and `stop` takes the largest offset instead.
-/

namespace Assist.Text

/-- The `length` bytes from `start`. -/
structure Span where
  start : Offset
  length : Offset
  deriving DecidableEq, Repr, Inhabited

namespace Span

/-- The empty span at `start`, an insertion point. -/
def emptyAt (start : Offset) : Span := ⟨start, 0⟩

/-- The span from `start` to `stop`, empty if `stop` is not after `start`. -/
def ofBounds (start stop : Offset) : Span := ⟨start, if start ≤ stop then stop - start else 0⟩

/-- The end of the span, if it is an offset. -/
def stop? (s : Span) : Option Offset :=
  let stop := s.start.toNat + s.length.toNat
  if stop ≤ maxOffset then some (UInt32.ofNat stop) else none

/-- The end of the span, or the largest offset if the end is not an offset. -/
def stop (s : Span) : Offset := s.stop?.getD (UInt32.ofNat maxOffset)

/-- Whether the span has no bytes. -/
def isEmpty (s : Span) : Bool := s.length == 0

/-- Whether `offset` lies between the bounds of the span and is neither of them. -/
def strictlyContains (s : Span) (offset : Offset) : Bool := s.start < offset && offset < s.stop

end Span

/-- The bytes from `pos` up to `stop`. -/
structure Range where
  pos : Offset
  stop : Offset
  deriving DecidableEq, Repr, Inhabited

namespace Range

/-- Whether the bounds of the range are the same. -/
def isEmpty (r : Range) : Bool := r.pos == r.stop

/-- The range as a span. -/
def toSpan (r : Range) : Span := Span.ofBounds r.pos r.stop

end Range

/-- Where a request was made: at a caret, or on a selected range. -/
inductive Selection where
  | caret (pos : Offset)
  | range (r : Range)
  deriving DecidableEq, Repr

namespace Selection

/-- The caret, or the start of the range. -/
def start : Selection → Offset
  | caret pos => pos
  | range r => r.pos

/-- The selected range; an empty range is still a range. -/
def toRange? : Selection → Option Range
  | caret _ => none
  | range r => some r

end Selection

end Assist.Text
