import Assist.Syntax.Tree
import Assist.Text.Span
import Assist.Types.Shape
import Assist.Wire.Basic

/-!
# Positions and kinds on the wire

A selection is written as a number or as a range, without a word to say which; the two cannot be
confused. The names of kinds and shapes are strings.
-/

namespace Assist.Wire

open Assist.Text Assist.Syntax Assist.Types

instance : Wire Span where
  write span := .object [("start", write span.start), ("length", write span.length)]
  read? json := do
    match ← slots? ["start", "length"] json with
    | [start, length] => return ⟨← start.required, ← length.required⟩
    | _ => none

instance : Wire Range where
  write range := .object [("pos", write range.pos), ("end", write range.stop)]
  read? json := do
    match ← slots? ["pos", "end"] json with
    | [pos, stop] => return ⟨← pos.required, ← stop.required⟩
    | _ => none

instance : Wire Selection where
  write
    | .caret pos => write pos
    | .range range => write range
  read? json := ((read? json).map Selection.caret).or ((read? json).map Selection.range)

instance : Wire NodeId where
  write node := write node.index
  read? json := (read? json).map NodeId.mk

instance : Wire TypeId where
  write type := write type.index
  read? json := (read? json).map TypeId.mk

instance : Wire Kind where
  write kind := .string kind.name
  read? := readChoice? Kind.ofName?

instance : Wire ValueShape where
  write shape := .string shape.name
  read? := readChoice? ValueShape.ofName?

instance : Wire Intrinsic where
  write kind := .string kind.name
  read? := readChoice? Intrinsic.ofName?

end Assist.Wire
