import Assist.Syntax.Tree

/-!
# Locating a node by an offset

From the root, a search steps to the first child that covers the offset until there is none. A
node covers the offsets from its first token to its end, so an offset in the trivia before a node
is not in it. Whether the end itself belongs to a node depends on the search. No search goes deeper
than `maxSearchDepth` levels, so it ends on any tree, also on one whose links form a cycle.
-/

namespace Assist.Syntax

open Assist.Text

/-- The deepest level that a search by offset reaches; the root is at level one. -/
def maxSearchDepth : Nat := 500

/-- Whether the end of a node belongs to it. -/
inductive Boundary where
  | exclusive
  | inclusive
  deriving DecidableEq, Repr

namespace Tree

/-- Whether `offset` lies in the node `n`, trivia apart. -/
def covers (t : Tree) (boundary : Boundary) (offset : Offset) (n : NodeId) : Bool :=
  t.start n ≤ offset && match boundary with
    | .exclusive => offset < t.stop n
    | .inclusive => offset ≤ t.stop n

/-- The first child of `n` that covers `offset`. -/
def childAt? (t : Tree) (boundary : Boundary) (offset : Offset) (n : NodeId) : Option NodeId :=
  (t.children n).find? (t.covers boundary offset)

/-- Follow the children that cover `offset` from `n` for at most `steps` levels. -/
def follow (t : Tree) (boundary : Boundary) (offset : Offset) : Nat → NodeId → NodeId
  | 0, n => n
  | steps + 1, n =>
    match t.childAt? boundary offset n with
    | some child => t.follow boundary offset steps child
    | none => n

/-- The node that covers `offset` at the deepest level up to `depth`, if the root covers it. -/
def locate? (t : Tree) (boundary : Boundary) (depth : Nat) (offset : Offset) : Option NodeId := do
  let root ← t.root
  guard (t.covers boundary offset root)
  return t.follow boundary offset (min depth maxSearchDepth - 1) root

/-- The deepest node that covers `offset`. -/
def innermost? (t : Tree) (offset : Offset) : Option NodeId :=
  t.locate? .exclusive maxSearchDepth offset

/-- The deepest node that covers `offset` or ends at it. -/
def innermostTouching? (t : Tree) (offset : Offset) : Option NodeId :=
  t.locate? .inclusive maxSearchDepth offset

/-- The node that covers `offset` at level `depth`, or the deepest one above. The statements of a
file are at level two. -/
def enclosing? (t : Tree) (depth : Nat) (offset : Offset) : Option NodeId :=
  t.locate? .exclusive depth offset

end Tree

end Assist.Syntax
