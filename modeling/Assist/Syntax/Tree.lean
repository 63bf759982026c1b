import Assist.Fault
import Assist.Syntax.Kind
import Assist.Text.Trivia

/-!
# Syntax trees

A `Tree` is a file with a table of nodes over it. A node knows its kind, its bounds, its parent and
its children; `pos` counts the trivia before its first token and `start` does not. The number of a
node is its place in the table, cut to 32 bits. Looking up a number that is not in the table is not
an error: such a node is of unknown kind, empty, and linked to nothing.

A tree can be built bottom-up with `add`: the children of a node are there before it, and adding it
makes it their parent.
-/

namespace Assist.Syntax

open Assist.Text

/-- The number of a node in its tree, or the link to a node. It has 32 bits, and the largest value
links to no node. -/
structure NodeId where
  index : UInt32
  deriving DecidableEq, Repr

namespace NodeId

/-- The link to no node. -/
def none : NodeId := ⟨UInt32.ofNat maxOffset⟩

instance : Inhabited NodeId := ⟨none⟩

/-- The node that a link leads to. -/
def toOption (link : NodeId) : Option NodeId := if link = none then .none else some link

end NodeId

/-- A node of a tree. -/
structure Node where
  kind : Kind
  pos : Offset
  stop : Offset
  parent : Option NodeId
  children : List NodeId
  deriving DecidableEq, Repr, Inhabited

/-- A file and the nodes over it. -/
structure Tree where
  source : String
  nodes : Array Node
  root : Option NodeId
  deriving Inhabited

namespace Tree

/-- The tree over `source` without nodes. -/
def empty (source : String) : Tree := ⟨source, #[], none⟩

/-- The number of nodes. -/
def size (t : Tree) : Nat := t.nodes.size

/-- The length of the file in bytes. -/
def length (t : Tree) : Nat := byteLen t.source.toList

/-- The node numbered `n`. -/
def get? (t : Tree) (n : NodeId) : Option Node :=
  if n = .none then none else t.nodes[n.index.toNat]?

/-- The kind of a node. -/
def kind (t : Tree) (n : NodeId) : Kind := ((t.get? n).map Node.kind).getD .unknown

/-- Where a node starts, with the trivia before it. -/
def pos (t : Tree) (n : NodeId) : Offset := ((t.get? n).map Node.pos).getD 0

/-- Where a node ends. -/
def stop (t : Tree) (n : NodeId) : Offset := ((t.get? n).map Node.stop).getD 0

/-- The parent of a node. -/
def parent? (t : Tree) (n : NodeId) : Option NodeId := (t.get? n).bind Node.parent

/-- The children of a node in source order. -/
def children (t : Tree) (n : NodeId) : List NodeId := ((t.get? n).map Node.children).getD []

/-- Where the first token of a node starts. -/
def start (t : Tree) (n : NodeId) : Offset := afterTrivia t.source (t.pos n) (t.stop n)

/-- The number of bytes of trivia before the first token of a node. -/
def triviaWidth (t : Tree) (n : NodeId) : Offset := t.start n - t.pos n

/-- The text of the file between two offsets. Both are first moved into the file, and the second
not before the first. -/
def textBetween (t : Tree) (start stop : Offset) : Except Fault String :=
  let start := min start.toNat t.length
  let stop := max start (min stop.toNat t.length)
  match slice? start stop t.source.toList with
  | some text => .ok (String.ofList text)
  | none => .error .splitCharacter

/-- The text of a node from its first token. -/
def textOf (t : Tree) (n : NodeId) : Except Fault String := t.textBetween (t.start n) (t.stop n)

/-- The text of a node with the trivia before it. -/
def textWithTrivia (t : Tree) (n : NodeId) : Except Fault String :=
  t.textBetween (t.pos n) (t.stop n)

/-- The parent of an identifier; any other node stands for itself. -/
def nameOwner (t : Tree) (n : NodeId) : NodeId :=
  if (t.kind n).isIdentifier then (t.parent? n).getD n else n

/-- The number that the next node added will have. -/
def nextId (t : Tree) : NodeId := ⟨UInt32.ofNat t.nodes.size⟩

/-- Link `child` to `parent`, if there is such a child. -/
def adopt (parent : NodeId) (nodes : Array Node) (child : NodeId) : Array Node :=
  nodes.modify child.index.toNat fun node => { node with parent := parent.toOption }

/-- Add a node over the given bounds, which are moved into the file and put in order, and make it
the parent of its children. -/
def add (t : Tree) (kind : Kind) (pos stop : Offset) (children : List NodeId) : Tree :=
  let stop := min stop (UInt32.ofNat t.length)
  let pos := min pos stop
  let nodes := children.foldl (adopt t.nextId) t.nodes
  { t with nodes := nodes.push ⟨kind, pos, stop, none, children⟩ }

/-- Add a node without children. -/
def addLeaf (t : Tree) (kind : Kind) (pos stop : Offset) : Tree := t.add kind pos stop []

/-- Add the node of the whole file over its statements, and make it the root. -/
def addFile (t : Tree) (statements : List NodeId) : Tree :=
  { t.add .sourceFile 0 (UInt32.ofNat t.length) statements with root := t.nextId.toOption }

end Tree

end Assist.Syntax
