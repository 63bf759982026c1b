import Assist.Syntax.Tree

/-!
# Walks over a tree

The nodes below a node in preorder: the node, then what is below its children in order. Along links
from parents to children no path of a tree built bottom-up is longer than the table of nodes, so a
walk of that depth sees every node that can be reached. A node that is shared is seen once for every
way to it.
-/

namespace Assist.Syntax

namespace Tree

/-- The nodes in preorder on paths of at most `depth` nodes from `n`. -/
def preorder (t : Tree) : Nat → NodeId → List NodeId
  | 0, _ => []
  | depth + 1, n => n :: (t.children n).flatMap (t.preorder depth)

/-- The first node in preorder that satisfies `p` on paths of at most `depth` nodes from `n`. The
search ends there, so what comes after in the tree does not matter. -/
def firstBelow? (t : Tree) (p : NodeId → Bool) : Nat → NodeId → Option NodeId
  | 0, _ => none
  | depth + 1, n => if p n then some n else (t.children n).findSome? (t.firstBelow? p depth)

/-- The longest path that a walk follows: every node of the table, then one that is not in it. -/
def walkDepth (t : Tree) : Nat := t.size + 1

/-- The nodes that can be reached from the root, in preorder. -/
def walk (t : Tree) : List NodeId :=
  match t.root with
  | some root => t.preorder t.walkDepth root
  | none => []

/-- The first node in preorder that satisfies `p`. -/
def first? (t : Tree) (p : NodeId → Bool) : Option NodeId :=
  t.root.bind (t.firstBelow? p t.walkDepth)

/-- The texts of the identifiers of a tree. -/
def usedNames (t : Tree) : Except Fault (List String) :=
  (t.walk.filter fun n => (t.kind n).isIdentifier).mapM t.textOf

end Tree

end Assist.Syntax
