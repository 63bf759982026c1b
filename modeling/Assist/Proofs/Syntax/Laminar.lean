import Assist.Proofs.Syntax.Nesting
import Mathlib.Logic.Relation

/-!
# The deepest node at an offset

A search by an offset never goes back: it takes the first child that covers the offset. That is
enough on a `Laminar` tree, where a child lies in its parent and two children of a node have no
offset in common. Then what covers an offset is covered by all nodes above it, and no other child
could have been taken, so the search visits every node that covers the offset (`Laminar.visits`).
The node that it ends at is therefore the deepest of them: every other one is an ancestor of it
(`innermost?_deepest`).
-/

namespace Assist.Syntax.Tree

open Assist.Text

variable {t : Tree} {boundary : Boundary} {offset : Offset} {m n c : NodeId} {level depth : Nat}

/-- A tree that is not too deep for a search, where the offsets of a child are offsets of its parent
and different children of a node have no offset in common. -/
structure Laminar (t : Tree) : Prop where
  depth : ∀ {level n}, t.AtLevel level n → level ≤ maxSearchDepth
  within : ∀ {n c}, t.HasNode n → c ∈ t.children n →
    ∀ offset, t.covers .exclusive offset c = true → t.covers .exclusive offset n = true
  apart : ∀ {n a b}, t.HasNode n → a ∈ t.children n → b ∈ t.children n → a ≠ b →
    ∀ offset, ¬(t.covers .exclusive offset a = true ∧ t.covers .exclusive offset b = true)

/-- A tree is laminar if this can be read off a list that holds the root and, with a node, its
children: the bounds of a child are between those of its parent, and of two children of a node one
ends before the other starts. -/
theorem Laminar.of_closed {nodes : List (Nat × NodeId)}
    (hroot : ∀ root ∈ t.root, (1, root) ∈ nodes)
    (hchildren : ∀ entry ∈ nodes, ∀ c ∈ t.children entry.2, (entry.1 + 1, c) ∈ nodes)
    (hdepth : ∀ entry ∈ nodes, entry.1 ≤ maxSearchDepth)
    (hwithin : ∀ entry ∈ nodes, ∀ c ∈ t.children entry.2,
      t.start entry.2 ≤ t.start c ∧ t.stop c ≤ t.stop entry.2)
    (hapart : ∀ entry ∈ nodes, ∀ a ∈ t.children entry.2, ∀ b ∈ t.children entry.2, a ≠ b →
      t.stop a ≤ t.start b ∨ t.stop b ≤ t.start a) : t.Laminar := by
  have hmem : ∀ {level n}, t.AtLevel level n → (level, n) ∈ nodes :=
    AtLevel.mem_of_closed hroot hchildren
  refine ⟨fun h => hdepth _ (hmem h), ?_, ?_⟩
  · rintro n c ⟨level, hn⟩ hc offset hcovers
    obtain ⟨hstart, hstop⟩ := hwithin _ (hmem hn) c hc
    exact Owns.covers (Owns.of_within (covers_exclusive_iff.mp hcovers) hstart hstop)
  · rintro n a b ⟨level, hn⟩ ha hb hne offset
    rw [covers_exclusive_iff, covers_exclusive_iff]
    rintro ⟨⟨hstartA, hstopA⟩, hstartB, hstopB⟩
    rcases hapart _ (hmem hn) a ha b hb hne with h | h
    · exact UInt32.not_lt.mpr (UInt32.le_trans h hstartB) hstopA
    · exact UInt32.not_lt.mpr (UInt32.le_trans h hstartA) hstopB

/-- `a` is an ancestor of `n`: links to children lead from `a` down to `n`. -/
def IsAncestor (t : Tree) : NodeId → NodeId → Prop :=
  Relation.TransGen fun parent child => child ∈ t.children parent

/-! ## What a search visits -/

/-- **One step.** A child that covers the offset is the one that a search steps to. -/
theorem Laminar.childAt?_eq (h : t.Laminar) (hn : t.HasNode n) (hc : c ∈ t.children n)
    (hcovers : t.covers .exclusive offset c = true) :
    t.childAt? .exclusive offset n = some c := by
  cases hchild : t.childAt? .exclusive offset n with
  | none => exact absurd hcovers (List.find?_eq_none.mp hchild c hc)
  | some other =>
    by_cases hne : other = c
    · rw [hne]
    · exact absurd ⟨List.find?_some hchild, hcovers⟩
        (h.apart hn (mem_children_of_childAt? hchild) hc hne offset)

/-- **The whole search.** In a laminar tree a search visits every node that covers the offset. -/
theorem Laminar.visits (h : t.Laminar) (hm : t.AtLevel level m)
    (hcovers : t.covers .exclusive offset m = true) : t.Visits .exclusive offset level m := by
  induction hm with
  | root hroot => exact .root hroot hcovers
  | child hn hc ih =>
    have hparent := h.within ⟨_, hn⟩ hc offset hcovers
    exact (ih hparent).child (h.childAt?_eq ⟨_, hn⟩ hc hcovers)

/-- Following children leads to the node itself or below it. -/
theorem follow_eq_or_isAncestor (t : Tree) (boundary : Boundary) (offset : Offset) (steps : Nat)
    (n : NodeId) :
    n = t.follow boundary offset steps n ∨ t.IsAncestor n (t.follow boundary offset steps n) := by
  induction steps generalizing n with
  | zero => exact .inl rfl
  | succ steps ih =>
    cases hchild : t.childAt? boundary offset n with
    | none => exact .inl (follow_of_childAt?_eq_none hchild _).symm
    | some c =>
      have hlink : t.IsAncestor n c := .single (mem_children_of_childAt? hchild)
      rw [follow_of_childAt? hchild]
      right
      rcases ih c with heq | hbelow
      · rwa [← heq]
      · exact hlink.trans hbelow

/-- A node that a search visits is the one that it ends at or an ancestor of it. -/
theorem Visits.eq_or_isAncestor (h : t.Visits boundary offset level m) (hlevel : level ≤ depth)
    (hmax : level ≤ maxSearchDepth) (hfound : t.locate? boundary depth offset = some n) :
    m = n ∨ t.IsAncestor m n := by
  rw [h.locate?_eq_follow hlevel hmax] at hfound
  rw [← Option.some.inj hfound]
  exact follow_eq_or_isAncestor t boundary offset _ m

/-- **The deepest node.** In a laminar tree a search finds nothing exactly if there is no root or
the root does not cover the offset. What it finds covers the offset, and any node of the tree that
covers it too is an ancestor of what is found. -/
theorem innermost?_deepest (h : t.Laminar) (offset : Offset) :
    (t.innermost? offset = none ↔
      t.root = none ∨ ∃ root, t.root = some root ∧ t.covers .exclusive offset root = false) ∧
    ∀ n, t.innermost? offset = some n → t.HasNode n ∧ t.covers .exclusive offset n = true ∧
      ∀ m, t.HasNode m → t.covers .exclusive offset m = true → m = n ∨ t.IsAncestor m n := by
  constructor
  · rw [innermost?, ← Option.not_isSome_iff_eq_none, Offsets.locate?_isSome]
    cases t.root with
    | none => simp
    | some root => simp
  · intro n hfound
    refine ⟨hasNode_of_locate? hfound, Offsets.covers_of_locate? hfound, ?_⟩
    rintro m ⟨level, hm⟩ hcovers
    have hlevel := h.depth hm
    exact (h.visits hm hcovers).eq_or_isAncestor hlevel hlevel hfound

/-- The tree of a call; its last argument has a blank in front of it and is listed first. -/
def callTree : Tree :=
  Tree.empty "f(a, b)"
    |>.addLeaf .identifier 0 1
    |>.addLeaf .identifier 2 3
    |>.addLeaf .identifier 4 6
    |>.add .callExpression 0 7 [⟨2⟩, ⟨0⟩, ⟨1⟩]
    |>.addFile [⟨3⟩]

/-- The nodes of `callTree` with their levels. -/
def callNodes : List (Nat × NodeId) := [(1, ⟨4⟩), (2, ⟨3⟩), (3, ⟨0⟩), (3, ⟨1⟩), (3, ⟨2⟩)]

/-- In the last argument of the call the argument is found, and what else covers the offset is an
ancestor of it. The blank in front of the argument belongs to the call. -/
theorem innermost?_deepest_call : callTree.Laminar ∧ callTree.innermost? 5 = some ⟨2⟩ ∧
    (∀ m, callTree.HasNode m → callTree.covers .exclusive 5 m = true →
      m = ⟨2⟩ ∨ callTree.IsAncestor m ⟨2⟩) ∧ callTree.innermost? 4 = some ⟨3⟩ := by
  have hlaminar : callTree.Laminar := by
    have hchildren : ∀ entry ∈ callNodes, ∀ c ∈ callTree.children entry.2,
        (entry.1 + 1, c) ∈ callNodes := by decide +kernel
    exact .of_closed (by decide +kernel) hchildren (by decide +kernel) (by decide +kernel)
      (by decide +kernel)
  have hfound : callTree.innermost? 5 = some ⟨2⟩ := by decide +kernel
  exact ⟨hlaminar, hfound, ((innermost?_deepest hlaminar 5).2 _ hfound).2.2, by decide +kernel⟩

end Assist.Syntax.Tree
