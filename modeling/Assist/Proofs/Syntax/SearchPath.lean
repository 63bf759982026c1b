import Assist.Proofs.Syntax.Nesting
import Mathlib.Data.Nat.Find

/-!
# The path of a search

Whatever the links of a tree are, a search by an offset walks one path: from the root to the first
child that covers the offset, and on until no child does or the path has `maxSearchDepth` nodes
(`SearchPath`). How deep a search may go only says at which node of the path it stops
(`SearchPath.locate?_eq`). If the root covers the offset there is such a path
(`nonempty_searchPath`), so looking up a node and looking up what encloses it up to a depth agree on
every tree (`exists_searchPath`). On links that form a cycle the path goes round until the limit.
-/

namespace Assist.Syntax.Tree

open Assist.Text

variable {t : Tree} {boundary : Boundary} {offset : Offset} {n c root : NodeId} {level steps : Nat}

/-! ## One step -/

/-- `c` is the first child of `n` that covers the offset. -/
def FirstCovering (t : Tree) (boundary : Boundary) (offset : Offset) (n c : NodeId) : Prop :=
  ∃ before after, t.children n = before ++ c :: after ∧ t.covers boundary offset c = true ∧
    ∀ b ∈ before, t.covers boundary offset b = false

/-- No child of `n` covers the offset. -/
def CoversLast (t : Tree) (boundary : Boundary) (offset : Offset) (n : NodeId) : Prop :=
  ∀ c ∈ t.children n, t.covers boundary offset c = false

theorem childAt?_eq_some_iff :
    t.childAt? boundary offset n = some c ↔ t.FirstCovering boundary offset n c := by
  rw [childAt?, List.find?_eq_some_iff_append]
  constructor
  · rintro ⟨hcovers, before, after, hchildren, hbefore⟩
    exact ⟨before, after, hchildren, hcovers, fun b hb => by simpa using hbefore b hb⟩
  · rintro ⟨before, after, hchildren, hcovers, hbefore⟩
    exact ⟨hcovers, before, after, hchildren, fun b hb => by simp [hbefore b hb]⟩

/-- One more step goes to the child that covers the offset. -/
theorem follow_succ (h : t.childAt? boundary offset (t.follow boundary offset steps n) = some c) :
    t.follow boundary offset (steps + 1) n = c := by
  induction steps generalizing n with
  | zero => exact follow_of_childAt? h 0
  | succ steps ih =>
    cases hchild : t.childAt? boundary offset n with
    | none =>
      rw [follow_of_childAt?_eq_none hchild, hchild] at h
      cases h
    | some child =>
      rw [follow_of_childAt? hchild] at h ⊢
      exact ih h

/-! ## The path -/

/-- The nodes that a search visits one after the other, by their levels: the root is at level one,
the node at the next level is the first child that covers the offset, and the last one is at the
deepest level that a search reaches or has no such child. -/
structure SearchPath (t : Tree) (boundary : Boundary) (offset : Offset) where
  /-- The node at a level. Below `depth` this is not a node of the path. -/
  node : Nat → NodeId
  /-- The number of nodes. -/
  depth : Nat
  depth_pos : 1 ≤ depth
  depth_le : depth ≤ maxSearchDepth
  root_eq : t.root = some (node 1)
  covers_root : t.covers boundary offset (node 1) = true
  step : ∀ level, 1 ≤ level → level < depth →
    t.FirstCovering boundary offset (node level) (node (level + 1))
  last : depth = maxSearchDepth ∨ t.CoversLast boundary offset (node depth)

namespace SearchPath

/-- **A walk along the path.** From a node of the path, following the children that cover the offset
goes down the path and stays at its end. -/
theorem follow_node (path : t.SearchPath boundary offset) (hlevel : 1 ≤ level)
    (hdepth : level ≤ path.depth) (hmax : level + steps ≤ maxSearchDepth) :
    t.follow boundary offset steps (path.node level) =
      path.node (min (level + steps) path.depth) := by
  induction steps generalizing level with
  | zero => rw [follow, Nat.add_zero, Nat.min_eq_left hdepth]
  | succ steps ih =>
    by_cases hlt : level < path.depth
    · have hchild := childAt?_eq_some_iff.mpr (path.step level hlevel hlt)
      rw [follow_of_childAt? hchild, ih (by omega) hlt (by omega)]
      congr 1
      omega
    · -- the path ends above the limit, so no child of its last node covers the offset
      obtain rfl : level = path.depth := by omega
      have hlast := childAt?_eq_none_iff.mpr (path.last.resolve_left (by omega))
      rw [follow_of_childAt?_eq_none hlast, Nat.min_eq_right (Nat.le_add_right _ _)]

/-- A search that may go to a given depth finds the node of the path at that level, or the last one
above it. -/
theorem locate?_eq (path : t.SearchPath boundary offset) (depth : Nat) :
    t.locate? boundary depth offset = some (path.node (min (max depth 1) path.depth)) := by
  have hmax : 1 ≤ maxSearchDepth := by decide
  have hpath := path.depth_le
  rw [Offsets.locate?_of_root path.root_eq, if_pos path.covers_root,
    path.follow_node (Nat.le_refl 1) path.depth_pos (by omega)]
  congr 2
  omega

end SearchPath

/-- From a root that covers the offset there is a path: it ends at the first level that is the limit
or has a node without a child that covers the offset. -/
theorem nonempty_searchPath (h : t.root.any (t.covers boundary offset) = true) :
    Nonempty (t.SearchPath boundary offset) := by
  obtain ⟨root, hroot, hcovers⟩ := Option.any_eq_true _ _ |>.mp h
  let node : Nat → NodeId := fun level => t.follow boundary offset (level - 1) root
  let ends : Nat → Prop := fun level =>
    1 ≤ level ∧ (level = maxSearchDepth ∨ t.childAt? boundary offset (node level) = none)
  have hends : ∃ level, ends level := ⟨maxSearchDepth, by decide, .inl rfl⟩
  have hfirst := Nat.find_spec hends
  refine ⟨{ node := node, depth := Nat.find hends, depth_pos := hfirst.1, depth_le := ?_,
            root_eq := hroot, covers_root := hcovers, step := ?_, last := ?_ }⟩
  · exact Nat.find_min' hends ⟨by decide, .inl rfl⟩
  · intro level hlevel hlt
    have hgoes : t.childAt? boundary offset (node level) ≠ none := fun hnone =>
      Nat.find_min hends hlt ⟨hlevel, .inr hnone⟩
    obtain ⟨c, hc⟩ := Option.ne_none_iff_exists'.mp hgoes
    have hnext : node (level + 1) = c := by
      have hsteps : level + 1 - 1 = level - 1 + 1 := by omega
      show t.follow boundary offset (level + 1 - 1) root = c
      rw [hsteps]
      exact follow_succ hc
    rw [hnext]
    exact childAt?_eq_some_iff.mp hc
  · exact hfirst.2.imp_right childAt?_eq_none_iff.mp

/-- **One path for all depths.** A search without a limit of its own fails exactly if every search
up to a depth does. If it does not fail, there is a path such that it finds the last node, and a
search up to a depth finds the node at that level, or the last one above it. -/
theorem exists_searchPath (t : Tree) (offset : Offset) :
    ((∀ depth, t.enclosing? depth offset = none) ↔ t.innermost? offset = none) ∧
      (t.innermost? offset ≠ none → ∃ path : t.SearchPath .exclusive offset,
        (∀ depth, t.enclosing? depth offset = some (path.node (min (max depth 1) path.depth))) ∧
          t.innermost? offset = some (path.node path.depth)) := by
  have hisSome := fun depth => Offsets.locate?_isSome t .exclusive depth offset
  constructor
  · constructor
    · intro h
      exact h maxSearchDepth
    · intro h depth
      rw [← Option.not_isSome_iff_eq_none] at h ⊢
      rwa [enclosing?, hisSome, ← hisSome maxSearchDepth]
  · intro h
    have hsome : (t.innermost? offset).isSome = true := Option.isSome_iff_ne_none.mpr h
    rw [innermost?, hisSome] at hsome
    obtain ⟨path⟩ := nonempty_searchPath hsome
    refine ⟨path, path.locate?_eq, ?_⟩
    have hpath := path.depth_le
    rw [innermost?, path.locate?_eq]
    congr 2
    omega

/-- Two nodes over a file of one letter that are each other's only child. -/
def cycleTree : Tree :=
  ⟨"a", #[⟨.block, 0, 1, none, [⟨1⟩]⟩, ⟨.identifier, 0, 1, none, [⟨0⟩]⟩], some ⟨0⟩⟩

/-- On a cycle the path goes round until the limit. -/
theorem exists_searchPath_cycle :
    cycleTree.innermost? 0 = some ⟨1⟩ ∧ ∃ path : cycleTree.SearchPath .exclusive 0,
      path.depth = maxSearchDepth ∧
        (∀ depth, cycleTree.enclosing? depth 0 =
          some (path.node (min (max depth 1) path.depth))) ∧
        cycleTree.innermost? 0 = some (path.node path.depth) := by
  have hfound : cycleTree.innermost? 0 = some ⟨1⟩ := by decide +kernel
  have hsome : cycleTree.innermost? 0 ≠ none := by simp [hfound]
  obtain ⟨path, hlevels, hlast⟩ := (exists_searchPath cycleTree 0).2 hsome
  refine ⟨hfound, path, path.last.resolve_right fun hcovers => ?_, hlevels, hlast⟩
  -- the last node is the identifier, whose child covers the offset
  rw [← Option.some.inj (hfound.symm.trans hlast)] at hcovers
  exact absurd (hcovers ⟨0⟩ (by decide +kernel)) (by decide +kernel)

end Assist.Syntax.Tree
