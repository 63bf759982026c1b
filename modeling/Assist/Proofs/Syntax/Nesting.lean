import Assist.Proofs.Offsets.Tree

/-!
# Nested trees

A tree is `Nested` if it is not too deep for a search, the links to parents lead back along the
links to children, and the children of a node lie in it, in order and apart. A search by an offset
visits the root and then, at each level, the first child that covers the offset (`Visits`). In a
nested tree it visits every node that owns the offset: one that covers it without starting at it,
if the ends of nodes count (`Owns`, `Nested.visits`).
-/

namespace Assist.Syntax.Tree

open Assist.Text

/-! ## Levels -/

/-- The nodes that can be reached from the root, with their levels; the root is at level one. -/
inductive AtLevel (t : Tree) : Nat → NodeId → Prop where
  | root {root : NodeId} (hroot : t.root = some root) : AtLevel t 1 root
  | child {level : Nat} {n c : NodeId} (h : AtLevel t level n) (hmem : c ∈ t.children n) :
      AtLevel t (level + 1) c

/-- Whether a node can be reached from the root. -/
def HasNode (t : Tree) (n : NodeId) : Prop := ∃ level, t.AtLevel level n

/-- A list that holds the root and, with a node, its children holds all nodes. -/
theorem AtLevel.mem_of_closed {t : Tree} {nodes : List (Nat × NodeId)}
    (hroot : ∀ root ∈ t.root, (1, root) ∈ nodes)
    (hchildren : ∀ entry ∈ nodes, ∀ c ∈ t.children entry.2, (entry.1 + 1, c) ∈ nodes)
    {level : Nat} {n : NodeId} (h : t.AtLevel level n) : (level, n) ∈ nodes := by
  induction h with
  | root h => exact hroot _ h
  | child _ hmem ih => exact hchildren _ ih _ hmem

/-! ## Nested trees -/

variable {t : Tree} {a b c n p root : NodeId} {boundary : Boundary} {offset : Offset}
  {level depth : Nat}

theorem covers_exclusive_iff :
    t.covers .exclusive offset n = true ↔ t.start n ≤ offset ∧ offset < t.stop n := by
  simp [covers]

theorem covers_inclusive_iff :
    t.covers .inclusive offset n = true ↔ t.start n ≤ offset ∧ offset ≤ t.stop n := by
  simp [covers]

/-- The node `a` comes before its sibling `b`: it does not start later, and no offset lies in
both. -/
structure Precedes (t : Tree) (a b : NodeId) : Prop where
  start_le : t.start a ≤ t.start b
  apart : ∀ offset, ¬(t.covers .exclusive offset a = true ∧ t.covers .exclusive offset b = true)

/-- Of two siblings in order, the first ends before the second starts, or the second is empty. -/
theorem precedes_iff : t.Precedes a b ↔
    t.start a ≤ t.start b ∧ (t.stop a ≤ t.start b ∨ t.stop b ≤ t.start b) := by
  constructor
  · rintro ⟨hle, hapart⟩
    refine ⟨hle, ?_⟩
    by_contra hends
    obtain ⟨ha, hb⟩ := not_or.mp hends
    exact hapart (t.start b) ⟨covers_exclusive_iff.mpr ⟨hle, UInt32.not_le.mp ha⟩,
      covers_exclusive_iff.mpr ⟨UInt32.le_refl _, UInt32.not_le.mp hb⟩⟩
  · rintro ⟨hle, hends⟩
    refine ⟨hle, fun offset => ?_⟩
    rw [covers_exclusive_iff, covers_exclusive_iff]
    rintro ⟨⟨-, ha⟩, hstart, hb⟩
    have hlt : offset < t.start b := by
      rcases hends with hends | hends
      · exact UInt32.lt_of_lt_of_le ha hends
      · exact UInt32.lt_of_lt_of_le hb hends
    exact UInt32.not_lt.mpr hstart hlt

instance (t : Tree) (a b : NodeId) : Decidable (t.Precedes a b) :=
  decidable_of_iff _ precedes_iff.symm

/-- The children of a node know it, lie in it, and come one after the other. -/
structure Nests (t : Tree) (n : NodeId) : Prop where
  parent_eq : ∀ c ∈ t.children n, t.parent? c = some n
  within : ∀ c ∈ t.children n, t.start n ≤ t.start c ∧ t.stop c ≤ t.stop n
  order : (t.children n).Pairwise t.Precedes

theorem nests_iff : t.Nests n ↔ (∀ c ∈ t.children n, t.parent? c = some n) ∧
    (∀ c ∈ t.children n, t.start n ≤ t.start c ∧ t.stop c ≤ t.stop n) ∧
    (t.children n).Pairwise t.Precedes :=
  ⟨fun h => ⟨h.parent_eq, h.within, h.order⟩, fun h => ⟨h.1, h.2.1, h.2.2⟩⟩

instance (t : Tree) (n : NodeId) : Decidable (t.Nests n) := decidable_of_iff _ nests_iff.symm

/-- The children of every node nest in it, the root has no parent, and no node is too deep to be
found. -/
structure Nested (t : Tree) : Prop where
  root_parent : ∀ root, t.root = some root → t.parent? root = none
  depth : ∀ {level n}, t.AtLevel level n → level ≤ maxSearchDepth
  nests : ∀ {n}, t.HasNode n → t.Nests n

theorem HasNode.of_root (h : t.root = some root) : t.HasNode root := ⟨1, .root h⟩

theorem HasNode.child (h : t.HasNode n) (hmem : c ∈ t.children n) : t.HasNode c := by
  obtain ⟨level, h⟩ := h
  exact ⟨level + 1, h.child hmem⟩

/-- The parent of a node has it as a child. -/
theorem HasNode.parent (h : t.HasNode n) (hnested : t.Nested) (hparent : t.parent? n = some p) :
    t.HasNode p ∧ n ∈ t.children p := by
  obtain ⟨level, hlevel⟩ := h
  rcases hlevel with hroot | ⟨h, hmem⟩
  · rw [hnested.root_parent n hroot] at hparent
    cases hparent
  · have hback := (hnested.nests ⟨_, h⟩).parent_eq n hmem
    obtain rfl := Option.some.inj (hback.symm.trans hparent)
    exact ⟨⟨_, h⟩, hmem⟩

theorem HasNode.nameOwner (h : t.HasNode n) (hnested : t.Nested) : t.HasNode (t.nameOwner n) := by
  unfold Tree.nameOwner
  split
  · cases hparent : t.parent? n with
    | none => exact h
    | some p => exact (h.parent hnested hparent).1
  · exact h

/-! ## The nodes of a search -/

/-- The nodes that a search visits, with their levels: the root if it covers the offset, and then
the first child that does. -/
inductive Visits (t : Tree) (boundary : Boundary) (offset : Offset) : Nat → NodeId → Prop where
  | root {root : NodeId} (hroot : t.root = some root)
      (hcovers : t.covers boundary offset root = true) : Visits t boundary offset 1 root
  | child {level : Nat} {n c : NodeId} (h : Visits t boundary offset level n)
      (hchild : t.childAt? boundary offset n = some c) : Visits t boundary offset (level + 1) c

theorem mem_children_of_childAt? (h : t.childAt? boundary offset n = some c) :
    c ∈ t.children n := List.mem_of_find?_eq_some h

theorem childAt?_eq_none_iff : t.childAt? boundary offset n = none ↔
    ∀ c ∈ t.children n, t.covers boundary offset c = false := by
  rw [childAt?, List.find?_eq_none]
  simp only [Bool.not_eq_true]

theorem follow_of_childAt? (h : t.childAt? boundary offset n = some c) (steps : Nat) :
    t.follow boundary offset (steps + 1) n = t.follow boundary offset steps c := by
  rw [follow, h]

theorem follow_of_childAt?_eq_none (h : t.childAt? boundary offset n = none) (steps : Nat) :
    t.follow boundary offset steps n = n := by
  cases steps with
  | zero => rw [follow]
  | succ steps => rw [follow, h]

theorem Visits.atLevel (h : t.Visits boundary offset level n) : t.AtLevel level n := by
  induction h with
  | root hroot => exact .root hroot
  | child _ hchild ih => exact ih.child (mem_children_of_childAt? hchild)

theorem Visits.level_pos (h : t.Visits boundary offset level n) : 0 < level := by
  cases h <;> exact Nat.succ_pos _

/-- Following children from the root passes through the nodes that are visited. -/
theorem Visits.exists_follow (h : t.Visits boundary offset level n) :
    ∃ root, t.root = some root ∧ t.covers boundary offset root = true ∧
      ∀ steps, t.follow boundary offset (steps + (level - 1)) root =
        t.follow boundary offset steps n := by
  induction h with
  | @root root hroot hcovers => exact ⟨root, hroot, hcovers, fun _ => rfl⟩
  | @child level n c h hchild ih =>
    obtain ⟨root, hroot, hcovers, hfollow⟩ := ih
    refine ⟨root, hroot, hcovers, fun steps => ?_⟩
    have hlevel : steps + (level + 1 - 1) = (steps + 1) + (level - 1) := by
      have := h.level_pos
      omega
    rw [hlevel, hfollow (steps + 1), follow_of_childAt? hchild]

/-- From a node that it visits, a search goes on as from any other. -/
theorem Visits.locate?_eq_follow (h : t.Visits boundary offset level n) (hlevel : level ≤ depth)
    (hmax : level ≤ maxSearchDepth) : t.locate? boundary depth offset =
      some (t.follow boundary offset (min depth maxSearchDepth - level) n) := by
  obtain ⟨root, hroot, hcovers, hfollow⟩ := h.exists_follow
  have hsteps : min depth maxSearchDepth - 1 =
      (min depth maxSearchDepth - level) + (level - 1) := by
    have := h.level_pos
    omega
  rw [Offsets.locate?_of_root hroot, if_pos hcovers, hsteps, hfollow]

/-- A search ends at the node it visits if no child covers the offset. -/
theorem Visits.locate?_eq (h : t.Visits boundary offset level n) (hlevel : level ≤ depth)
    (hmax : level ≤ maxSearchDepth) (hlast : t.childAt? boundary offset n = none) :
    t.locate? boundary depth offset = some n := by
  rw [h.locate?_eq_follow hlevel hmax, follow_of_childAt?_eq_none hlast]

theorem Visits.exists_visits_follow (h : t.Visits boundary offset level n) (steps : Nat) :
    ∃ level', t.Visits boundary offset level' (t.follow boundary offset steps n) := by
  induction steps generalizing level n with
  | zero => exact ⟨level, h⟩
  | succ steps ih =>
    rw [follow]
    cases hchild : t.childAt? boundary offset n with
    | none => exact ⟨level, h⟩
    | some c => exact ih (h.child hchild)

/-- What a search finds can be reached from the root. -/
theorem hasNode_of_locate? (h : t.locate? boundary depth offset = some n) : t.HasNode n := by
  cases hroot : t.root with
  | none =>
    rw [locate?, hroot] at h
    cases h
  | some root =>
    rw [Offsets.locate?_of_root hroot] at h
    split at h
    · rename_i hcovers
      obtain rfl := Option.some.inj h
      obtain ⟨level, hvisits⟩ := (Visits.root hroot hcovers).exists_visits_follow
        (min depth maxSearchDepth - 1)
      exact ⟨level, hvisits.atLevel⟩
    · cases h

/-! ## Owning an offset -/

/-- Whether the node `n` covers an offset in a way that no sibling before it can: where the end
belongs to a node, the start does not count. -/
def Owns (t : Tree) (boundary : Boundary) (offset : Offset) (n : NodeId) : Prop :=
  match boundary with
  | .exclusive => t.start n ≤ offset ∧ offset < t.stop n
  | .inclusive => t.start n < offset ∧ offset ≤ t.stop n

theorem Owns.covers (h : t.Owns boundary offset n) : t.covers boundary offset n = true := by
  cases boundary with
  | exclusive => exact covers_exclusive_iff.mpr h
  | inclusive => exact covers_inclusive_iff.mpr ⟨UInt32.le_of_lt h.1, h.2⟩

theorem Owns.of_within (h : t.Owns boundary offset c) (hstart : t.start n ≤ t.start c)
    (hstop : t.stop c ≤ t.stop n) : t.Owns boundary offset n := by
  cases boundary with
  | exclusive => exact ⟨UInt32.le_trans hstart h.1, UInt32.lt_of_lt_of_le h.2 hstop⟩
  | inclusive => exact ⟨UInt32.lt_of_le_of_lt hstart h.1, UInt32.le_trans h.2 hstop⟩

/-- A sibling before a node does not cover what the node owns. -/
theorem Precedes.not_covers (h : t.Precedes a c) (howns : t.Owns boundary offset c) :
    t.covers boundary offset a = false := by
  rw [Bool.eq_false_iff]
  intro hcovers
  cases boundary with
  | exclusive => exact h.apart offset ⟨hcovers, howns.covers⟩
  | inclusive =>
    -- the later sibling starts before the offset, and there the two would overlap
    have ha : t.start c < t.stop a :=
      UInt32.lt_of_lt_of_le howns.1 (covers_inclusive_iff.mp hcovers).2
    have hc : t.start c < t.stop c := UInt32.lt_of_lt_of_le howns.1 howns.2
    exact h.apart (t.start c) ⟨covers_exclusive_iff.mpr ⟨h.start_le, ha⟩,
      covers_exclusive_iff.mpr ⟨UInt32.le_refl _, hc⟩⟩

/-- **One step.** The child that owns an offset is the one that a search steps to. -/
theorem Nests.childAt?_eq (h : t.Nests n) (hmem : c ∈ t.children n)
    (howns : t.Owns boundary offset c) : t.childAt? boundary offset n = some c := by
  obtain ⟨before, after, hchildren⟩ := List.append_of_mem hmem
  have horder := h.order
  rw [hchildren, List.pairwise_append] at horder
  refine List.find?_eq_some_iff_append.mpr
    ⟨howns.covers, before, after, hchildren, fun sibling hbefore => ?_⟩
  rw [(horder.2.2 sibling hbefore c List.mem_cons_self).not_covers howns]
  rfl

/-- **The whole search.** In a nested tree a search visits every node that owns the offset. -/
theorem Nested.visits (hnested : t.Nested) (h : t.AtLevel level n)
    (howns : t.Owns boundary offset n) : t.Visits boundary offset level n := by
  induction h with
  | root hroot => exact .root hroot howns.covers
  | child h hmem ih =>
    have hnests := hnested.nests ⟨_, h⟩
    obtain ⟨hstart, hstop⟩ := hnests.within _ hmem
    exact (ih (howns.of_within hstart hstop)).child (hnests.childAt?_eq hmem howns)

/-- A search finds the node that owns the offset if none of its children covers it. -/
theorem Nested.locate?_eq (hnested : t.Nested) (h : t.HasNode n)
    (howns : t.Owns boundary offset n)
    (hchildren : ∀ c ∈ t.children n, t.covers boundary offset c = false) :
    t.locate? boundary maxSearchDepth offset = some n := by
  obtain ⟨level, hlevel⟩ := h
  have hmax := hnested.depth hlevel
  exact (hnested.visits hlevel howns).locate?_eq hmax hmax (childAt?_eq_none_iff.mpr hchildren)

end Assist.Syntax.Tree
