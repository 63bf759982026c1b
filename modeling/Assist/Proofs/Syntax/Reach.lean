import Assist.Proofs.Syntax.Nesting
import Mathlib.Data.Finset.Card
import Mathlib.Order.Interval.Finset.Nat

/-!
# The nodes that a walk sees

The links of a tree from outside may form a cycle, and then there are paths of any length. But the
nodes on a shortest path are all different, and all of them but the last have children and so are in
the table. A walk follows paths that are as long as that (`LeastLevel.le_walkDepth`). So on any tree
it sees exactly the nodes that can be reached (`mem_walk_iff`), and the names in use are exactly the
texts of the identifiers among them (`mem_usedNames_iff`).
-/

namespace Assist.Syntax.Tree

variable {t : Tree} {n c root : NodeId} {depth level : Nat}

/-! ## Shortest paths -/

/-- No path from the root to `n` is shorter than `level`, and there is one of that length. -/
structure LeastLevel (t : Tree) (level : Nat) (n : NodeId) : Prop where
  atLevel : t.AtLevel level n
  least : ∀ {other}, t.AtLevel other n → level ≤ other

theorem HasNode.exists_leastLevel (h : t.HasNode n) : ∃ level, t.LeastLevel level n := by
  classical
  exact ⟨Nat.find h, Nat.find_spec h, fun hother => Nat.find_min' h hother⟩

/-- On a shortest path there is a node at every level above the last, and it is in the table. -/
theorem LeastLevel.exists_above (h : t.LeastLevel level n) {above : Nat} (hpos : 1 ≤ above)
    (habove : above < level) : ∃ p, t.LeastLevel above p ∧ p.index.toNat < t.size := by
  induction level generalizing n with
  | zero => omega
  | succ level ih =>
    obtain - | ⟨hparent, hmem⟩ := h.atLevel
    · omega
    · rename_i p
      have hp : t.LeastLevel level p :=
        ⟨hparent, fun hother => Nat.le_of_succ_le_succ (h.least (hother.child hmem))⟩
      rcases Nat.lt_succ_iff_lt_or_eq.mp habove with habove | rfl
      · exact ih hp habove
      · exact ⟨p, hp, index_lt_of_mem_children hmem⟩

/-- **Shortest paths are short.** The nodes above the last level of a shortest path are different
nodes of the table. -/
theorem LeastLevel.le_walkDepth (h : t.LeastLevel level n) : level ≤ t.walkDepth := by
  have habove : ∀ above ∈ Finset.Ico 1 level,
      ∃ p, t.LeastLevel above p ∧ p.index.toNat < t.size := by
    intro above hmem
    obtain ⟨hpos, hlt⟩ := Finset.mem_Ico.mp hmem
    exact h.exists_above hpos hlt
  choose! node hnode hin using habove
  have hcard : (Finset.Ico 1 level).card ≤ (Finset.range t.size).card := by
    apply Finset.card_le_card_of_injOn fun above => (node above).index.toNat
    · exact fun above hmem => Finset.mem_coe.mpr (Finset.mem_range.mpr (hin above hmem))
    · intro a ha b hb hab
      -- one node has one least level
      have hsame : node a = node b := NodeId.eq_of_toNat_index_eq hab
      have ha' := hnode a ha
      have hb' := hnode b hb
      rw [hsame] at ha'
      exact Nat.le_antisymm (ha'.least hb'.atLevel) (hb'.least ha'.atLevel)
  rw [Nat.card_Ico, Finset.card_range] at hcard
  rw [walkDepth]
  omega

/-! ## Walks -/

theorem self_mem_preorder (t : Tree) (depth : Nat) (n : NodeId) : n ∈ t.preorder (depth + 1) n := by
  rw [preorder]
  exact List.mem_cons_self

/-- A walk that goes one level deeper sees the children of what it saw. -/
theorem child_mem_preorder (h : n ∈ t.preorder depth root) (hmem : c ∈ t.children n) :
    c ∈ t.preorder (depth + 1) root := by
  induction depth generalizing root with
  | zero => cases h
  | succ depth ih =>
    rw [preorder] at h
    rw [preorder, List.mem_cons, List.mem_flatMap]
    rcases List.mem_cons.mp h with rfl | h
    · exact Or.inr ⟨c, hmem, self_mem_preorder t depth c⟩
    · obtain ⟨child, hchild, hn⟩ := List.mem_flatMap.mp h
      exact Or.inr ⟨child, hchild, ih hn⟩

/-- A walk that goes deeper sees what it saw before. -/
theorem preorder_subset_succ (t : Tree) (depth : Nat) (root : NodeId) :
    t.preorder depth root ⊆ t.preorder (depth + 1) root := by
  induction depth generalizing root with
  | zero => exact List.nil_subset _
  | succ depth ih =>
    rw [preorder, preorder]
    refine List.cons_subset_cons root fun c hc => ?_
    obtain ⟨child, hchild, hc⟩ := List.mem_flatMap.mp hc
    exact List.mem_flatMap.mpr ⟨child, hchild, ih child hc⟩

theorem AtLevel.mem_preorder (h : t.AtLevel level n) (hroot : t.root = some root) :
    n ∈ t.preorder level root := by
  induction h with
  | root hroot' =>
    obtain rfl := Option.some.inj (hroot.symm.trans hroot')
    exact self_mem_preorder t 0 root
  | child _ hmem ih => exact child_mem_preorder ih hmem

theorem hasNode_of_mem_preorder (hroot : t.HasNode root) (h : n ∈ t.preorder depth root) :
    t.HasNode n := by
  induction depth generalizing root with
  | zero => cases h
  | succ depth ih =>
    rw [preorder] at h
    rcases List.mem_cons.mp h with rfl | h
    · exact hroot
    · obtain ⟨child, hchild, hn⟩ := List.mem_flatMap.mp h
      exact ih (hroot.child hchild) hn

theorem HasNode.exists_root (h : t.HasNode n) : ∃ root, t.root = some root := by
  obtain ⟨level, h⟩ := h
  induction h with
  | root hroot => exact ⟨_, hroot⟩
  | child _ _ ih => exact ih

/-- **A walk sees all nodes.** On any tree, also one whose links form a cycle, the nodes of a walk
are those that can be reached from the root. -/
theorem mem_walk_iff : n ∈ t.walk ↔ t.HasNode n := by
  constructor
  · intro h
    cases hroot : t.root with
    | none =>
      rw [walk, hroot] at h
      cases h
    | some root =>
      rw [walk, hroot] at h
      exact hasNode_of_mem_preorder (.of_root hroot) h
  · intro h
    obtain ⟨root, hroot⟩ := h.exists_root
    obtain ⟨level, hlevel⟩ := h.exists_leastLevel
    have hmono : t.preorder level root ⊆ t.preorder t.walkDepth root := by
      obtain ⟨more, hmore⟩ := Nat.exists_eq_add_of_le hlevel.le_walkDepth
      rw [hmore]
      clear hmore
      induction more with
      | zero => exact List.Subset.refl _
      | succ more ih => exact List.Subset.trans ih (preorder_subset_succ t _ root)
    rw [walk, hroot]
    exact hmono (hlevel.atLevel.mem_preorder hroot)

/-! ## Names -/

/-- `name` is the text of an identifier, private or not, that can be reached from the root. -/
def HasIdentifier (t : Tree) (name : String) : Prop :=
  ∃ n, t.HasNode n ∧ (t.kind n = .identifier ∨ t.kind n = .privateIdentifier) ∧
    t.textOf n = .ok name

theorem isIdentifier_iff {kind : Kind} :
    kind.isIdentifier = true ↔ kind = .identifier ∨ kind = .privateIdentifier := by
  cases kind <;> decide

/-- The names in use are the texts of the identifiers that can be reached. -/
theorem mem_usedNames_iff {names : List String} (h : t.usedNames = .ok names) {name : String} :
    name ∈ names ↔ t.HasIdentifier name := by
  rw [usedNames] at h
  simp only [Offsets.mem_of_mapM_iff h, List.mem_filter, mem_walk_iff, isIdentifier_iff, and_assoc,
    HasIdentifier]

end Assist.Syntax.Tree
