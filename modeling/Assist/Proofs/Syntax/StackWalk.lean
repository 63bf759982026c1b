import Assist.Proofs.Syntax.Reach

/-!
# Walks with a stack

A loop that takes a node from the top of a stack, looks at it and puts others on top for it keeps no
record of the nodes that it has seen. It ends, and has seen the nodes in recursive preorder
(`stackLoop_eq`), if there is such a preorder at all. In a tree where every node comes after its
children there is one (`exists_preorder`), also for shared nodes, which occur once for every way to
them; and the walk of such a tree is the one with the children in their order (`preorder_walk`).
-/

namespace Assist.Syntax

variable {α : Type} {next : NodeId → List NodeId} {n c : NodeId}
  {roots others stack nodes below after : List NodeId}

/-! ## Preorder -/

/-- `nodes` are the nodes that come from a list of roots in recursive preorder: a root, then those
that come from what is next to it, then those that come from the other roots. -/
inductive Preorder (next : NodeId → List NodeId) : List NodeId → List NodeId → Prop where
  | nil : Preorder next [] []
  | cons {n : NodeId} {roots below after : List NodeId} (hbelow : Preorder next (next n) below)
      (hafter : Preorder next roots after) : Preorder next (n :: roots) (n :: (below ++ after))

namespace Preorder

theorem append (h : Preorder next roots below) (h' : Preorder next others after) :
    Preorder next (roots ++ others) (below ++ after) := by
  induction h with
  | nil => exact h'
  | cons hbelow _ _ ih =>
    rw [List.cons_append, List.cons_append, List.append_assoc]
    exact .cons hbelow ih

theorem root_mem (h : Preorder next roots nodes) (hn : n ∈ roots) : n ∈ nodes := by
  induction h with
  | nil => exact hn
  | cons _ _ _ ih =>
    rcases List.mem_cons.mp hn with rfl | hn
    · exact List.mem_cons_self
    · exact List.mem_cons_of_mem _ (List.mem_append_right _ (ih hn))

/-- With a node, what is next to it is in the preorder. -/
theorem next_mem (h : Preorder next roots nodes) (hn : n ∈ nodes) (hc : c ∈ next n) :
    c ∈ nodes := by
  induction h with
  | nil => cases hn
  | cons hbelow _ ihbelow ihafter =>
    refine List.mem_cons_of_mem _ (List.mem_append.mpr ?_)
    rcases List.mem_cons.mp hn with rfl | hn
    · exact Or.inl (hbelow.root_mem hc)
    · exact (List.mem_append.mp hn).imp ihbelow ihafter

/-- Nothing else is in the preorder. -/
theorem forall_mem {P : NodeId → Prop} (h : Preorder next roots nodes) (hroots : ∀ n ∈ roots, P n)
    (hnext : ∀ n, P n → ∀ c ∈ next n, P c) : ∀ n ∈ nodes, P n := by
  induction h with
  | nil => exact hroots
  | cons _ _ ihbelow ihafter =>
    obtain ⟨hn, hroots⟩ := List.forall_mem_cons.mp hroots
    exact List.forall_mem_cons.mpr ⟨hn, List.forall_mem_append.mpr
      ⟨ihbelow (hnext _ hn), ihafter hroots⟩⟩

end Preorder

theorem exists_preorder_of_forall (h : ∀ n ∈ roots, ∃ below, Preorder next (next n) below) :
    ∃ nodes, Preorder next roots nodes := by
  induction roots with
  | nil => exact ⟨[], .nil⟩
  | cons n roots ih =>
    obtain ⟨⟨below, hbelow⟩, hroots⟩ := List.forall_mem_cons.mp h
    obtain ⟨after, hafter⟩ := ih hroots
    exact ⟨_, .cons hbelow hafter⟩

/-- **There is a preorder** if all that is next to a node comes before it in the table, however
often. -/
theorem exists_preorder (hnext : ∀ n, ∀ c ∈ next n, c.index < n.index) (roots : List NodeId) :
    ∃ nodes, Preorder next roots nodes := by
  have hbelow : ∀ place, ∀ n : NodeId, n.index.toNat = place →
      ∃ below, Preorder next (next n) below := by
    intro place
    induction place using Nat.strong_induction_on with
    | _ place ih =>
      rintro n rfl
      exact exists_preorder_of_forall fun c hc =>
        ih c.index.toNat (UInt32.lt_iff_toNat_lt.mp (hnext n c hc)) c rfl
  exact exists_preorder_of_forall fun n _ => hbelow n.index.toNat n rfl

/-! ## Loops over a stack -/

/-- A loop over a stack of nodes, the top first: it looks at the node on top with the value that it
has so far, and stops with an answer or a fault or goes on with what is `next` to the node on top.
There is no result if the stack is not empty after a number of rounds. -/
def stackLoop (next : NodeId → List NodeId) (look : NodeId → α → Except Fault (ForInStep α)) :
    Nat → List NodeId → α → Option (Except Fault α)
  | _, [], value => some (.ok value)
  | 0, _ :: _, _ => none
  | rounds + 1, n :: stack, value =>
    match look n value with
    | .ok (.yield value) => stackLoop next look rounds (next n ++ stack) value
    | .ok (.done answer) => some (.ok answer)
    | .error fault => some (.error fault)

/-- **A loop over a stack** is a loop over the preorder of the stack, and takes no more rounds than
there are nodes in it. -/
theorem stackLoop_eq {look : NodeId → α → Except Fault (ForInStep α)} {rounds : Nat}
    (h : Preorder next stack nodes) (hrounds : nodes.length ≤ rounds) (value : α) :
    stackLoop next look rounds stack value = some (forIn nodes value look) := by
  induction nodes generalizing stack rounds value with
  | nil =>
    cases h
    rw [stackLoop]
    rfl
  | cons n rest ih =>
    obtain - | ⟨hbelow, hafter⟩ := h
    obtain ⟨rounds, rfl⟩ := Nat.exists_eq_add_of_le' hrounds
    rw [List.length_cons, ← Nat.add_assoc, stackLoop, List.forIn_cons]
    cases look n value with
    | error fault => rfl
    | ok step =>
      cases step with
      | done answer => rfl
      | yield value => exact ih (hbelow.append hafter) (Nat.le_add_left _ _) value

/-- A loop ends with a result if it has that result after any number of rounds but too few. -/
def EndsWith (loop : Nat → Option α) (result : α) : Prop :=
  ∃ rounds, ∀ more, rounds ≤ more → loop more = some result

theorem endsWith_stackLoop {look : NodeId → α → Except Fault (ForInStep α)}
    (h : Preorder next stack nodes) (value : α) :
    EndsWith (fun rounds => stackLoop next look rounds stack value) (forIn nodes value look) :=
  ⟨nodes.length, fun _ hrounds => stackLoop_eq h hrounds value⟩

/-! ## Trees that are built bottom-up -/

/-- Every child is there before the node that lists it: it comes from an earlier addition. -/
def ChildrenFirst (additions : List Addition) : Prop :=
  ∀ entry ∈ additions.zipIdx, ∀ c ∈ entry.1.children, c.index.toNat < entry.2

instance (additions : List Addition) : Decidable (ChildrenFirst additions) :=
  inferInstanceAs (Decidable (∀ entry ∈ additions.zipIdx, ∀ c ∈ entry.1.children, _))

namespace Tree

variable {t : Tree} {depth : Nat}

/-- The children of a node that is there before another are before it in the table. A number leads
to the node at its place, so this holds also where numbers are given out again. -/
theorem index_lt_of_childrenFirst {source : String} {additions : List Addition}
    (h : ChildrenFirst additions) (hc : c ∈ (build source additions).children n) :
    c.index < n.index := by
  induction additions using List.reverseRecOn with
  | nil => exact absurd (index_lt_of_mem_children hc) (Nat.not_lt_zero _)
  | append_singleton additions addition ih =>
    rw [ChildrenFirst, List.zipIdx_append, List.forall_mem_append] at h
    obtain ⟨hearlier, hlast⟩ := h
    rw [build, List.foldl_append] at hc
    change c ∈ (addition.run (build source additions)).children n at hc
    obtain ⟨node, hchildren, hadds⟩ := exists_adds (build source additions) addition
    by_cases hnew : n.index.toNat = (build source additions).size
    · obtain ⟨found, hfound, hmem⟩ := exists_of_mem_children hc
      have hnode : some found = some node := by
        rw [← hfound, hadds.get?_new hnew (ne_none_of_get? hfound)]
      rw [Option.some.inj hnode, hchildren] at hmem
      rw [UInt32.lt_iff_toNat_lt, hnew, size_build]
      simpa using hlast _ List.mem_cons_self c hmem
    · rw [(hadds.sameNode hnew).children_eq] at hc
      exact ih hearlier hc

/-! ## The walk of a tree -/

/-- The walk is the recursive preorder if it goes deep enough. A node outside the table has no
children, so it takes one step to see it. -/
theorem preorder_flatMap (hchildren : ∀ {n c}, c ∈ t.children n → c.index < n.index)
    (hroots : ∀ n ∈ roots, min n.index.toNat t.size < depth) :
    Preorder t.children roots (roots.flatMap (t.preorder depth)) := by
  induction depth generalizing roots with
  | zero =>
    cases roots with
    | nil => exact .nil
    | cons n roots => exact absurd (hroots n List.mem_cons_self) (Nat.not_lt_zero _)
  | succ depth ih =>
    induction roots with
    | nil => exact .nil
    | cons n roots ihroots =>
      obtain ⟨hn, hroots⟩ := List.forall_mem_cons.mp hroots
      rw [List.flatMap_cons, preorder, List.cons_append]
      refine .cons (ih fun c hc => ?_) (ihroots hroots)
      have hlt := UInt32.lt_iff_toNat_lt.mp (hchildren hc)
      have hin := index_lt_of_mem_children hc
      omega

/-- **The walk is the recursive preorder** of a tree where children come first. -/
theorem preorder_walk (hchildren : ∀ {n c}, c ∈ t.children n → c.index < n.index) :
    Preorder t.children t.root.toList t.walk := by
  rw [walk]
  cases t.root with
  | none => exact .nil
  | some root =>
    have hroots : ∀ n ∈ [root], min n.index.toNat t.size < t.walkDepth := fun n _ =>
      Nat.lt_succ_of_le (Nat.min_le_right _ _)
    have h := preorder_flatMap hchildren hroots
    rwa [List.flatMap_singleton] at h

/-- The nodes of a preorder from the root, whatever the order of children, are those that can be
reached. -/
theorem mem_preorder_iff (hnext : ∀ {n c}, c ∈ next n ↔ c ∈ t.children n)
    (h : Preorder next t.root.toList nodes) : n ∈ nodes ↔ t.HasNode n := by
  constructor
  · refine h.forall_mem (fun root hroot => ?_) (fun n hn c hc => ?_) n
    · exact .of_root (Option.mem_toList.mp hroot)
    · exact hn.child (hnext.mp hc)
  · rintro ⟨level, hlevel⟩
    induction hlevel with
    | root hroot => exact h.root_mem (Option.mem_toList.mpr hroot)
    | child _ hmem ih => exact h.next_mem ih (hnext.mpr hmem)

theorem firstBelow?_eq (t : Tree) (p : NodeId → Bool) (depth : Nat) (n : NodeId) :
    t.firstBelow? p depth n = (t.preorder depth n).find? p := by
  induction depth generalizing n with
  | zero => rfl
  | succ depth ih =>
    rw [firstBelow?, preorder, List.find?_cons, List.find?_flatMap, funext ih]
    cases p n <;> rfl

/-- The first node that is found is the first in the walk, on any tree. -/
theorem first?_eq (t : Tree) (p : NodeId → Bool) : t.first? p = t.walk.find? p := by
  rw [first?, walk]
  cases t.root with
  | none => rfl
  | some root => exact firstBelow?_eq t p _ root

end Tree

end Assist.Syntax
