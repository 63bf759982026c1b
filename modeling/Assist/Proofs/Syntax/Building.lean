import Assist.Proofs.Offsets.Trivia
import Assist.Syntax.Tree

/-!
# Building a tree

A tree is built by adding nodes, tokens and whole files one after the other (`Addition`, `build`).
Nothing is asked of what is added: bounds may lie outside the file or be out of order, and among the
children of a node there may be one that has a parent already, one that is listed twice, one that is
not in the tree yet, and the node itself.

All that an addition does is in `Adds`: the new node comes last, without a parent and with its
bounds in order and in the file, and those of its children that were there before are linked to its
number. Everything else follows from that. Whatever is added, the bounds of the nodes stay in order,
and no addition changes anything about an earlier node but its parent. In a tree of up to `maxNodes`
nodes each has a number of its own, and there the parent of a node is the last one behind it that
lists it as a child, so that links to parents lead to later and later nodes and come to an end
(`wellBuilt_build`). A node more, and its children are linked to no node or to one of the first.
-/

namespace Assist.Syntax

open Assist.Text

/-- The ways to add a node to a tree. -/
inductive Addition where
  | node (kind : Kind) (pos stop : Offset) (children : List NodeId)
  | token (kind : Kind) (pos stop : Offset)
  | file (statements : List NodeId)

/-- The tree with one more node. -/
def Addition.run (t : Tree) : Addition → Tree
  | .node kind pos stop children => t.add kind pos stop children
  | .token kind pos stop => t.addLeaf kind pos stop
  | .file statements => t.addFile statements

/-- The tree over `source` with all the additions made, in their order. -/
def build (source : String) (additions : List Addition) : Tree :=
  additions.foldl Addition.run (Tree.empty source)

/-- What an addition lists as children. -/
def Addition.children : Addition → List NodeId
  | .node _ _ _ children => children
  | .token _ _ _ => []
  | .file statements => statements

theorem NodeId.eq_of_toNat_index_eq {a b : NodeId} (h : a.index.toNat = b.index.toNat) : a = b :=
  congrArg NodeId.mk (UInt32.toNat_inj.mp h)

theorem NodeId.toOption_of_ne {n : NodeId} (h : n ≠ .none) : n.toOption = some n := if_neg h

namespace Tree

variable {t u : Tree} {node : Node} {n c p : NodeId}

/-! ## Numbers and places -/

/-- As many nodes as there are numbers other than `NodeId.none`. -/
def maxNodes : Nat := NodeId.none.index.toNat

theorem toNat_nextId (h : t.size < maxNodes) : t.nextId.index.toNat = t.size :=
  UInt32.toNat_ofNat_of_lt' (Nat.lt_trans h (UInt32.toNat_lt _))

theorem nextId_ne_none (h : t.size < maxNodes) : t.nextId ≠ .none := by
  intro heq
  have hnat := toNat_nextId h
  rw [heq] at hnat
  exact absurd h (hnat ▸ Nat.lt_irrefl maxNodes)

theorem eq_nextId_iff (h : t.size < maxNodes) : n = t.nextId ↔ n.index.toNat = t.size := by
  rw [← toNat_nextId h]
  exact ⟨fun heq => heq ▸ rfl, NodeId.eq_of_toNat_index_eq⟩

theorem get?_of_ne (h : n ≠ .none) : t.get? n = t.nodes[n.index.toNat]? := if_neg h

theorem get?_none (t : Tree) : t.get? .none = none := if_pos rfl

theorem get?_eq_none (h : t.size ≤ n.index.toNat) : t.get? n = none := by
  rw [get?, Array.getElem?_eq_none h, ite_self]

theorem ne_none_of_get? (h : t.get? n = some node) : n ≠ .none := by
  rintro rfl
  rw [get?_none] at h
  cases h

/-- What a number leads to is at its place in the table. -/
theorem getElem?_of_get? (h : t.get? n = some node) : t.nodes[n.index.toNat]? = some node := by
  rw [← h, get?_of_ne (ne_none_of_get? h)]

theorem index_lt_of_get? (h : t.get? n = some node) : n.index.toNat < t.size :=
  (Array.getElem?_eq_some_iff.mp (getElem?_of_get? h)).choose

/-- In a tree where every node has a number of its own, all of them can be looked up. -/
theorem exists_get?_of_index_lt (hcount : t.size ≤ maxNodes) (h : n.index.toNat < t.size) :
    ∃ node, t.get? n = some node := by
  have hnone : n ≠ .none := by
    rintro rfl
    exact absurd (Nat.lt_of_lt_of_le h hcount) (Nat.lt_irrefl _)
  exact ⟨t.nodes[n.index.toNat], (get?_of_ne hnone).trans (Array.getElem?_eq_getElem h)⟩

/-- Only a node of the table has children. -/
theorem exists_of_mem_children (h : c ∈ t.children n) :
    ∃ node, t.get? n = some node ∧ c ∈ node.children := by
  rw [children] at h
  cases hget : t.get? n with
  | none =>
    rw [hget] at h
    exact absurd h List.not_mem_nil
  | some node =>
    rw [hget] at h
    exact ⟨node, rfl, h⟩

theorem index_lt_of_mem_children (h : c ∈ t.children n) : n.index.toNat < t.size := by
  obtain ⟨node, hget, -⟩ := exists_of_mem_children h
  exact index_lt_of_get? hget

theorem index_lt_of_parent? (h : t.parent? c = some p) : c.index.toNat < t.size := by
  obtain ⟨node, hget, -⟩ := Option.bind_eq_some_iff.mp h
  exact index_lt_of_get? hget

/-! ## One addition -/

/-- The tree `u` is `t` with `node` added: the node comes last, and those of its children that are
in `t` are linked to its number now. -/
structure Adds (t u : Tree) (node : Node) : Prop where
  source_eq : u.source = t.source
  size_eq : u.size = t.size + 1
  pos_le : node.pos ≤ node.stop
  stop_le : node.stop.toNat ≤ t.length
  parent_eq : node.parent = none
  getElem?_eq : ∀ place : Nat, u.nodes[place]? = if place = t.size then some node else
    t.nodes[place]?.map fun old =>
      if ∃ c ∈ node.children, c.index.toNat = place then
        { old with parent := t.nextId.toOption } else old

/-- Linking some children to a node changes their parents and nothing else. -/
theorem getElem?_foldl_adopt (parent : NodeId) (children : List NodeId) (nodes : Array Node)
    (place : Nat) : (children.foldl (adopt parent) nodes)[place]? =
      nodes[place]?.map fun old =>
        if ∃ c ∈ children, c.index.toNat = place then
          { old with parent := parent.toOption } else old := by
  induction children generalizing nodes with
  | nil => simp
  | cons child children ih =>
    rw [List.foldl_cons, ih, adopt, Array.getElem?_modify]
    by_cases heq : child.index.toNat = place
    · rw [if_pos heq, Option.map_map]
      congr 1
      funext old
      by_cases hlater : ∃ c ∈ children, c.index.toNat = place <;> simp [heq, hlater]
    · rw [if_neg heq]
      simp [heq]

theorem size_foldl_adopt (parent : NodeId) (children : List NodeId) (nodes : Array Node) :
    (children.foldl (adopt parent) nodes).size = nodes.size := by
  induction children generalizing nodes with
  | nil => rfl
  | cons child children ih => rw [List.foldl_cons, ih, adopt, Array.size_modify]

theorem adds_add (t : Tree) (kind : Kind) (pos stop : Offset) (children : List NodeId) :
    ∃ node, node.children = children ∧ t.Adds (t.add kind pos stop children) node := by
  have hstop : (min stop (UInt32.ofNat t.length)).toNat ≤ t.length := by
    rw [Offsets.toNat_min, UInt32.toNat_ofNat']
    exact Nat.le_trans (Nat.min_le_right _ _) (Nat.mod_le _ _)
  refine ⟨⟨kind, min pos (min stop (UInt32.ofNat t.length)), min stop (UInt32.ofNat t.length), none,
    children⟩, rfl, rfl, ?_, ?_, hstop, rfl, fun place => ?_⟩
  · show (Array.push _ _).size = _
    rw [Array.size_push, size_foldl_adopt]
    rfl
  · rw [UInt32.le_iff_toNat_le, Offsets.toNat_min]
    exact Nat.min_le_right _ _
  · show (Array.push _ _)[place]? = _
    rw [Array.getElem?_push, size_foldl_adopt, getElem?_foldl_adopt]
    rfl

/-- **One addition** adds one node. -/
theorem exists_adds (t : Tree) (addition : Addition) :
    ∃ node, node.children = addition.children ∧ t.Adds (addition.run t) node := by
  cases addition with
  | node kind pos stop children => exact adds_add t kind pos stop children
  | token kind pos stop => exact adds_add t kind pos stop []
  | file statements =>
    obtain ⟨node, hchildren, h⟩ := adds_add t .sourceFile 0 (UInt32.ofNat t.length) statements
    exact ⟨node, hchildren, h.source_eq, h.size_eq, h.pos_le, h.stop_le, h.parent_eq,
      h.getElem?_eq⟩

/-- The node `n` of `t` is the same in `u`, but for its parent. -/
structure SameNode (t u : Tree) (n : NodeId) : Prop where
  kind_eq : u.kind n = t.kind n
  pos_eq : u.pos n = t.pos n
  start_eq : u.start n = t.start n
  stop_eq : u.stop n = t.stop n
  children_eq : u.children n = t.children n

theorem SameNode.trans {v : Tree} (h : t.SameNode u n) (h' : u.SameNode v n) : t.SameNode v n where
  kind_eq := h'.kind_eq.trans h.kind_eq
  pos_eq := h'.pos_eq.trans h.pos_eq
  start_eq := h'.start_eq.trans h.start_eq
  stop_eq := h'.stop_eq.trans h.stop_eq
  children_eq := h'.children_eq.trans h.children_eq

namespace Adds

variable (h : t.Adds u node)
include h

/-- A number of an earlier node leads to the same node, linked to the new one if it is a child. A
number that leads to none does so afterwards, but for that of the new node. -/
theorem get?_eq (hne : n.index.toNat ≠ t.size) : u.get? n = (t.get? n).map fun old =>
    if n ∈ node.children then { old with parent := t.nextId.toOption } else old := by
  by_cases hnone : n = .none
  · rw [hnone, get?_none, get?_none]
    rfl
  · have hmem : (∃ c ∈ node.children, c.index.toNat = n.index.toNat) ↔ n ∈ node.children :=
      ⟨fun ⟨c, hc, heq⟩ => NodeId.eq_of_toNat_index_eq heq ▸ hc, fun hn => ⟨n, hn, rfl⟩⟩
    rw [get?_of_ne hnone, get?_of_ne hnone, h.getElem?_eq, if_neg hne]
    simp only [hmem]

theorem get?_new (hnew : n.index.toNat = t.size) (hnone : n ≠ .none) : u.get? n = some node := by
  rw [get?_of_ne hnone, h.getElem?_eq, if_pos hnew]

/-- Every node but the new one is the same as before, in the tree or not. -/
theorem sameNode (hne : n.index.toNat ≠ t.size) : t.SameNode u n := by
  have hfield : ∀ {α : Type} (f : Node → α),
      (∀ old parent, f { old with parent := parent } = f old) →
      (u.get? n).map f = (t.get? n).map f := by
    intro α f hf
    rw [h.get?_eq hne, Option.map_map]
    congr 1
    funext old
    by_cases hmem : n ∈ node.children
    · simp [hmem, hf]
    · simp [hmem]
  have hpos : u.pos n = t.pos n := by rw [pos, pos, hfield _ fun _ _ => rfl]
  have hstop : u.stop n = t.stop n := by rw [stop, stop, hfield _ fun _ _ => rfl]
  refine ⟨?_, hpos, ?_, hstop, ?_⟩
  · rw [kind, kind, hfield _ fun _ _ => rfl]
  · rw [start, start, hpos, hstop, h.source_eq]
  · rw [children, children, hfield _ fun _ _ => rfl]

/-! ### The links, while there are numbers -/

variable (hcount : t.size < maxNodes)
include hcount

theorem get?_nextId : u.get? t.nextId = some node :=
  h.get?_new (toNat_nextId hcount) (nextId_ne_none hcount)

theorem children_nextId : u.children t.nextId = node.children := by
  rw [children, h.get?_nextId hcount]
  rfl

/-- The new node is the parent of those of its children that were there before. -/
theorem parent?_eq : u.parent? c =
    if c ∈ node.children ∧ c.index.toNat < t.size then some t.nextId else t.parent? c := by
  by_cases hnew : c.index.toNat = t.size
  · have hnone : t.get? c = none := get?_eq_none (Nat.le_of_eq hnew.symm)
    rw [(eq_nextId_iff hcount).mpr hnew] at hnone ⊢
    rw [if_neg (fun hc => absurd hc.2 (by rw [toNat_nextId hcount]; exact Nat.lt_irrefl _)),
      parent?, parent?, h.get?_nextId hcount, hnone]
    exact h.parent_eq
  · rw [parent?, parent?, h.get?_eq hnew, NodeId.toOption_of_ne (nextId_ne_none hcount)]
    cases hold : t.get? c with
    | none =>
      have hout : ¬c.index.toNat < t.size := by
        intro hin
        obtain ⟨old, hget⟩ := exists_get?_of_index_lt (Nat.le_of_lt hcount) hin
        rw [hold] at hget
        cases hget
      rw [if_neg (fun hc => hout hc.2)]
      rfl
    | some old =>
      by_cases hmem : c ∈ node.children
      · rw [if_pos ⟨hmem, index_lt_of_get? hold⟩]
        simp [hmem]
      · rw [if_neg (fun hc => hmem hc.1)]
        simp [hmem]

/-- After `c`, the lists that hold it are the same as before, but for the list of the new node if
`c` was there before. -/
theorem mem_children_iff (hin : ¬(c ∈ node.children ∧ c.index.toNat < t.size))
    (hlt : c.index < n.index) : c ∈ u.children n ↔ c ∈ t.children n := by
  by_cases hnew : n.index.toNat = t.size
  · rw [UInt32.lt_iff_toNat_lt, hnew] at hlt
    refine iff_of_false (fun hmem => hin ⟨?_, hlt⟩) (fun hmem => ?_)
    · rwa [(eq_nextId_iff hcount).mpr hnew, h.children_nextId hcount] at hmem
    · exact absurd (index_lt_of_mem_children hmem) (by rw [hnew]; exact Nat.lt_irrefl _)
  · rw [(h.sameNode hnew).children_eq]

end Adds

/-! ## Links to parents -/

/-- The node `p` is the last one behind `c` that has `c` among its children. -/
structure LastLists (t : Tree) (p c : NodeId) : Prop where
  after : c.index < p.index
  lists : c ∈ t.children p
  last : ∀ q, c.index < q.index → c ∈ t.children q → q.index ≤ p.index

theorem LastLists.congr (h : ∀ q, c.index < q.index → (c ∈ u.children q ↔ c ∈ t.children q)) :
    u.LastLists p c ↔ t.LastLists p c := by
  constructor
  · rintro ⟨hafter, hlists, hlast⟩
    exact ⟨hafter, (h p hafter).mp hlists, fun q hq hmem => hlast q hq ((h q hq).mpr hmem)⟩
  · rintro ⟨hafter, hlists, hlast⟩
    exact ⟨hafter, (h p hafter).mpr hlists, fun q hq hmem => hlast q hq ((h q hq).mp hmem)⟩

/-- A new node is the last of its tree, so it is the last that lists a child which was there
before. -/
theorem Adds.lastLists_iff (h : t.Adds u node) (hcount : t.size < maxNodes)
    (hin : c ∈ node.children ∧ c.index.toNat < t.size) : u.LastLists p c ↔ p = t.nextId := by
  have hlists : c ∈ u.children t.nextId := by
    rw [h.children_nextId hcount]
    exact hin.1
  have hafter : c.index < t.nextId.index := by
    rw [UInt32.lt_iff_toNat_lt, toNat_nextId hcount]
    exact hin.2
  have hlast : ∀ q, c ∈ u.children q → q.index ≤ t.nextId.index := by
    intro q hmem
    have hlt := index_lt_of_mem_children hmem
    rw [h.size_eq] at hlt
    rw [UInt32.le_iff_toNat_le, toNat_nextId hcount]
    exact Nat.le_of_lt_succ hlt
  constructor
  · intro hp
    have heq : p.index = t.nextId.index :=
      UInt32.le_antisymm (hlast p hp.lists) (hp.last t.nextId hafter hlists)
    exact congrArg NodeId.mk heq
  · rintro rfl
    exact ⟨hafter, hlists, fun q _ hmem => hlast q hmem⟩

/-- The node that is reached from `n` by a number of links to parents. -/
def ancestor? (t : Tree) : Nat → NodeId → Option NodeId
  | 0, n => some n
  | steps + 1, n => (t.parent? n).bind (t.ancestor? steps)

/-- The parent of a node is the last one behind it that lists it. -/
def LinkedToLast (t : Tree) : Prop := ∀ c p, t.parent? c = some p ↔ t.LastLists p c

namespace LinkedToLast

theorem parent_after (h : t.LinkedToLast) (hparent : t.parent? c = some p) : c.index < p.index :=
  ((h c p).mp hparent).after

/-- A chain of parents goes to later and later nodes, so it ends after as many links as there are
nodes behind the first. -/
theorem ancestor?_eq_none (h : t.LinkedToLast) {steps : Nat}
    (hsteps : t.size ≤ n.index.toNat + steps) : t.ancestor? (steps + 1) n = none := by
  induction steps generalizing n with
  | zero =>
    have hout : t.get? n = none := get?_eq_none hsteps
    rw [ancestor?, parent?, hout]
    rfl
  | succ steps ih =>
    rw [ancestor?]
    cases hparent : t.parent? n with
    | none => rfl
    | some p =>
      have hafter := UInt32.lt_iff_toNat_lt.mp (h.parent_after hparent)
      exact ih (by omega)

theorem empty (source : String) : (Tree.empty source).LinkedToLast := by
  intro c p
  refine iff_of_false (fun hparent => ?_) (fun hp => ?_)
  · exact absurd (index_lt_of_parent? hparent) (Nat.not_lt_zero _)
  · exact absurd (index_lt_of_mem_children hp.lists) (Nat.not_lt_zero _)

/-- **One step.** An addition keeps the links, while there are numbers. -/
theorem adds (h : t.LinkedToLast) (hadds : t.Adds u node) (hcount : t.size < maxNodes) :
    u.LinkedToLast := by
  intro c p
  rw [hadds.parent?_eq hcount]
  by_cases hin : c ∈ node.children ∧ c.index.toNat < t.size
  · rw [if_pos hin, hadds.lastLists_iff hcount hin, Option.some.injEq]
    exact eq_comm
  · rw [if_neg hin, h c p]
    exact (LastLists.congr fun q hq => hadds.mem_children_iff hcount hin hq).symm

end LinkedToLast

/-! ## Bounds -/

/-- The bounds of every node and the start of its first token are in order and in the file. -/
def BoundsInOrder (t : Tree) : Prop :=
  ∀ n, t.pos n ≤ t.start n ∧ t.start n ≤ t.stop n ∧ (t.stop n).toNat ≤ t.length

theorem bounds_of_le (hle : t.pos n ≤ t.stop n) (hstop : (t.stop n).toNat ≤ t.length) :
    t.pos n ≤ t.start n ∧ t.start n ≤ t.stop n ∧ (t.stop n).toNat ≤ t.length :=
  ⟨Offsets.le_afterTrivia _ _ _, Offsets.afterTrivia_le _ hle, hstop⟩

/-- A number that leads to no node stands for an empty one at the start of the file. -/
theorem bounds_of_get?_eq_none (h : t.get? n = none) :
    t.pos n ≤ t.start n ∧ t.start n ≤ t.stop n ∧ (t.stop n).toNat ≤ t.length := by
  apply bounds_of_le
  · rw [pos, stop, h]
    exact UInt32.le_refl _
  · rw [stop, h]
    exact Nat.zero_le _

theorem BoundsInOrder.empty (source : String) : (Tree.empty source).BoundsInOrder :=
  fun _ => bounds_of_get?_eq_none (get?_eq_none (Nat.zero_le _))

/-- **One step.** An addition keeps the bounds in order. -/
theorem BoundsInOrder.adds (h : t.BoundsInOrder) (hadds : t.Adds u node) : u.BoundsInOrder := by
  intro n
  have hlength : u.length = t.length := by rw [length, length, hadds.source_eq]
  by_cases hnew : n.index.toNat = t.size
  · by_cases hnone : n = .none
    · exact bounds_of_get?_eq_none (hnone ▸ get?_none u)
    · apply bounds_of_le
      · rw [pos, stop, hadds.get?_new hnew hnone]
        exact hadds.pos_le
      · rw [stop, hadds.get?_new hnew hnone, hlength]
        exact hadds.stop_le
  · have hsame := hadds.sameNode hnew
    rw [hsame.pos_eq, hsame.start_eq, hsame.stop_eq, hlength]
    exact h n

/-! ## Whole builds -/

/-- **Any run of additions** keeps what a single one keeps. -/
theorem foldl_run {P : Tree → Prop} (hstep : ∀ {t u node}, Adds t u node → P t → P u) (ht : P t)
    (additions : List Addition) : P (additions.foldl Addition.run t) := by
  induction additions generalizing t with
  | nil => exact ht
  | cons addition additions ih =>
    obtain ⟨node, -, hadds⟩ := exists_adds t addition
    exact ih (hstep hadds ht)

theorem sameNode_foldl (hn : n.index.toNat < t.size) (later : List Addition) :
    t.SameNode (later.foldl Addition.run t) n := by
  have hrun : t.size ≤ (later.foldl Addition.run t).size ∧
      t.SameNode (later.foldl Addition.run t) n := by
    refine foldl_run (P := fun u => t.size ≤ u.size ∧ t.SameNode u n) ?_ ?_ later
    · rintro u v node hadds ⟨hsize, hsame⟩
      have hnew : n.index.toNat ≠ u.size := Nat.ne_of_lt (Nat.lt_of_lt_of_le hn hsize)
      refine ⟨?_, hsame.trans (hadds.sameNode hnew)⟩
      rw [hadds.size_eq]
      omega
    · exact ⟨Nat.le_refl _, rfl, rfl, rfl, rfl, rfl⟩
  exact hrun.2

theorem size_foldl (t : Tree) (additions : List Addition) :
    (additions.foldl Addition.run t).size = t.size + additions.length := by
  induction additions generalizing t with
  | nil => rfl
  | cons addition additions ih =>
    obtain ⟨node, -, hadds⟩ := exists_adds t addition
    rw [List.foldl_cons, ih, hadds.size_eq, List.length_cons]
    omega

theorem size_build (source : String) (additions : List Addition) :
    (build source additions).size = additions.length :=
  (size_foldl _ additions).trans (Nat.zero_add _)

theorem linkedToLast_build {source : String} {additions : List Addition}
    (hcount : additions.length ≤ maxNodes) : (build source additions).LinkedToLast := by
  have hlinked : (build source additions).size ≤ maxNodes →
      (build source additions).LinkedToLast := by
    refine foldl_run (P := fun t => t.size ≤ maxNodes → t.LinkedToLast) ?_ ?_ additions
    · intro t u node hadds ih hsize
      rw [hadds.size_eq] at hsize
      exact (ih (Nat.le_of_succ_le hsize)).adds hadds hsize
    · exact fun _ => .empty source
  exact hlinked (by rwa [size_build])

/-- **Whatever is added.** In the tree over any text that comes from any additions, the bounds of
every node and the start of its first token are in order and in the file, and further additions
change nothing about a node but its parent. If there are numbers for all the nodes, then the parent
of a node is the last one behind it that lists it, so links to parents go to later nodes and every
chain of them ends. -/
theorem wellBuilt_build (source : String) (additions : List Addition) :
    (build source additions).source = source ∧ (build source additions).BoundsInOrder ∧
      (additions.length ≤ maxNodes →
        (build source additions).LinkedToLast ∧
        (∀ c p, (build source additions).parent? c = some p → c.index < p.index) ∧
        ∀ n, ∃ steps, (build source additions).ancestor? steps n = none) ∧
      ∀ later n, n.index.toNat < additions.length →
        (build source additions).SameNode (build source (additions ++ later)) n := by
  refine ⟨?_, ?_, fun hcount => ?_, fun later n hn => ?_⟩
  · exact foldl_run (P := fun t => t.source = source)
      (fun hadds h => hadds.source_eq.trans h) rfl additions
  · exact foldl_run (fun hadds h => h.adds hadds) (.empty source) additions
  · have hlinked : (build source additions).LinkedToLast := linkedToLast_build hcount
    exact ⟨hlinked, fun c p => hlinked.parent_after,
      fun n => ⟨_, hlinked.ancestor?_eq_none (Nat.le_add_left _ n.index.toNat)⟩⟩
  · have hlater : build source (additions ++ later) =
        later.foldl Addition.run (build source additions) := List.foldl_append
    rw [hlater]
    exact sameNode_foldl (by rwa [size_build]) later

/-- Additions for `f(a)` that fit neither the file nor one another: the argument reaches past the
end of the file, the call lists it twice and lists itself and the file, which is not there yet, and
the statement has its bounds the wrong way round and lists the argument as well. -/
def tangledAdditions : List Addition :=
  [.token .identifier 0 1, .token .identifier 2 9,
    .node .callExpression 0 4 [⟨0⟩, ⟨1⟩, ⟨1⟩, ⟨2⟩, ⟨4⟩],
    .node .expressionStatement 3 2 [⟨2⟩, ⟨1⟩], .file [⟨3⟩]]

/-- The argument ends with the file and belongs to the statement, which listed it last; before that
it belonged to the call. The file, listed by the call, has no parent. -/
theorem wellBuilt_build_tangled :
    (build "f(a)" tangledAdditions).LastLists ⟨3⟩ ⟨1⟩ ∧
      (build "f(a)" (tangledAdditions.take 3)).LastLists ⟨2⟩ ⟨1⟩ ∧
      (build "f(a)" tangledAdditions).parent? ⟨4⟩ = none ∧
      (build "f(a)" tangledAdditions).stop ⟨1⟩ = 4 ∧
      (build "f(a)" (tangledAdditions.take 3)).SameNode
        (build "f(a)" (tangledAdditions.take 3 ++ tangledAdditions.drop 3)) ⟨1⟩ := by
  obtain ⟨-, -, hwhole, -⟩ := wellBuilt_build "f(a)" tangledAdditions
  obtain ⟨-, -, hearlier, hsame⟩ := wellBuilt_build "f(a)" (tangledAdditions.take 3)
  exact ⟨((hwhole (by decide)).1 ⟨1⟩ ⟨3⟩).mp (by decide +kernel),
    ((hearlier (by decide)).1 ⟨1⟩ ⟨2⟩).mp (by decide +kernel), by decide +kernel, by decide +kernel,
    hsame _ _ (by decide)⟩

end Tree

end Assist.Syntax
