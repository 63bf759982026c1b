import Assist.Proofs.Offsets.Text
import Assist.Proofs.Syntax.Building
import Assist.Syntax.Locate
import Assist.Syntax.Walk

/-!
# Syntax trees by offset

A tree is `Aligned` when its file is short enough for every offset in it to be an offset, and every
node starts and ends at a boundary of the text. A tree that is built bottom-up over such bounds is
aligned (`BuiltOver.aligned`).

Where a node starts is the sum of two offsets, one of which is a difference; this never overflows,
on any tree (`start_eq`). So searching by an offset meets no fault (`locate?_eq`). The text of a
node is cut out of the file, which succeeds on aligned trees (`Aligned.exists_textOf`); and so does
moving the start of a node that was found behind the blanks before it (`aboveStatement_eq`).
-/

namespace Assist.Syntax.Tree

open Assist.Text

/-! ## Aligned trees -/

/-- A tree over `source` that was built bottom-up: the children of a node are there before it, and
its bounds are boundaries of the text. -/
inductive BuiltOver (source : String) : Tree → Prop where
  | empty : BuiltOver source (Tree.empty source)
  | add {t : Tree} {kind : Kind} {pos stop : Offset} {children : List NodeId}
      (built : BuiltOver source t)
      (hchildren : ∀ child ∈ children, child.index.toNat < t.size)
      (hpos : isBoundary pos.toNat source.toList = true)
      (hstop : isBoundary stop.toNat source.toList = true) :
      BuiltOver source (t.add kind pos stop children)
  | addFile {t : Tree} {statements : List NodeId} (built : BuiltOver source t)
      (hstatements : ∀ statement ∈ statements, statement.index.toNat < t.size) :
      BuiltOver source (t.addFile statements)

/-- Every offset of the file is an offset, and every node starts and ends at a boundary. -/
structure Aligned (t : Tree) : Prop where
  short : t.length ≤ maxOffset
  bounds : ∀ node ∈ t.nodes, isBoundary node.pos.toNat t.source.toList = true ∧
    isBoundary node.stop.toNat t.source.toList = true

theorem BuiltOver.source_eq {source : String} {t : Tree} (h : BuiltOver source t) :
    t.source = source := by
  induction h with
  | empty => rfl
  | add _ _ _ _ ih => exact ih
  | addFile _ _ ih => exact ih

/-- A new parent leaves the bounds of every node as they are. -/
theorem exists_of_mem_foldl_adopt {parent : NodeId} (children : List NodeId) {nodes : Array Node}
    {node : Node} (h : node ∈ children.foldl (adopt parent) nodes) :
    ∃ old ∈ nodes, node.pos = old.pos ∧ node.stop = old.stop := by
  obtain ⟨place, hplace⟩ := Array.getElem?_of_mem h
  rw [getElem?_foldl_adopt] at hplace
  obtain ⟨old, hold, rfl⟩ := Option.map_eq_some_iff.mp hplace
  refine ⟨old, Array.mem_of_getElem? hold, ?_⟩
  split <;> exact ⟨rfl, rfl⟩

/-- The smaller of two offsets that are boundaries is one. -/
theorem isBoundary_min {a b : Offset} {cs : List Char} (ha : isBoundary a.toNat cs = true)
    (hb : isBoundary b.toNat cs = true) : isBoundary (min a b).toNat cs = true := by
  show isBoundary (if a ≤ b then a else b).toNat cs = true
  split
  · exact ha
  · exact hb

/-- The end of the file is a boundary. -/
theorem Aligned.isBoundary_length {t : Tree} (h : t.Aligned) :
    isBoundary (UInt32.ofNat t.length).toNat t.source.toList = true := by
  rw [UInt32.toNat_ofNat_of_lt' (Nat.lt_succ_of_le h.short)]
  exact isBoundary_iff.mpr ⟨t.source.toList, [], by simp, rfl⟩

/-- Adding a node over boundaries keeps a tree aligned. -/
theorem Aligned.add {t : Tree} (h : t.Aligned) (kind : Kind) (pos stop : Offset)
    (children : List NodeId) (hpos : isBoundary pos.toNat t.source.toList = true)
    (hstop : isBoundary stop.toNat t.source.toList = true) :
    (t.add kind pos stop children).Aligned := by
  refine ⟨h.short, fun node hnode => ?_⟩
  have hend := isBoundary_min hstop h.isBoundary_length
  rcases Array.mem_push.mp hnode with hold | rfl
  · obtain ⟨old, hmem, hp, hs⟩ := exists_of_mem_foldl_adopt children hold
    rw [hp, hs]
    exact h.bounds old hmem
  · exact ⟨isBoundary_min hpos hend, hend⟩

/-- A tree built bottom-up over boundaries is aligned. -/
theorem BuiltOver.aligned {source : String} {t : Tree} (h : BuiltOver source t)
    (hshort : byteLen source.toList ≤ maxOffset) : t.Aligned := by
  induction h with
  | empty => exact ⟨hshort, fun node hnode => absurd hnode (Array.not_mem_empty node)⟩
  | add built _ hpos hstop ih =>
    rw [← built.source_eq] at hpos hstop
    exact ih.add _ _ _ _ hpos hstop
  | @addFile t statements built _ ih =>
    have hadd := ih.add .sourceFile 0 _ statements (by simp [isBoundary]) ih.isBoundary_length
    exact ⟨hadd.short, hadd.bounds⟩

section Bounds

variable {t : Tree} (h : t.Aligned) (n : NodeId)
include h

theorem Aligned.isBoundary_pos : isBoundary (t.pos n).toNat t.source.toList = true := by
  rw [pos]
  cases hnode : t.get? n with
  | none => simp [isBoundary]
  | some node => exact (h.bounds node (Array.mem_of_getElem? (getElem?_of_get? hnode))).1

theorem Aligned.isBoundary_stop : isBoundary (t.stop n).toNat t.source.toList = true := by
  rw [stop]
  cases hnode : t.get? n with
  | none => simp [isBoundary]
  | some node => exact (h.bounds node (Array.mem_of_getElem? (getElem?_of_get? hnode))).2

theorem Aligned.isBoundary_start : isBoundary (t.start n).toNat t.source.toList = true :=
  Offsets.isBoundary_afterTrivia (h.isBoundary_pos n) (h.isBoundary_stop n)

end Bounds

theorem le_length_of_isBoundary {n : Nat} {cs : List Char} (h : isBoundary n cs = true) :
    n ≤ byteLen cs := by
  obtain ⟨before, after, rfl, rfl⟩ := isBoundary_iff.mp h
  rw [byteLen_append]
  exact Nat.le_add_right _ _

/-- The text between two boundaries can be cut out; it is empty if they are not in order. -/
theorem exists_textBetween {t : Tree} {start stop : Offset}
    (hstart : isBoundary start.toNat t.source.toList = true)
    (hstop : isBoundary stop.toNat t.source.toList = true) :
    ∃ before text after, t.source.toList = before ++ text ++ after ∧
      byteLen before = start.toNat ∧ byteLen text = stop.toNat - start.toNat ∧
      t.textBetween start stop = .ok (String.ofList text) := by
  have hmin : ∀ {n : Nat}, isBoundary n t.source.toList = true → min n t.length = n := fun h =>
    Nat.min_eq_left (le_length_of_isBoundary h)
  have hmax : isBoundary (max start.toNat stop.toNat) t.source.toList = true := by
    rw [Nat.max_def]
    split
    · exact hstop
    · exact hstart
  obtain ⟨before, middle, after, htext, hbefore, hmiddle⟩ :=
    Offsets.exists_middle hstart hmax (Nat.le_max_left _ _)
  refine ⟨before, middle, after, htext, hbefore, by omega, ?_⟩
  rw [textBetween, hmin hstart, hmin hstop, ← hmiddle, ← hbefore, htext,
    Offsets.slice?_append before middle after]

theorem Aligned.exists_textOf {t : Tree} (h : t.Aligned) (n : NodeId) :
    ∃ text, t.textOf n = .ok text := by
  obtain ⟨-, text, -, -, -, -, htext⟩ :=
    exists_textBetween (h.isBoundary_start n) (h.isBoundary_stop n)
  exact ⟨_, htext⟩

theorem Aligned.exists_usedNames {t : Tree} (h : t.Aligned) : ∃ names, t.usedNames = .ok names := by
  choose text htext using h.exists_textOf
  exact ⟨_, Offsets.mapM_ok fun n _ => htext n⟩

end Assist.Syntax.Tree

namespace Assist.Offsets

open Assist.Text Assist.Syntax

/-! ## Where nodes start -/

/-- Where the first token of a node starts: its position and the width of the trivia there. -/
def start (t : Tree) (n : NodeId) : Except Fault Offset := do
  let width ← sub (← skipTrivia t.source (t.pos n) (t.stop n)) (t.pos n)
  add (t.pos n) width

theorem pos_le_start (t : Tree) (n : NodeId) : t.pos n ≤ t.start n :=
  le_afterTrivia t.source (t.pos n) (t.stop n)

theorem start_eq (t : Tree) (n : NodeId) : start t n = .ok (t.start n) := by
  have hle := pos_le_start t n
  have hsum : (t.pos n).toNat + (t.start n - t.pos n).toNat ≤ maxOffset := by
    have hlt := (t.start n).toNat_lt
    have hnat := UInt32.le_iff_toNat_le.mp hle
    rw [UInt32.toNat_sub_of_le _ _ hle, maxOffset]
    omega
  rw [start, skipTrivia_eq, ok_bind]
  show sub (t.start n) (t.pos n) >>= add (t.pos n) = _
  rw [sub_of_le hle, ok_bind, add_of_le hsum, UInt32.add_comm, UInt32.sub_add_cancel]

/-! ## The texts of nodes -/

/-- The text of the file between two offsets, which are first moved into the file. -/
def textIn (t : Tree) (start stop : Offset) : Except Fault String := do
  let start := min start.toNat t.length
  let stop ← clamp start t.length stop.toNat
  return String.ofList (← textBetween start stop t.source.toList)

theorem textIn_eq (t : Tree) (start stop : Offset) :
    textIn t start stop = t.textBetween start stop := by
  rw [textIn, Tree.textBetween, clamp_of_le (Nat.min_le_right _ _), ok_bind, textBetween]
  cases slice? _ _ t.source.toList <;> rfl

/-- The text of a node from its first token. -/
def textOf (t : Tree) (n : NodeId) : Except Fault String := do textIn t (← start t n) (t.stop n)

theorem textOf_eq (t : Tree) (n : NodeId) : textOf t n = t.textOf n := by
  rw [textOf, start_eq, ok_bind, textIn_eq]
  rfl

-- without boundaries there is a fault
example : textOf ((Tree.empty "ï").addLeaf .identifier 1 2) ⟨0⟩ = .error .splitCharacter := by
  rw [textOf_eq]
  decide +kernel

/-- The texts of the identifiers of a tree. -/
def usedNames (t : Tree) : Except Fault (List String) :=
  (t.walk.filter fun n => (t.kind n).isIdentifier).mapM (textOf t)

theorem usedNames_eq (t : Tree) : usedNames t = t.usedNames := by
  rw [usedNames, Tree.usedNames, funext (textOf_eq t)]

/-! ## Searching by an offset -/

/-- Whether `offset` lies in the node `n`, trivia apart. -/
def covers (t : Tree) (boundary : Boundary) (offset : Offset) (n : NodeId) : Except Fault Bool := do
  if offset < (← start t n) then return false
  else return match boundary with
    | .exclusive => offset < t.stop n
    | .inclusive => offset ≤ t.stop n

theorem covers_eq (t : Tree) (boundary : Boundary) (offset : Offset) (n : NodeId) :
    covers t boundary offset n = .ok (t.covers boundary offset n) := by
  unfold covers Tree.covers
  rw [start_eq, ok_bind]
  by_cases h : offset < t.start n
  · have hle : ¬t.start n ≤ offset := UInt32.not_le.mpr h
    simp [h, hle]
  · have hle : t.start n ≤ offset := UInt32.not_lt.mp h
    cases boundary <;> simp [h, hle]

/-- The first child of `n` that covers `offset`. -/
def childAt? (t : Tree) (boundary : Boundary) (offset : Offset) (n : NodeId) :
    Except Fault (Option NodeId) :=
  (t.children n).findM? (covers t boundary offset)

theorem childAt?_eq (t : Tree) (boundary : Boundary) (offset : Offset) (n : NodeId) :
    childAt? t boundary offset n = .ok (t.childAt? boundary offset n) := by
  rw [childAt?, funext (covers_eq t boundary offset)]
  exact List.findM?_pure (t.covers boundary offset) (t.children n)

/-- Follow the children that cover `offset` from the node `n` at level `depth` while the level is
below `limit`. -/
def followFrom (t : Tree) (boundary : Boundary) (offset : Offset) (limit depth : UInt32)
    (n : NodeId) : Except Fault NodeId :=
  if _ : depth < limit then do
    match ← childAt? t boundary offset n with
    | some child => nextLevel depth fun next _ => followFrom t boundary offset limit next child
    | none => return n
  else return n
termination_by limit.toNat - depth.toNat
decreasing_by
  have := levels_of_add_one ‹depth < limit› ‹_›
  omega

/-- The node that covers `offset` at the deepest level up to `depth`, if the root covers it. -/
def locate? (t : Tree) (boundary : Boundary) (depth : UInt32) (offset : Offset) :
    Except Fault (Option NodeId) :=
  match t.root with
  | none => return none
  | some root => do
    if ← covers t boundary offset root then
      return some (← followFrom t boundary offset (min depth (UInt32.ofNat maxSearchDepth)) 1 root)
    else return none

/-- Counting the levels up to a limit never overflows. -/
theorem followFrom_eq (t : Tree) (boundary : Boundary) (offset : Offset) (limit depth : UInt32)
    (n : NodeId) : followFrom t boundary offset limit depth n =
      .ok (t.follow boundary offset (limit.toNat - depth.toNat) n) := by
  induction hsteps : limit.toNat - depth.toNat generalizing depth n with
  | zero =>
    have hlt : ¬depth < limit := fun h => by
      have := UInt32.lt_iff_toNat_lt.mp h
      omega
    rw [followFrom, dif_neg hlt]
    rfl
  | succ steps ih =>
    have hlt : depth < limit := UInt32.lt_iff_toNat_lt.mpr (by omega)
    rw [followFrom, dif_pos hlt, childAt?_eq, ok_bind, Tree.follow]
    cases t.childAt? boundary offset n with
    | none => rfl
    | some child =>
      have hlevels := levels_of_add_one hlt (add_one_of_lt hlt)
      exact (nextLevel_of_lt hlt _).trans (ih (depth + 1) child (by omega))

theorem locate?_of_root {t : Tree} {root : NodeId} (hroot : t.root = some root)
    (boundary : Boundary) (depth : Nat) (offset : Offset) :
    t.locate? boundary depth offset = if t.covers boundary offset root then
      some (t.follow boundary offset (min depth maxSearchDepth - 1) root) else none := by
  rw [Tree.locate?, hroot]
  cases hcovers : t.covers boundary offset root with
  | true => simp [guard, hcovers]
  | false =>
    simp only [guard, hcovers, Option.bind_eq_bind, Option.bind_some, Bool.false_eq_true, if_false]
    rfl

/-- A search by an offset finds a node exactly if the root covers the offset. -/
theorem locate?_isSome (t : Tree) (boundary : Boundary) (depth : Nat) (offset : Offset) :
    (t.locate? boundary depth offset).isSome = t.root.any (t.covers boundary offset) := by
  cases hroot : t.root with
  | none =>
    rw [Tree.locate?, hroot]
    rfl
  | some root =>
    rw [locate?_of_root hroot, Option.any_some]
    cases t.covers boundary offset root <;> rfl

theorem locate?_eq (t : Tree) (boundary : Boundary) (depth : UInt32) (offset : Offset) :
    locate? t boundary depth offset = .ok (t.locate? boundary depth.toNat offset) := by
  have hlimit : (min depth (UInt32.ofNat maxSearchDepth)).toNat = min depth.toNat maxSearchDepth :=
    toNat_min _ _
  cases hroot : t.root with
  | none =>
    rw [locate?, Tree.locate?, hroot]
    rfl
  | some root =>
    rw [locate?, locate?_of_root hroot, hroot]
    simp only [covers_eq, ok_bind, followFrom_eq, hlimit, UInt32.toNat_one]
    cases t.covers boundary offset root <;> rfl

/-- The deepest node that covers `offset`. -/
def innermost? (t : Tree) (offset : Offset) : Except Fault (Option NodeId) :=
  locate? t .exclusive (UInt32.ofNat maxOffset) offset

theorem innermost?_eq (t : Tree) (offset : Offset) :
    innermost? t offset = .ok (t.innermost? offset) :=
  locate?_eq t .exclusive _ offset

/-- The deepest node that covers `offset` or ends at it. -/
def innermostTouching? (t : Tree) (offset : Offset) : Except Fault (Option NodeId) :=
  locate? t .inclusive (UInt32.ofNat maxOffset) offset

theorem innermostTouching?_eq (t : Tree) (offset : Offset) :
    innermostTouching? t offset = .ok (t.innermostTouching? offset) :=
  locate?_eq t .inclusive _ offset

/-- The node that covers `offset` at level `depth`, or the deepest one above. -/
def enclosing? (t : Tree) (depth : UInt32) (offset : Offset) : Except Fault (Option NodeId) :=
  locate? t .exclusive depth offset

theorem enclosing?_eq (t : Tree) (depth : UInt32) (offset : Offset) :
    enclosing? t depth offset = .ok (t.enclosing? depth.toNat offset) :=
  locate?_eq t .exclusive depth offset

theorem covers_follow {t : Tree} {boundary : Boundary} {offset : Offset} (steps : Nat) {n : NodeId}
    (h : t.covers boundary offset n = true) :
    t.covers boundary offset (t.follow boundary offset steps n) = true := by
  induction steps generalizing n with
  | zero => exact h
  | succ steps ih =>
    rw [Tree.follow]
    cases hchild : t.childAt? boundary offset n with
    | none => exact h
    | some child => exact ih (List.find?_some hchild)

/-- A node that was found by an offset covers it. -/
theorem covers_of_locate? {t : Tree} {boundary : Boundary} {depth : Nat} {offset : Offset}
    {n : NodeId} (h : t.locate? boundary depth offset = some n) :
    t.covers boundary offset n = true := by
  cases hroot : t.root with
  | none =>
    rw [Tree.locate?, hroot] at h
    cases h
  | some root =>
    rw [locate?_of_root hroot] at h
    split at h
    · rename_i hcovers
      cases h
      exact covers_follow _ hcovers
    · cases h

/-! ## Above a statement -/

/-- Where a function goes above the node `statement`: before the last byte of the whitespace that
the node starts with. -/
def aboveStatement (t : Tree) (statement : NodeId) : Except Fault Offset := do
  let text ← textIn t (t.pos statement) (t.stop statement)
  let blanks ← leadingBlank text.toList
  let width := max (UInt32.ofNat (byteLen blanks)) 1
  sub (← add (t.pos statement) width) 1

/-- Above a statement that was found by an offset there is a place for a function. -/
theorem aboveStatement_eq {t : Tree} (h : t.Aligned) {depth : Nat} {offset : Offset}
    {statement : NodeId} (hfound : t.enclosing? depth offset = some statement) :
    ∃ place, aboveStatement t statement = .ok place ∧
      Extraction.aboveStatement t statement = .ok place := by
  obtain ⟨-, text, -, -, -, hlen, htext⟩ :=
    Tree.exists_textBetween (h.isBoundary_pos statement) (h.isBoundary_stop statement)
  -- the statement is not empty, as it covers the offset, so one more byte is still in the file
  have hlt : (t.pos statement).toNat < (t.stop statement).toNat := by
    have hcovers := covers_of_locate? hfound
    simp only [Tree.covers, Bool.and_eq_true, decide_eq_true_eq, UInt32.le_iff_toNat_le,
      UInt32.lt_iff_toNat_lt] at hcovers
    have := UInt32.le_iff_toNat_le.mp (pos_le_start t statement)
    omega
  have hstop := (t.stop statement).toNat_lt
  have hblanks : byteLen (Text.leadingBlank text) ≤ byteLen text := by
    conv_rhs => rw [← leadingBlank_append_trimStart text, byteLen_append]
    exact Nat.le_add_right _ _
  have hwidth : (max (UInt32.ofNat (byteLen (Text.leadingBlank text))) 1).toNat =
      max (byteLen (Text.leadingBlank text)) 1 := by
    rw [toNat_max, UInt32.toNat_ofNat_of_lt' (show _ < 2 ^ 32 by omega)]
    rfl
  have hsum : (t.pos statement).toNat + max (byteLen (Text.leadingBlank text)) 1 ≤ maxOffset := by
    rw [maxOffset]
    omega
  refine ⟨UInt32.ofNat ((t.pos statement).toNat + max (byteLen (Text.leadingBlank text)) 1 - 1),
    ?_, ?_⟩
  · rw [aboveStatement, textIn_eq, htext, ok_bind, String.toList_ofList, leadingBlank_eq, ok_bind]
    have hadd := add_of_le (hwidth.symm ▸ hsum)
    have hnat := toNat_of_add hadd
    have hone : 1 ≤ t.pos statement + max (UInt32.ofNat (byteLen (Text.leadingBlank text))) 1 := by
      rw [UInt32.le_iff_toNat_le, hnat, hwidth, UInt32.toNat_one]
      omega
    simp only [hadd, ok_bind, sub_of_le hone]
    congr 1
    apply UInt32.toNat_inj.mp
    rw [UInt32.toNat_sub_of_le _ _ hone, hnat, hwidth,
      UInt32.toNat_ofNat_of_lt' (show _ < 2 ^ 32 by rw [maxOffset] at hsum; omega),
      UInt32.toNat_one]
  · rw [Extraction.aboveStatement, Tree.textWithTrivia, htext, ok_bind, String.toList_ofList]
    simp only [if_pos hsum]
    rfl

end Assist.Offsets
