import Assist.Extraction.Catalog
import Assist.Proofs.Syntax.Nesting

/-!
# Selecting a whole JSX element

A range selects an element if the node found at its start is the opening tag of the element, or the
element itself if it closes itself, and the node found at its end is the closing tag or the same
element. In a tree whose elements nest (`ElementsNest`) and whose tags are not empty
(`FilledTags`), the ranges that select an element are exactly the bounds of the elements
(`selectsElement_iff`). Without the second condition this fails: no offset lies in an opening tag
that is empty, so no search finds it (`not_selectsElement_emptyTag`).
-/

namespace Assist.Syntax.Tree

/-! ## Elements and their tags -/

/-- The first child of an element is its only opening tag and starts where it does; the last child
is its only closing tag and ends where it does. -/
structure Tags (t : Tree) (element opening closing : NodeId) : Prop where
  head : (t.children element).head? = some opening
  last : (t.children element).getLast? = some closing
  opening_iff : ∀ c ∈ t.children element, t.kind c = .jsxOpeningElement ↔ c = opening
  closing_iff : ∀ c ∈ t.children element, t.kind c = .jsxClosingElement ↔ c = closing
  start_eq : t.start opening = t.start element
  stop_eq : t.stop closing = t.stop element

theorem tags_iff {t : Tree} {element opening closing : NodeId} :
    t.Tags element opening closing ↔ (t.children element).head? = some opening ∧
      (t.children element).getLast? = some closing ∧
      (∀ c ∈ t.children element, t.kind c = .jsxOpeningElement ↔ c = opening) ∧
      (∀ c ∈ t.children element, t.kind c = .jsxClosingElement ↔ c = closing) ∧
      t.start opening = t.start element ∧ t.stop closing = t.stop element :=
  ⟨fun h => ⟨h.head, h.last, h.opening_iff, h.closing_iff, h.start_eq, h.stop_eq⟩,
    fun ⟨hhead, hlast, hopening, hclosing, hstart, hstop⟩ =>
      ⟨hhead, hlast, hopening, hclosing, hstart, hstop⟩⟩

instance (t : Tree) (element opening closing : NodeId) :
    Decidable (t.Tags element opening closing) := decidable_of_iff _ tags_iff.symm

/-- A nested tree whose elements have their own tags. What is in an opening tag starts after the
tag does, what is in a closing tag ends before the tag does, and what is in an element that closes
itself does both. -/
structure ElementsNest (t : Tree) : Prop extends t.Nested where
  tags : ∀ {n}, t.HasNode n → t.kind n = .jsxElement → ∃ opening closing, t.Tags n opening closing
  start_lt : ∀ {n}, t.HasNode n →
    t.kind n = .jsxOpeningElement ∨ t.kind n = .jsxSelfClosingElement →
    ∀ c ∈ t.children n, t.start n < t.start c
  stop_lt : ∀ {n}, t.HasNode n →
    t.kind n = .jsxClosingElement ∨ t.kind n = .jsxSelfClosingElement →
    ∀ c ∈ t.children n, t.stop c < t.stop n

/-- No element has a tag that is empty. -/
def FilledTags (t : Tree) : Prop :=
  ∀ {n}, t.HasNode n → t.kind n = .jsxElement → ∀ c ∈ t.children n,
    t.kind c = .jsxOpeningElement ∨ t.kind c = .jsxClosingElement → t.start c < t.stop c

variable {t : Tree} {n element opening closing : NodeId}

/-- Elements nest if they do on a list that holds the root and, with a node, its children. -/
theorem ElementsNest.of_closed {nodes : List (Nat × NodeId)}
    (hroot : ∀ root ∈ t.root, (1, root) ∈ nodes ∧ t.parent? root = none)
    (hchildren : ∀ entry ∈ nodes, ∀ c ∈ t.children entry.2, (entry.1 + 1, c) ∈ nodes)
    (hnests : ∀ entry ∈ nodes, entry.1 ≤ maxSearchDepth ∧ t.Nests entry.2)
    (htags : ∀ entry ∈ nodes, t.kind entry.2 = .jsxElement →
      ∃ opening closing, t.Tags entry.2 opening closing)
    (hstart : ∀ entry ∈ nodes,
      t.kind entry.2 = .jsxOpeningElement ∨ t.kind entry.2 = .jsxSelfClosingElement →
      ∀ c ∈ t.children entry.2, t.start entry.2 < t.start c)
    (hstop : ∀ entry ∈ nodes,
      t.kind entry.2 = .jsxClosingElement ∨ t.kind entry.2 = .jsxSelfClosingElement →
      ∀ c ∈ t.children entry.2, t.stop c < t.stop entry.2) : t.ElementsNest := by
  have hmem : ∀ {level n}, t.AtLevel level n → (level, n) ∈ nodes :=
    AtLevel.mem_of_closed (fun root h => (hroot root h).1) hchildren
  refine ⟨⟨fun root h => (hroot root h).2, ?_, ?_⟩, ?_, ?_, ?_⟩
  · intro level n h
    exact (hnests _ (hmem h)).1
  · rintro n ⟨level, h⟩
    exact (hnests _ (hmem h)).2
  · rintro n ⟨level, h⟩
    exact htags _ (hmem h)
  · rintro n ⟨level, h⟩
    exact hstart _ (hmem h)
  · rintro n ⟨level, h⟩
    exact hstop _ (hmem h)

namespace Tags

variable (h : t.Tags element opening closing)
include h

theorem opening_mem : opening ∈ t.children element := List.mem_of_head? h.head

theorem closing_mem : closing ∈ t.children element := List.mem_of_getLast? h.last

theorem kind_opening : t.kind opening = .jsxOpeningElement :=
  (h.opening_iff opening h.opening_mem).mpr rfl

theorem kind_closing : t.kind closing = .jsxClosingElement :=
  (h.closing_iff closing h.closing_mem).mpr rfl

end Tags

/-- An opening tag, or an element that closes itself, is what is found where it starts. -/
theorem ElementsNest.innermost?_eq (h : t.ElementsNest) (hn : t.HasNode n)
    (hkind : t.kind n = .jsxOpeningElement ∨ t.kind n = .jsxSelfClosingElement)
    (hfilled : t.start n < t.stop n) : t.innermost? (t.start n) = some n := by
  refine h.locate?_eq hn ⟨UInt32.le_refl _, hfilled⟩ fun c hmem => ?_
  rw [Bool.eq_false_iff, Ne, covers_exclusive_iff]
  rintro ⟨hstart, -⟩
  exact UInt32.not_le.mpr (h.start_lt hn hkind c hmem) hstart

/-- A closing tag, or an element that closes itself, is what is found where it ends. -/
theorem ElementsNest.innermostTouching?_eq (h : t.ElementsNest) (hn : t.HasNode n)
    (hkind : t.kind n = .jsxClosingElement ∨ t.kind n = .jsxSelfClosingElement)
    (hfilled : t.start n < t.stop n) : t.innermostTouching? (t.stop n) = some n := by
  refine h.locate?_eq hn ⟨hfilled, UInt32.le_refl _⟩ fun c hmem => ?_
  rw [Bool.eq_false_iff, Ne, covers_inclusive_iff]
  rintro ⟨-, hstop⟩
  exact UInt32.not_le.mpr (h.stop_lt hn hkind c hmem) hstop

theorem nameOwner_of_not_isIdentifier (h : (t.kind n).isIdentifier = false) :
    t.nameOwner n = n := by
  simp [nameOwner, h]

end Assist.Syntax.Tree

namespace Assist.Extraction

open Assist.Text Assist.Syntax

/-! ## What is selected -/

/-- The range is not empty and has the bounds of an element of the tree. -/
def IsElementRange (t : Tree) (range : Range) : Prop :=
  range.pos < range.stop ∧ ∃ n, t.HasNode n ∧
    (t.kind n = .jsxSelfClosingElement ∨ t.kind n = .jsxElement) ∧
    t.start n = range.pos ∧ t.stop n = range.stop

/-- The nodes that are found at the ends of a range are one element that closes itself, or an
opening tag and a closing tag of one element. -/
inductive Pairs (t : Tree) (range : Range) (first last : NodeId) : Prop where
  | selfClosing (hkind : t.kind first = .jsxSelfClosingElement) (hsame : first = last)
      (hstop : t.stop first = range.stop)
  | tags (hfirst : t.kind first = .jsxOpeningElement) (hlast : t.kind last = .jsxClosingElement)
      (hstop : t.stop last = range.stop) {element : NodeId}
      (hparent : t.parent? last = some element)
      (helement : t.kind element = .jsxElement)
      (hhead : (t.children element).head? = some first)

theorem selectsElement_eq_true_iff (t : Tree) (range : Range) :
    selectsElement t range = true ↔ range.pos ≠ range.stop ∧ ∃ first last,
      t.innermost? range.pos = some first ∧ t.innermostTouching? range.stop = some last ∧
      t.start (t.nameOwner first) = range.pos ∧ Pairs t range (t.nameOwner first) last := by
  unfold selectsElement
  constructor
  · intro h
    split at h
    · cases h
    rename_i hempty
    refine ⟨by simpa [Range.isEmpty] using hempty, ?_⟩
    split at h
    · rename_i first last hfirst hlast
      obtain ⟨hstart, h⟩ := Bool.and_eq_true_iff.mp h
      refine ⟨first, last, hfirst, hlast, beq_iff_eq.mp hstart, ?_⟩
      split at h
      · rename_i hkind
        simp only [Bool.and_eq_true, beq_iff_eq] at h
        exact .selfClosing hkind h.1 h.2
      · rename_i hopening hclosing
        obtain ⟨hstop, h⟩ := Bool.and_eq_true_iff.mp h
        split at h
        · rename_i element hparent
          simp only [Bool.and_eq_true, beq_iff_eq] at h
          exact .tags hopening hclosing (beq_iff_eq.mp hstop) hparent h.1 h.2
        · cases h
      · cases h
    · cases h
  · rintro ⟨hne, first, last, hfirst, hlast, hstart, hpairs⟩
    have hempty : range.isEmpty = false := by simpa [Range.isEmpty] using hne
    simp only [hempty, hfirst, hlast, hstart]
    rcases hpairs with ⟨hkind, rfl, hstop⟩ | ⟨hopening, hclosing, hstop, hparent, helement, hhead⟩
    · simp [hkind, hstop]
    · simp [hopening, hclosing, hstop, hparent, helement, hhead]

/-- Nodes that pair up at the ends of a range make it the range of an element. -/
theorem Pairs.isElementRange {t : Tree} (h : t.ElementsNest) {range : Range} {first last : NodeId}
    (hpairs : Pairs t range first last) (hfirst : t.HasNode first) (hlast : t.HasNode last)
    (hstart : t.start first = range.pos) (hcovers : t.start last ≤ range.stop)
    (hne : range.pos ≠ range.stop) : IsElementRange t range := by
  have hlt : range.pos ≤ t.start last → range.pos < range.stop := fun hle =>
    UInt32.lt_of_le_of_ne (UInt32.le_trans hle hcovers) hne
  rcases hpairs with ⟨hkind, rfl, hstop⟩ | @⟨-, hclosing, hstop, element, hparent, helement, hhead⟩
  · exact ⟨hlt (hstart ▸ UInt32.le_refl _), first, hfirst, .inl hkind, hstart, hstop⟩
  · obtain ⟨hnode, hmem⟩ := hlast.parent h.toNested hparent
    obtain ⟨opening, closing, htags⟩ := h.tags hnode helement
    -- an element has no other opening or closing tag among its children
    obtain rfl : first = opening := Option.some.inj (hhead.symm.trans htags.head)
    obtain rfl : last = closing := (htags.closing_iff last hmem).mp hclosing
    have hpos : t.start element = range.pos := htags.start_eq.symm.trans hstart
    have hwithin := ((h.nests hnode).within last hmem).1
    rw [hpos] at hwithin
    exact ⟨hlt hwithin, element, hnode, .inr helement, hpos, htags.stop_eq.symm.trans hstop⟩

/-- The bounds of an element that closes itself select it. -/
theorem selectsElement_of_selfClosing {t : Tree} (h : t.ElementsNest) {n : NodeId}
    (hn : t.HasNode n) (hkind : t.kind n = .jsxSelfClosingElement)
    (hlt : t.start n < t.stop n) : selectsElement t ⟨t.start n, t.stop n⟩ = true := by
  have howner : t.nameOwner n = n := Tree.nameOwner_of_not_isIdentifier (by rw [hkind]; rfl)
  refine (selectsElement_eq_true_iff t _).mpr ⟨UInt32.ne_of_lt hlt, n, n,
    h.innermost?_eq hn (.inr hkind) hlt, h.innermostTouching?_eq hn (.inr hkind) hlt, ?_⟩
  rw [howner]
  exact ⟨rfl, .selfClosing hkind rfl rfl⟩

/-- The bounds of an element whose tags are not empty select it. -/
theorem selectsElement_of_tags {t : Tree} (h : t.ElementsNest)
    {element opening closing : NodeId} (hn : t.HasNode element)
    (hkind : t.kind element = .jsxElement) (htags : t.Tags element opening closing)
    (hopening : t.start opening < t.stop opening) (hclosing : t.start closing < t.stop closing)
    (hlt : t.start element < t.stop element) :
    selectsElement t ⟨t.start element, t.stop element⟩ = true := by
  have howner : t.nameOwner opening = opening :=
    Tree.nameOwner_of_not_isIdentifier (by rw [htags.kind_opening]; rfl)
  have hfirst := h.innermost?_eq (hn.child htags.opening_mem) (.inl htags.kind_opening) hopening
  have hlast :=
    h.innermostTouching?_eq (hn.child htags.closing_mem) (.inl htags.kind_closing) hclosing
  rw [htags.start_eq] at hfirst
  rw [htags.stop_eq] at hlast
  refine (selectsElement_eq_true_iff t _).mpr
    ⟨UInt32.ne_of_lt hlt, opening, closing, hfirst, hlast, ?_⟩
  rw [howner]
  exact ⟨htags.start_eq, .tags htags.kind_opening htags.kind_closing htags.stop_eq
    ((h.nests hn).parent_eq closing htags.closing_mem) hkind htags.head⟩

/-- **Exactly one element.** If elements nest and tags are not empty, a range selects an element
exactly if it is not empty and has the bounds of an element. -/
theorem selectsElement_iff {t : Tree} (h : t.ElementsNest) (hfilled : t.FilledTags)
    (range : Range) : selectsElement t range = true ↔ IsElementRange t range := by
  constructor
  · intro hselects
    obtain ⟨hne, first, last, hfirst, hlast, hstart, hpairs⟩ :=
      (selectsElement_eq_true_iff t range).mp hselects
    have howner := (Tree.hasNode_of_locate? hfirst).nameOwner h.toNested
    have hcovers := Tree.covers_inclusive_iff.mp (Offsets.covers_of_locate? hlast)
    exact hpairs.isElementRange h howner (Tree.hasNode_of_locate? hlast) hstart hcovers.1 hne
  · obtain ⟨pos, stop⟩ := range
    rintro ⟨hlt, n, hn, hkind, rfl, rfl⟩
    rcases hkind with hkind | hkind
    · exact selectsElement_of_selfClosing h hn hkind hlt
    · obtain ⟨opening, closing, htags⟩ := h.tags hn hkind
      have hopening := hfilled hn hkind opening htags.opening_mem (.inl htags.kind_opening)
      have hclosing := hfilled hn hkind closing htags.closing_mem (.inr htags.kind_closing)
      exact selectsElement_of_tags h hn hkind htags hopening hclosing hlt

/-- The tree of an element inside another one. -/
def innerElementTree : Tree :=
  Tree.empty "<a><b/></a>"
    |>.addLeaf .identifier 1 2
    |>.add .jsxOpeningElement 0 3 [⟨0⟩]
    |>.addLeaf .identifier 4 5
    |>.add .jsxSelfClosingElement 3 7 [⟨2⟩]
    |>.addLeaf .identifier 9 10
    |>.add .jsxClosingElement 7 11 [⟨4⟩]
    |>.add .jsxElement 0 11 [⟨1⟩, ⟨3⟩, ⟨5⟩]
    |>.addFile [⟨6⟩]

/-- The nodes of `innerElementTree` with their levels. -/
def innerElementNodes : List (Nat × NodeId) :=
  [(1, ⟨7⟩), (2, ⟨6⟩), (3, ⟨1⟩), (3, ⟨3⟩), (3, ⟨5⟩), (4, ⟨0⟩), (4, ⟨2⟩), (4, ⟨4⟩)]

/-- The bounds of the inner element select it; the outer element without its closing tag is not
selected. -/
theorem selectsElement_iff_innerElement :
    (selectsElement innerElementTree ⟨3, 7⟩ = true ∧ IsElementRange innerElementTree ⟨3, 7⟩) ∧
      selectsElement innerElementTree ⟨0, 7⟩ = false ∧
      ¬IsElementRange innerElementTree ⟨0, 7⟩ := by
  have hroot : ∀ root ∈ innerElementTree.root,
      (1, root) ∈ innerElementNodes ∧ innerElementTree.parent? root = none := by decide +kernel
  have hchildren : ∀ entry ∈ innerElementNodes, ∀ c ∈ innerElementTree.children entry.2,
      (entry.1 + 1, c) ∈ innerElementNodes := by decide +kernel
  have htags : ∀ entry ∈ innerElementNodes, innerElementTree.kind entry.2 = .jsxElement →
      innerElementTree.Tags entry.2 ⟨1⟩ ⟨5⟩ := by decide +kernel
  have hnests : innerElementTree.ElementsNest :=
    .of_closed hroot hchildren (by decide +kernel)
      (fun entry hmem hkind => ⟨_, _, htags entry hmem hkind⟩) (by decide +kernel)
      (by decide +kernel)
  have hfilled : innerElementTree.FilledTags := by
    have hnodes : ∀ entry ∈ innerElementNodes, innerElementTree.kind entry.2 = .jsxElement →
        ∀ c ∈ innerElementTree.children entry.2, innerElementTree.kind c = .jsxOpeningElement ∨
          innerElementTree.kind c = .jsxClosingElement →
        innerElementTree.start c < innerElementTree.stop c := by decide +kernel
    rintro n ⟨level, h⟩
    exact hnodes _ (h.mem_of_closed (fun root h => (hroot root h).1) hchildren)
  have hinner : selectsElement innerElementTree ⟨3, 7⟩ = true := by decide +kernel
  have houter : selectsElement innerElementTree ⟨0, 7⟩ = false := by decide +kernel
  refine ⟨⟨hinner, (selectsElement_iff hnests hfilled _).mp hinner⟩, houter, fun hrange => ?_⟩
  rw [(selectsElement_iff hnests hfilled _).mpr hrange] at houter
  cases houter

/-- The tree of an element over the whole file, with the given bounds between its tags. -/
def tagsTree (openingStop closingPos : Offset) : Tree :=
  Tree.empty "<a></a>"
    |>.addLeaf .jsxOpeningElement 0 openingStop
    |>.addLeaf .jsxClosingElement closingPos 7
    |>.add .jsxElement 0 7 [⟨0⟩, ⟨1⟩]
    |>.addFile [⟨2⟩]

/-- No offset lies in an opening tag that is empty, so the bounds of its element do not select
it. -/
theorem not_selectsElement_emptyTag : (tagsTree 0 3).ElementsNest ∧
    IsElementRange (tagsTree 0 3) ⟨0, 7⟩ ∧ selectsElement (tagsTree 0 3) ⟨0, 7⟩ = false := by
  have htags : ∀ entry ∈ [(1, ⟨3⟩), (2, ⟨2⟩), (3, ⟨0⟩), (3, ⟨1⟩)],
      (tagsTree 0 3).kind entry.2 = .jsxElement → (tagsTree 0 3).Tags entry.2 ⟨0⟩ ⟨1⟩ := by
    decide +kernel
  have hnests : (tagsTree 0 3).ElementsNest :=
    .of_closed (by decide +kernel) (by decide +kernel) (by decide +kernel)
      (fun entry hmem hkind => ⟨_, _, htags entry hmem hkind⟩) (by decide +kernel)
      (by decide +kernel)
  have hroot : (tagsTree 0 3).root = some ⟨3⟩ := rfl
  have helement : (tagsTree 0 3).HasNode ⟨2⟩ :=
    (Tree.HasNode.of_root hroot).child (by decide +kernel)
  exact ⟨hnests, ⟨by decide, ⟨2⟩, helement, .inr (by decide +kernel), by decide +kernel,
    by decide +kernel⟩, by decide +kernel⟩

-- nor is an empty closing tag found behind a tag that ends there
example : selectsElement (tagsTree 7 7) ⟨0, 7⟩ = false := by decide +kernel

end Assist.Extraction
