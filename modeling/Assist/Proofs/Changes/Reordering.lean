import Assist.Proofs.Changes.Splicing

/-!
# The order of a list of changes

Changes are applied by where they start, so the order of their list should only matter for
insertions at one place. This file says how far that is so. Two lists are a `Reordering` of each
other if they have the same changes and the same insertions at every place in the same order. Being
`Compatible` with a text does not depend on the order at all. Whether compatible changes can be
applied does: an insertion must not be listed behind a replacement that starts at its place
(`InsertionsLead`), and `insertion_behind_replacement_refused` has one that is. Nothing else
depends on the order: `applyChanges?_eq_iff_of_reordering`.
-/

namespace Assist.Extraction

open Assist.Text

variable {a b : Change} {text : List Char} {changes xs ys : List Change}

/-! ## The same changes in another order -/

/-- The insertions of a list at one place, in the order of the list. -/
def insertionsAt (place : Nat) (changes : List Change) : List Change :=
  changes.filter fun change => change.span.isEmpty && change.start == place

/-- The lists have the same changes, and insertions at one place are in the same order in both. -/
structure Reordering (xs ys : List Change) : Prop where
  perm : xs.Perm ys
  insertions : ∀ place, insertionsAt place xs = insertionsAt place ys

theorem insertionsAt_cons (place : Nat) (change : Change) (changes : List Change) :
    insertionsAt place (change :: changes) =
      if change.span.isEmpty = true ∧ change.start = place then
        change :: insertionsAt place changes else insertionsAt place changes := by
  simp [insertionsAt, List.filter_cons]

theorem insertionsAt_eq_nil {place : Nat} (h : ∀ change ∈ changes, change.start ≠ place) :
    insertionsAt place changes = [] := by
  rw [insertionsAt, List.filter_eq_nil_iff]
  intro change hchange
  simp [h change hchange]

/-- Only the places where a change of the list starts have to be looked at. -/
theorem reordering_iff : Reordering xs ys ↔
    xs.Perm ys ∧ ∀ change ∈ xs, insertionsAt change.start xs = insertionsAt change.start ys := by
  constructor
  · rintro ⟨hperm, hinsertions⟩
    exact ⟨hperm, fun change _ => hinsertions change.start⟩
  · rintro ⟨hperm, hinsertions⟩
    refine ⟨hperm, fun place => ?_⟩
    by_cases hplace : ∃ change ∈ xs, change.start = place
    · obtain ⟨change, hmem, rfl⟩ := hplace
      exact hinsertions change hmem
    · rw [insertionsAt_eq_nil fun change hmem heq => hplace ⟨change, hmem, heq⟩,
        insertionsAt_eq_nil fun change hmem heq => hplace ⟨change, hperm.mem_iff.mpr hmem, heq⟩]

instance (xs ys : List Change) : Decidable (Reordering xs ys) :=
  decidable_of_iff _ reordering_iff.symm

/-- Sorting keeps the order of insertions at one place. -/
theorem insertionsAt_sortChanges (place : Nat) (changes : List Change) :
    insertionsAt place (sortChanges changes) = insertionsAt place changes := by
  induction changes with
  | nil => rw [sortChanges_nil]
  | cons change changes ih =>
    obtain ⟨before, after, hcons, hrest, hbefore, -⟩ := sortChanges_cons change changes
    have happend : ∀ rest, insertionsAt place (before ++ rest) =
        insertionsAt place before ++ insertionsAt place rest := fun rest => List.filter_append ..
    rw [hrest, happend] at ih
    rw [hcons, happend, insertionsAt_cons, insertionsAt_cons, ← ih]
    by_cases hinsertion : change.span.isEmpty = true ∧ change.start = place
    · -- what is sorted before the change starts before its place
      have hnil : insertionsAt place before = [] := insertionsAt_eq_nil fun b hb heq => by
        have := hbefore b hb
        omega
      rw [if_pos hinsertion, if_pos hinsertion, hnil]
      rfl
    · rw [if_neg hinsertion, if_neg hinsertion]

/-- Changes that follow one another in both lists are listed in the same order: only two insertions
at one place could follow each other either way. -/
theorem eq_of_perm_of_pairwise_stop_le (hperm : xs.Perm ys)
    (hxs : xs.Pairwise fun a b => a.stop ≤ b.start) (hys : ys.Pairwise fun a b => a.stop ≤ b.start)
    (hinsertions : ∀ place, insertionsAt place xs = insertionsAt place ys) : xs = ys := by
  induction xs generalizing ys with
  | nil => exact hperm.nil_eq
  | cons x xs ih =>
    cases ys with
    | nil => exact absurd hperm.symm (List.not_perm_nil_cons x xs)
    | cons y ys =>
      obtain ⟨hx, hxsTail⟩ := List.pairwise_cons.mp hxs
      obtain ⟨hy, hysTail⟩ := List.pairwise_cons.mp hys
      have hhead : x = y := by
        by_contra hne
        have hmemy : y ∈ xs :=
          (List.mem_cons.mp (hperm.mem_iff.mpr List.mem_cons_self)).resolve_left (Ne.symm hne)
        have hmemx : x ∈ ys :=
          (List.mem_cons.mp (hperm.mem_iff.mp List.mem_cons_self)).resolve_left hne
        have hxy := hx y hmemy
        have hyx := hy x hmemx
        have hx' := x.start_le_stop
        have hy' := y.start_le_stop
        have hplace := hinsertions x.start
        rw [insertionsAt_cons, insertionsAt_cons, if_pos ⟨Change.isEmpty_iff.mpr (by omega), rfl⟩,
          if_pos ⟨Change.isEmpty_iff.mpr (by omega), by omega⟩] at hplace
        exact hne (List.cons.inj hplace).1
      subst hhead
      have htail : ∀ place, insertionsAt place xs = insertionsAt place ys := fun place => by
        have hplace := hinsertions place
        rw [insertionsAt_cons, insertionsAt_cons] at hplace
        split at hplace
        · exact (List.cons.inj hplace).2
        · exact hplace
      rw [ih hperm.cons_inv hxsTail hysTail htail]

/-! ## What depends on the order -/

/-- The changes fit the text, in whatever order they are listed: each lies in the file between two
boundaries, and of every two one ends before the other starts. -/
structure Compatible (text : List Char) (changes : List Change) : Prop where
  fits : ∀ change ∈ changes, change.stop ≤ maxOffset
  starts : ∀ change ∈ changes, isBoundary change.start text = true
  stops : ∀ change ∈ changes, isBoundary change.stop text = true
  disjoint : changes.Pairwise fun a b => a.stop ≤ b.start ∨ b.stop ≤ a.start

/-- No insertion is listed behind a replacement that starts at its place. -/
def InsertionsLead (changes : List Change) : Prop :=
  changes.Pairwise fun a b => a.start = b.start → b.span.isEmpty = true → a.span.isEmpty = true

instance (changes : List Change) : Decidable (InsertionsLead changes) :=
  inferInstanceAs (Decidable (changes.Pairwise _))

theorem Compatible.perm (h : Compatible text xs) (hperm : xs.Perm ys) : Compatible text ys := by
  refine ⟨fun c hc => h.fits c (hperm.mem_iff.mpr hc),
    fun c hc => h.starts c (hperm.mem_iff.mpr hc),
    fun c hc => h.stops c (hperm.mem_iff.mpr hc), ?_⟩
  exact (hperm.pairwise_iff fun hab => Or.symm hab).mp h.disjoint

/-- Two changes are apart if they are disjoint and the first is not a replacement that starts where
the second inserts. -/
theorem apart_iff : Apart a b ↔ (a.stop ≤ b.start ∨ b.stop ≤ a.start) ∧
    (a.start = b.start → b.span.isEmpty = true → a.span.isEmpty = true) := by
  have ha := a.start_le_stop
  have hb := b.start_le_stop
  rw [Change.isEmpty_iff, Change.isEmpty_iff, Apart]
  split <;> omega

/-- Changes can be applied exactly if they are compatible with the text and insertions are listed in
front of the replacements at their places. -/
theorem applyChanges?_isSome_iff_compatible (text : String) (changes : List Change) :
    (applyChanges? text changes).isSome = true ↔
      Compatible text.toList changes ∧ InsertionsLead changes := by
  have hapart : changes.Pairwise Apart ↔
      (changes.Pairwise fun a b => a.stop ≤ b.start ∨ b.stop ≤ a.start) ∧
        InsertionsLead changes := by
    rw [InsertionsLead, ← List.pairwise_and_iff]
    exact ⟨fun h => h.imp apart_iff.mp, fun h => h.imp apart_iff.mpr⟩
  rw [applyChanges?_isSome_iff, hapart]
  constructor
  · rintro ⟨hall, hdisjoint, hlead⟩
    exact ⟨⟨fun c hc => (hall c hc).1, fun c hc => (hall c hc).2.1, fun c hc => (hall c hc).2.2,
      hdisjoint⟩, hlead⟩
  · rintro ⟨h, hlead⟩
    exact ⟨fun c hc => ⟨h.fits c hc, h.starts c hc, h.stops c hc⟩, h.disjoint, hlead⟩

/-- Reorderings that can both be applied are applied in one order. -/
theorem Reordering.sortChanges_eq (h : Reordering xs ys) (hxs : xs.Pairwise Apart)
    (hys : ys.Pairwise Apart) : sortChanges xs = sortChanges ys := by
  have hperm : (sortChanges xs).Perm (sortChanges ys) :=
    (sortChanges_perm xs).trans (h.perm.trans (sortChanges_perm ys).symm)
  refine eq_of_perm_of_pairwise_stop_le hperm (pairwise_apart_iff.mp hxs)
    (pairwise_apart_iff.mp hys) fun place => ?_
  rw [insertionsAt_sortChanges, insertionsAt_sortChanges, h.insertions]

/-- **What the order of a list matters for.** Two lists with the same changes, and the same order of
insertions at every place, have the same answer unless the changes are compatible with the text and
only one of the lists has an insertion behind a replacement at its place. -/
theorem applyChanges?_eq_iff_of_reordering (h : Reordering xs ys) (text : String) :
    applyChanges? text xs = applyChanges? text ys ↔
      (Compatible text.toList xs → (InsertionsLead xs ↔ InsertionsLead ys)) := by
  have hx := applyChanges?_isSome_iff_compatible text xs
  have hy := applyChanges?_isSome_iff_compatible text ys
  constructor
  · intro heq hfits
    rw [heq, hy] at hx
    have hfits' := hfits.perm h.perm
    exact ⟨fun hlead => (hx.mpr ⟨hfits, hlead⟩).2, fun hlead => (hx.mp ⟨hfits', hlead⟩).2⟩
  · intro hlead
    by_cases happlies : (applyChanges? text xs).isSome = true
    · obtain ⟨hfits, hleadx⟩ := hx.mp happlies
      have happlies' := hy.mpr ⟨hfits.perm h.perm, (hlead hfits).mp hleadx⟩
      have hsort := h.sortChanges_eq (applyChanges?_isSome_iff.mp happlies).2
        (applyChanges?_isSome_iff.mp happlies').2
      rw [applyChanges?, applyChanges?, hsort]
    · have hrefused : ¬(applyChanges? text ys).isSome = true := fun happlies' => by
        obtain ⟨hfits', hleady⟩ := hy.mp happlies'
        have hfits := hfits'.perm h.perm.symm
        exact happlies (hx.mpr ⟨hfits, (hlead hfits).mpr hleady⟩)
      rw [Option.not_isSome_iff_eq_none] at happlies hrefused
      rw [happlies, hrefused]

/-- Two insertions at the start of a file and the replacement of its first word. -/
def headChanges : List Change :=
  [⟨⟨0, 0⟩, "import a;\n"⟩, ⟨⟨0, 0⟩, "// sum\n"⟩, ⟨⟨0, 5⟩, "let"⟩]

/-- A replacement further on in the file. -/
def sumChange : Change := ⟨⟨12, 5⟩, "total"⟩

/-- It does not matter whether the last change of the file is listed first or last. -/
theorem applyChanges?_eq_iff_of_reordering_sum :
    Reordering (headChanges ++ [sumChange]) (sumChange :: headChanges) ∧
      applyChanges? "const sum = 1 + 2;\n" (sumChange :: headChanges) =
        some "import a;\n// sum\nlet sum = total;\n" := by
  have h : Reordering (headChanges ++ [sumChange]) (sumChange :: headChanges) := by decide +kernel
  have hsame := (applyChanges?_eq_iff_of_reordering h "const sum = 1 + 2;\n").mpr fun _ => by
    decide +kernel
  refine ⟨h, ?_⟩
  rw [← hsame, applyChanges?, sortChanges_eq_foldr]
  decide +kernel

/-- An insertion and a replacement at the start of a file have a result in this order, and none in
the other. -/
theorem insertion_behind_replacement_refused :
    Reordering [⟨⟨0, 0⟩, "// sum\n"⟩, ⟨⟨0, 5⟩, "let"⟩] [⟨⟨0, 5⟩, "let"⟩, ⟨⟨0, 0⟩, "// sum\n"⟩] ∧
      applyChanges? "const sum = 1 + 2;\n" [⟨⟨0, 0⟩, "// sum\n"⟩, ⟨⟨0, 5⟩, "let"⟩] =
        some "// sum\nlet sum = 1 + 2;\n" ∧
      applyChanges? "const sum = 1 + 2;\n" [⟨⟨0, 5⟩, "let"⟩, ⟨⟨0, 0⟩, "// sum\n"⟩] = none := by
  simp only [applyChanges?, sortChanges_eq_foldr]
  decide +kernel

end Assist.Extraction
