import Assist.Proofs.Extraction.Origin
import Assist.Proofs.Text.Search

/-!
# The two ways to offer variants

The host's list of actions is kept whole, and arrow functions come after it; or its extractions of
functions are traded for one component. A list cannot have come about both ways
(`not_offersArrows_of_tradesForComponent`): an action that is traded away and stands at the end
again would be a variant of an action that is traded away, too. So the form of the list tells
whether one element was selected in a file from which functions can be extracted
(`withVariants_forms`).
-/

namespace Assist.Extraction

open Assist.Text Assist.Syntax

namespace RefactorInfo

/-- An action is what is offered as the variant of an action that can be used. -/
def Offers (refactor : RefactorInfo) (variant : Variant) (added : ActionInfo) : Prop :=
  ∃ origin ∈ refactor.applicable, added = refactor.offered (origin, variant)

/-- The list of the host, then at most one local arrow function and at most one at the top of the
file. -/
def OffersArrows (refactor result : RefactorInfo) : Prop :=
  ∃ localArrow? arrow? : Option ActionInfo,
    (∀ added ∈ localArrow?, refactor.Offers .localArrow added) ∧
    (∀ added ∈ arrow?, refactor.Offers .arrow added) ∧
    result.actions = refactor.actions ++ (localArrow?.toList ++ arrow?.toList)

/-- The list of the host without its extractions of functions, then one component. -/
def TradesForComponent (refactor result : RefactorInfo) : Prop :=
  ∃ added, refactor.Offers .component added ∧
    result.actions = refactor.actions.filter (!startsWith functionScopeLead ·.name) ++ [added]

end RefactorInfo

section Forms

variable {refactor result : RefactorInfo}

/-- No ending of a variant has the last character of the lead in it, so the lead does not reach into
an ending. -/
theorem startsWith_actionName (variant : Variant) (name : String) :
    startsWith functionScopeLead (variant.actionName name) =
      startsWith functionScopeLead name := by
  have hiff : functionScopeLead.toList <+: name.toList ++ variant.ending.toList ↔
      functionScopeLead.toList <+: name.toList := by
    refine ⟨?_, fun hprefix => hprefix.trans (List.prefix_append _ _)⟩
    rintro ⟨rest, hrest⟩
    rcases List.append_eq_append_iff.mp hrest with ⟨gap, hname, -⟩ | ⟨reach, hlead, hending⟩
    · exact ⟨gap, hname.symm⟩
    · rcases List.eq_nil_or_concat' reach with rfl | ⟨front, c, rfl⟩
      · rw [List.append_nil] at hlead
        rw [hlead]
      · have hlast : functionScopeLead.toList.getLast? = some c := by
          rw [hlead, ← List.append_assoc, List.getLast?_concat]
        have hmem : c ∈ variant.ending.toList := by
          rw [hending]
          simp
        rw [show functionScopeLead.toList.getLast? = some 'e' by decide, Option.some.injEq] at hlast
        rw [← hlast] at hmem
        cases variant <;> exact absurd hmem (by decide)
  rw [startsWith, startsWith, toList_actionName, Bool.eq_iff_iff, isSome_stripStart?_iff,
    isSome_stripStart?_iff, hiff]

theorem actionName_ne (variant : Variant) (name : String) : variant.actionName name ≠ name := by
  intro heq
  have hnil : variant.ending.toList = [] := by
    rw [← String.toList_inj, toList_actionName] at heq
    exact List.append_right_eq_self.mp heq
  cases variant <;> exact absurd hnil (by decide)

theorem RefactorInfo.Offers.description_eq {variant : Variant} {added : ActionInfo}
    (h : refactor.Offers variant added) : added.description = variant.description := by
  obtain ⟨origin, -, rfl⟩ := h
  rfl

/-- What is at the end of the list after a trade was not there before. -/
theorem RefactorInfo.Offers.filter_append_ne {variant : Variant} {added : ActionInfo}
    (h : refactor.Offers variant added) :
    refactor.actions.filter (!startsWith functionScopeLead ·.name) ++ [added] ≠
      refactor.actions := by
  intro hwhole
  obtain ⟨origin, horigin, hadded⟩ := h
  have hname : added.name = variant.actionName origin.name := by rw [hadded]; rfl
  have hmem : origin ∈ refactor.actions := (List.mem_filter.mp horigin).1
  -- the list would have lost an action, and only the added one can be the lost one
  have hlost : startsWith functionScopeLead added.name = true := by
    by_contra hstays
    have hall : ∀ action ∈ refactor.actions,
        (!startsWith functionScopeLead action.name) = true := by
      intro action haction
      rw [← hwhole, List.mem_append, List.mem_singleton] at haction
      rcases haction with hkept | rfl
      · exact (List.mem_filter.mp hkept).2
      · rw [Bool.not_eq_true', ← Bool.not_eq_true]
        exact hstays
    rw [List.filter_eq_self.mpr hall] at hwhole
    exact List.cons_ne_nil _ _ (List.append_right_eq_self.mp hwhole)
  rw [hname, startsWith_actionName] at hlost
  rw [← hwhole, List.mem_append, List.mem_singleton] at hmem
  rcases hmem with hkept | rfl
  · have hstays := (List.mem_filter.mp hkept).2
    rw [hlost] at hstays
    exact Bool.false_ne_true hstays
  · exact actionName_ne variant _ hname.symm

/-- **Not both.** A list in which functions were traded for a component is not the list of the host
with arrow functions after it. -/
theorem not_offersArrows_of_tradesForComponent (h : refactor.TradesForComponent result) :
    ¬refactor.OffersArrows result := by
  rintro ⟨localArrow?, arrow?, hlocal, harrow, hwhole⟩
  obtain ⟨component, hcomponent, hkept⟩ := h
  rw [hkept] at hwhole
  rcases List.eq_nil_or_concat' (localArrow?.toList ++ arrow?.toList) with
    hnil | ⟨front, last, hlast⟩
  · rw [hnil, List.append_nil] at hwhole
    exact hcomponent.filter_append_ne hwhole
  · rw [hlast, ← List.append_assoc] at hwhole
    have hsame : component = last := List.singleton_inj.mp (List.append_inj' hwhole rfl).2
    have hmem : component ∈ localArrow?.toList ++ arrow?.toList := by
      rw [hlast, hsame]
      simp
    have hdescription := hcomponent.description_eq
    rw [List.mem_append, Option.mem_toList, Option.mem_toList] at hmem
    rcases hmem with hmem | hmem
    · rw [(hlocal component hmem).description_eq] at hdescription
      exact absurd hdescription (by decide)
    · rw [(harrow component hmem).description_eq] at hdescription
      exact absurd hdescription (by decide)

/-! ## Which form a selection gets -/

theorem fileExtraction?_isSome_iff : refactor.fileExtraction?.isSome = true ↔
    ∃ action ∈ refactor.applicable, action.description ∈ fileScopeDescriptions := by
  rw [RefactorInfo.fileExtraction?, List.find?_isSome]
  simp only [List.contains_iff_mem]

theorem filter_toRange?_isSome_iff {tree : Tree} {selection : Selection} :
    (selection.toRange?.filter (selectsElement tree)).isSome = true ↔
      ∃ range, selection = .range range ∧ selectsElement tree range = true := by
  cases selection with
  | caret pos => simp [Selection.toRange?]
  | range range => simp [Selection.toRange?]

theorem offers_of_find? {p : ActionInfo → Bool} {action : ActionInfo} (variant : Variant)
    (h : refactor.applicable.find? p = some action) :
    refactor.Offers variant (refactor.offered (action, variant)) :=
  ⟨action, List.mem_of_find?_eq_some h, rfl⟩

theorem offersArrows_arrowOffers (refactor : RefactorInfo) : refactor.OffersArrows
    { refactor with actions := refactor.actions ++ refactor.arrowOffers } := by
  refine ⟨refactor.innerExtraction?.map fun action => refactor.offered (action, .localArrow),
    refactor.fileExtraction?.map fun action => refactor.offered (action, .arrow), ?_, ?_, rfl⟩
  · intro added hadded
    obtain ⟨action, haction, rfl⟩ := Option.map_eq_some_iff.mp hadded
    exact offers_of_find? .localArrow haction
  · intro added hadded
    obtain ⟨action, haction, rfl⟩ := Option.map_eq_some_iff.mp hadded
    exact offers_of_find? .arrow haction

/-- Where one element is selected and a function can be extracted into the scope of the file, there
is a trade; anywhere else arrow functions are offered. -/
theorem withVariants_cases (refactor : RefactorInfo) (tree : Tree) (selection : Selection) :
    (refactor.TradesForComponent (refactor.withVariants tree selection) ∧
      refactor.fileExtraction?.isSome = true ∧
      (selection.toRange?.filter (selectsElement tree)).isSome = true) ∨
    (refactor.OffersArrows (refactor.withVariants tree selection) ∧
      ¬(refactor.fileExtraction?.isSome = true ∧
        (selection.toRange?.filter (selectsElement tree)).isSome = true)) := by
  unfold RefactorInfo.withVariants
  cases hfile : refactor.fileExtraction? with
  | none => exact Or.inr ⟨offersArrows_arrowOffers refactor, by simp⟩
  | some action =>
    cases selection.toRange?.filter (selectsElement tree) with
    | none => exact Or.inr ⟨offersArrows_arrowOffers refactor, by simp⟩
    | some range => exact Or.inl ⟨⟨_, offers_of_find? .component hfile, rfl⟩, rfl, rfl⟩

theorem withVariants_frame (refactor : RefactorInfo) (tree : Tree) (selection : Selection) :
    (refactor.withVariants tree selection).name = refactor.name ∧
      (refactor.withVariants tree selection).description = refactor.description := by
  unfold RefactorInfo.withVariants
  split <;> exact ⟨rfl, rfl⟩

end Forms

/-- **What is offered.** A refactoring keeps its name and description. Arrow functions are added to
its actions, or its extractions of functions are traded for one component, never both; and there is
a trade exactly if the selection is a range over one whole element and one of the actions that can
be used extracts a function into the scope of the file. -/
theorem withVariants_forms (refactor : RefactorInfo) (tree : Tree) (selection : Selection) :
    (refactor.withVariants tree selection).name = refactor.name ∧
    (refactor.withVariants tree selection).description = refactor.description ∧
    (refactor.OffersArrows (refactor.withVariants tree selection) ∨
      refactor.TradesForComponent (refactor.withVariants tree selection)) ∧
    (refactor.TradesForComponent (refactor.withVariants tree selection) ↔
      (∃ range, selection = .range range ∧ selectsElement tree range = true) ∧
        ∃ action ∈ refactor.applicable, action.description ∈ fileScopeDescriptions) ∧
    ¬(refactor.OffersArrows (refactor.withVariants tree selection) ∧
      refactor.TradesForComponent (refactor.withVariants tree selection)) := by
  obtain ⟨hname, hdescription⟩ := withVariants_frame refactor tree selection
  have hnotBoth : ¬(refactor.OffersArrows (refactor.withVariants tree selection) ∧
      refactor.TradesForComponent (refactor.withVariants tree selection)) := by
    rintro ⟨harrows, htrade⟩
    exact not_offersArrows_of_tradesForComponent htrade harrows
  rw [← filter_toRange?_isSome_iff, ← fileExtraction?_isSome_iff]
  refine ⟨hname, hdescription, ?_, ?_, hnotBoth⟩
  · rcases withVariants_cases refactor tree selection with ⟨htrade, -⟩ | ⟨harrows, -⟩
    · exact Or.inr htrade
    · exact Or.inl harrows
  · rcases withVariants_cases refactor tree selection with ⟨htrade, hfile, hrange⟩ |
      ⟨harrows, hneither⟩
    · exact ⟨fun _ => ⟨hrange, hfile⟩, fun _ => htrade⟩
    · constructor
      · intro htrade
        exact absurd ⟨harrows, htrade⟩ hnotBoth
      · rintro ⟨hrange, hfile⟩
        exact absurd ⟨hfile, hrange⟩ hneither

end Assist.Extraction
