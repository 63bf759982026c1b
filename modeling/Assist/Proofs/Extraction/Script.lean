import Assist.Extraction.Action
import Assist.Extraction.Script
import Assist.Proofs.Changes.Order

/-!
# Scripts and their changes

A script is made from a list of changes exactly if every change ends at an offset and there are at
least two; it then has the changes of the list in their order (`ofChanges_eq_ok_iff`), and otherwise
there is a reason (`ofChanges_eq_error_iff`). Moving the function changes its span and nothing else
(`moveBody_eq_ok_iff`).
-/

namespace Assist.Extraction.Script

open Assist.Text

/-- The changes in the order in which a variant lists them. -/
def arranged (variant : Variant) (script : Script) : List Change :=
  if variant = .component then script.toChanges else script.toRelocatedChanges

theorem isNone_stop?_iff {change : Change} :
    change.span.stop?.isNone = true ↔ ¬ change.stop ≤ maxOffset := by
  rw [Option.isNone_iff_eq_none, Option.eq_none_iff_forall_ne_some]
  constructor
  · intro h hfit
    exact h _ (if_pos hfit)
  · intro hfit stop hstop
    exact hfit (Change.stop?_eq_some_iff.mp hstop).1

/-- The first change that does not end at an offset. -/
theorem find?_isNone_stop?_eq_some_iff {changes : List Change} {change : Change} :
    changes.find? (·.span.stop?.isNone) = some change ↔
      ∃ before after, changes = before ++ change :: after ∧
        (∀ c ∈ before, c.stop ≤ maxOffset) ∧ maxOffset < change.stop := by
  have hfits : ∀ c : Change, (!c.span.stop?.isNone) = true ↔ c.stop ≤ maxOffset := fun c => by
    rw [Bool.not_eq_true', ← Bool.not_eq_true, isNone_stop?_iff, Decidable.not_not]
  rw [List.find?_eq_some_iff_append, isNone_stop?_iff, Nat.not_le]
  simp only [hfits]
  constructor
  · rintro ⟨hlarge, before, after, hsplit, hbefore⟩
    exact ⟨before, after, hsplit, hbefore, hlarge⟩
  · rintro ⟨before, after, hsplit, hbefore, hlarge⟩
    exact ⟨hlarge, before, after, hsplit, hbefore⟩

theorem find?_isNone_stop?_eq_none_iff {changes : List Change} :
    changes.find? (·.span.stop?.isNone) = none ↔ ∀ c ∈ changes, c.stop ≤ maxOffset := by
  simp only [List.find?_eq_none, isNone_stop?_iff, Decidable.not_not]

theorem ofChanges_eq_ok_iff {changes : List Change} {script : Script} :
    ofChanges changes = .ok script ↔
      (∀ change ∈ changes, change.stop ≤ maxOffset) ∧ changes = script.toChanges := by
  unfold ofChanges
  cases hfind : changes.find? (·.span.stop?.isNone) with
  | some change =>
    obtain ⟨before, after, hsplit, -, hlarge⟩ := find?_isNone_stop?_eq_some_iff.mp hfind
    refine ⟨fun h => absurd h (by simp), fun h => ?_⟩
    have := h.1 change (by simp [hsplit])
    omega
  | none =>
    have hfits := find?_isNone_stop?_eq_none_iff.mp hfind
    simp only
    split
    · rename_i body callSite leading hrev
      have hchanges : changes = leading.reverse ++ [callSite, body] := by
        rw [← List.reverse_reverse changes, hrev]
        simp
      constructor
      · intro h
        cases h
        exact ⟨hfits, hchanges⟩
      · rintro ⟨-, h⟩
        rw [hchanges] at h
        obtain ⟨hleading, htwo⟩ := List.append_inj' h rfl
        cases script
        simp_all
    · rename_i hshort
      refine ⟨fun h => absurd h (by simp), fun h => ?_⟩
      exact absurd (by rw [h.2]; simp [toChanges]) (hshort script.body script.callSite
        script.leading.reverse)

/-- **Why a list is no script.** The first change that does not end at an offset is reported,
however short the list is; a list without such a change is refused if it is too short. -/
theorem ofChanges_eq_error_iff {changes : List Change} {refusal : Refusal} :
    ofChanges changes = .error refusal ↔
      (∃ before change after, changes = before ++ change :: after ∧
        (∀ c ∈ before, c.stop ≤ maxOffset) ∧ maxOffset < change.stop ∧
        refusal = .invalidSpan change.span) ∨
      (∀ c ∈ changes, c.stop ≤ maxOffset) ∧ changes.length < 2 ∧
        refusal = .missingTextChanges changes.length := by
  unfold ofChanges
  cases hfind : changes.find? (·.span.stop?.isNone) with
  | some change =>
    obtain ⟨before, after, hsplit, hbefore, hlarge⟩ := find?_isNone_stop?_eq_some_iff.mp hfind
    constructor
    · intro h
      cases h
      exact Or.inl ⟨before, change, after, hsplit, hbefore, hlarge, rfl⟩
    · rintro (⟨before, first, after, hsplit, hbefore, hlarge, rfl⟩ | ⟨hfits, -⟩)
      · have hfirst := find?_isNone_stop?_eq_some_iff.mpr ⟨before, after, hsplit, hbefore, hlarge⟩
        rw [hfind] at hfirst
        rw [Option.some.inj hfirst]
      · have := hfits change (by simp [hsplit])
        omega
  | none =>
    have hfits := find?_isNone_stop?_eq_none_iff.mp hfind
    have hnone : ¬ ∃ before change after, changes = before ++ change :: after ∧
        (∀ c ∈ before, c.stop ≤ maxOffset) ∧ maxOffset < change.stop ∧
        refusal = .invalidSpan change.span := by
      rintro ⟨before, change, after, rfl, -, hlarge, -⟩
      have := hfits change (by simp)
      omega
    have hshort : changes.length < 2 →
        ((.error (.missingTextChanges changes.length) : Except Refusal Script) = .error refusal ↔
          (∀ c ∈ changes, c.stop ≤ maxOffset) ∧ changes.length < 2 ∧
            refusal = .missingTextChanges changes.length) := fun hlen => by
      rw [Except.error.injEq, eq_comm]
      exact ⟨fun h => ⟨hfits, hlen, h⟩, fun h => h.2.2⟩
    rw [or_iff_right hnone]
    have hlen : changes.reverse.length = changes.length := List.length_reverse
    cases hrev : changes.reverse with
    | nil => exact hshort (by simp [← hlen, hrev])
    | cons body rest =>
      cases rest with
      | nil => exact hshort (by simp [← hlen, hrev])
      | cons callSite leading =>
        rw [hrev, List.length_cons, List.length_cons] at hlen
        refine ⟨fun h => absurd h (by simp), fun h => ?_⟩
        have := h.2.1
        omega

theorem moveBody_eq_ok_iff {script moved : Script} {start : Offset} :
    script.moveBody start = .ok moved ↔
      script.callSite.stop ≤ maxOffset ∧ script.body.span.isEmpty = true ∧
        script.callSite.span.strictlyContains start = false ∧
        moved = { script with body := { script.body with span := Span.emptyAt start } } := by
  unfold moveBody
  by_cases hfit : script.callSite.stop ≤ maxOffset
  · rw [if_neg (fun h => isNone_stop?_iff.mp h hfit)]
    cases script.body.span.isEmpty <;> cases script.callSite.span.strictlyContains start <;>
      simp [hfit, eq_comm]
  · rw [if_pos (isNone_stop?_iff.mpr hfit)]
    simp [hfit]

end Assist.Extraction.Script
