import Assist.Text.Blank
import Mathlib.Data.List.DropRight

/-!
# Trimmed texts

A text is trimmed, `trim cs = cs`, when it neither starts nor ends with a blank character
(`trim_eq_self_iff`). Trimming takes off exactly the blanks around such a text (`trim_pad`).
-/

namespace Assist.Text

theorem trimStart_eq_self_iff {cs : List Char} :
    trimStart cs = cs ↔ ∀ c ∈ cs.head?, isBlank c = false := by
  cases cs with
  | nil => simp [trimStart]
  | cons c cs =>
    simp only [List.head?_cons, Option.mem_some_iff, forall_eq']
    constructor
    · intro h
      cases hblank : isBlank c with
      | false => rfl
      | true =>
        -- one character less, and then no more than what is left
        have hdrop : trimStart (c :: cs) = cs.dropWhile isBlank := List.dropWhile_cons_of_pos hblank
        have hlen := (List.dropWhile_sublist isBlank (l := cs)).length_le
        rw [← hdrop, h, List.length_cons] at hlen
        omega
    · intro hblank
      exact List.dropWhile_cons_of_neg (by simp [hblank])

theorem trimEnd_eq_self_iff {cs : List Char} :
    trimEnd cs = cs ↔ ∀ c ∈ cs.getLast?, isBlank c = false := by
  have hreverse : trimEnd cs = cs ↔ trimStart cs.reverse = cs.reverse := by
    unfold trimEnd trimEndBy trimStart
    exact List.reverse_eq_iff
  rw [hreverse, trimStart_eq_self_iff, List.head?_reverse]

theorem trimStart_cons {c : Char} (hc : isBlank c = false) (cs : List Char) :
    trimStart (c :: cs) = c :: cs :=
  trimStart_eq_self_iff.mpr (by simpa using hc)

theorem trimEnd_concat {c : Char} (hc : isBlank c = false) (cs : List Char) :
    trimEnd (cs ++ [c]) = cs ++ [c] :=
  trimEnd_eq_self_iff.mpr (by simpa using hc)

theorem trimStart_append_of_blank {ws : List Char} (h : allBlank ws = true) (cs : List Char) :
    trimStart (ws ++ cs) = trimStart cs :=
  List.dropWhile_append_of_pos (List.all_eq_true.mp h)

/-- Only the start of a text is trimmed if what stands behind it does not start with a blank. -/
theorem trimStart_append_cons (xs : List Char) {c : Char} (hc : isBlank c = false)
    (cs : List Char) : trimStart (xs ++ c :: cs) = trimStart xs ++ c :: cs := by
  unfold trimStart
  rw [List.dropWhile_append, List.dropWhile_cons_of_neg (by simp [hc])]
  split
  · rename_i hnil
    rw [List.isEmpty_iff.mp hnil, List.nil_append]
  · rfl

theorem trimStart_space (cs : List Char) : trimStart (' ' :: cs) = trimStart cs :=
  trimStart_append_of_blank (by decide : allBlank [' '] = true) cs

theorem trimEnd_append_of_blank {ws : List Char} (h : allBlank ws = true) (cs : List Char) :
    trimEnd (cs ++ ws) = trimEnd cs := by
  unfold trimEnd trimEndBy
  rw [List.reverse_append, List.dropWhile_append_of_pos]
  intro c hc
  exact List.all_eq_true.mp h c (List.mem_reverse.mp hc)

/-- Only the end of a text is trimmed if what stands before it does not end with a blank. -/
theorem trimEnd_append {xs : List Char} (hxs : ∀ c ∈ xs.getLast?, isBlank c = false)
    (ys : List Char) : trimEnd (xs ++ ys) = xs ++ trimEnd ys := by
  have hself : (xs.reverse.dropWhile isBlank).reverse = xs := trimEnd_eq_self_iff.mpr hxs
  unfold trimEnd trimEndBy
  rw [List.reverse_append, List.dropWhile_append]
  split
  · rename_i hnil
    rw [hself, List.isEmpty_iff.mp hnil, List.reverse_nil, List.append_nil]
  · rw [List.reverse_append, List.reverse_reverse]

/-- Between two characters that are not blank nothing is trimmed. -/
theorem trim_append_concat (xs : List Char) {b c : Char} (hb : isBlank b = false)
    (hc : isBlank c = false) (cs : List Char) :
    trim (xs ++ b :: (cs ++ [c])) = trimStart xs ++ b :: (cs ++ [c]) := by
  have hend := trimEnd_concat hc (trimStart xs ++ b :: cs)
  rw [List.append_assoc, List.cons_append] at hend
  rw [trim, trimStart_append_cons xs hb, hend]

/-- A text is trimmed if it neither starts nor ends with a blank character. -/
theorem trim_eq_self_iff {cs : List Char} :
    trim cs = cs ↔ (∀ c ∈ cs.head?, isBlank c = false) ∧ ∀ c ∈ cs.getLast?, isBlank c = false := by
  rw [← trimStart_eq_self_iff, ← trimEnd_eq_self_iff]
  constructor
  · intro h
    have hend : (trimEnd (trimStart cs)).length ≤ (trimStart cs).length := by
      unfold trimEnd trimEndBy
      have hlen := (List.dropWhile_sublist isBlank (l := (trimStart cs).reverse)).length_le
      rw [List.length_reverse] at hlen ⊢
      exact hlen
    have hsub : (trimStart cs).Sublist cs := List.dropWhile_sublist isBlank
    have hstart : trimStart cs = cs := by
      refine hsub.eq_of_length_le ?_
      rw [show trimEnd (trimStart cs) = cs from h] at hend
      exact hend
    refine ⟨hstart, ?_⟩
    rw [trim, hstart] at h
    exact h
  · rintro ⟨hstart, hend⟩
    rw [trim, hstart, hend]

theorem head?_trimEnd {cs : List Char} {c : Char} (h : c ∈ (trimEnd cs).head?) : c ∈ cs.head? := by
  obtain ⟨ws, hws⟩ : trimEnd cs <+: cs := List.rdropWhile_prefix isBlank cs
  rw [← hws, List.head?_append, Option.mem_def.mp h]
  exact Option.mem_def.mpr rfl

theorem trim_trim (cs : List Char) : trim (trim cs) = trim cs := by
  rw [trim_eq_self_iff]
  constructor
  · intro c hc
    have hself : trimStart (trimStart cs) = trimStart cs := List.dropWhile_idempotent isBlank cs
    exact trimStart_eq_self_iff.mp hself c (head?_trimEnd hc)
  · exact trimEnd_eq_self_iff.mp (List.rdropWhile_idempotent isBlank (trimStart cs))

/-- Trimming takes the blanks off a trimmed text. -/
theorem trim_pad (ws ws' : List Char) {cs : List Char} (hws : allBlank ws = true)
    (hws' : allBlank ws' = true) (hcs : trim cs = cs) : trim (ws ++ cs ++ ws') = cs := by
  obtain ⟨hstart, hend⟩ := trim_eq_self_iff.mp hcs
  rw [trim, List.append_assoc, trimStart_append_of_blank hws]
  cases cs with
  | nil =>
    rw [List.nil_append]
    have hnil : trimStart ws' = [] := by
      simpa [trimStart] using trimStart_append_of_blank hws' []
    rw [hnil]
    rfl
  | cons c cs =>
    have hhead : trimStart (c :: cs ++ ws') = c :: cs ++ ws' := trimStart_cons (hstart c rfl) _
    rw [hhead, trimEnd_append_of_blank hws']
    exact trimEnd_eq_self_iff.mpr hend

/-- What trimming takes off a text is blank. -/
theorem exists_eq_append_trim (cs : List Char) :
    ∃ lead trail, cs = lead ++ trim cs ++ trail ∧ allBlank lead = true ∧ allBlank trail = true := by
  have hend : trim cs ++ ((trimStart cs).reverse.takeWhile isBlank).reverse = trimStart cs := by
    rw [trim, trimEnd, trimEndBy, ← List.reverse_append, List.takeWhile_append_dropWhile,
      List.reverse_reverse]
  refine ⟨leadingBlank cs, ((trimStart cs).reverse.takeWhile isBlank).reverse, ?_,
    List.all_takeWhile, ?_⟩
  · rw [List.append_assoc, hend, leadingBlank_append_trimStart]
  · rw [allBlank, List.all_reverse]
    exact List.all_takeWhile

/-- The blank of a separator goes, and a trimmed text is left. -/
theorem trim_space {cs : List Char} (h : trim cs = cs) : trim (' ' :: cs) = cs := by
  rw [trim, trimStart_space]
  exact h

end Assist.Text
