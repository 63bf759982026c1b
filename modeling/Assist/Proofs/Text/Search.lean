import Assist.Text.Search
import Mathlib.Data.List.Infix

/-!
# The first place of a text

A search finds nothing exactly if the text it looks for stands nowhere
(`splitAtFirst?_eq_none_iff`). Where a found text begins, nothing that begins before can reach into
it if its first character does not occur in it again, as in a keyword or a brace at the end of a
line. So the place found is the only one with no occurrence in front of it
(`splitAtFirst?_eq_some_iff`).
-/

namespace Assist.Text

theorem isSome_stripStart?_iff {needle cs : List Char} :
    (stripStart? needle cs).isSome = true ↔ needle <+: cs := by
  rw [Option.isSome_iff_exists]
  exact exists_congr fun rest => stripStart?_eq_some_iff.trans eq_comm

theorem splitAtFirst?_of_isPrefix {needle cs : List Char} (h : needle <+: cs) :
    splitAtFirst? needle cs = some ([], cs) := by
  cases cs with
  | nil => simp [splitAtFirst?, List.prefix_nil.mp h]
  | cons c cs => rw [splitAtFirst?, if_pos (isSome_stripStart?_iff.mpr h)]

theorem splitAtFirst?_cons_of_not {needle cs : List Char} {c : Char} (h : ¬needle <+: c :: cs) :
    splitAtFirst? needle (c :: cs) =
      (splitAtFirst? needle cs).map fun (before, found) => (c :: before, found) := by
  rw [splitAtFirst?, if_neg (isSome_stripStart?_iff.not.mpr h)]

/-- A search fails exactly if the text stands nowhere. -/
theorem splitAtFirst?_eq_none_iff {needle cs : List Char} :
    splitAtFirst? needle cs = none ↔ ¬needle <:+: cs := by
  induction cs with
  | nil => simp [splitAtFirst?]
  | cons c cs ih =>
    rw [List.infix_cons_iff, not_or]
    by_cases h : needle <+: c :: cs
    · simp [splitAtFirst?_of_isPrefix h, h]
    · rw [splitAtFirst?_cons_of_not h, Option.map_eq_none_iff, ih]
      simp [h]

section FirstCharacter

variable {p : Char} {ps : List Char}

/-- An occurrence does not begin where its first character does not stand. -/
theorem infix_of_infix_append {xs ys : List Char} (hp : p ∉ xs) (h : p :: ps <:+: xs ++ ys) :
    p :: ps <:+: ys := by
  induction xs with
  | nil => exact h
  | cons x xs ih =>
    rw [List.mem_cons, not_or] at hp
    rw [List.cons_append, List.infix_cons_iff] at h
    rcases h with h | h
    · exact absurd (List.cons_prefix_cons.mp h).1 hp.1
    · exact ih hp.2 h

/-- An occurrence that begins before another one ends before it. -/
theorem isPrefix_of_isPrefix_append (hp : p ∉ ps) {xs found : List Char} (hxs : xs ≠ [])
    (hfound : p :: ps <+: found) (h : p :: ps <+: xs ++ found) : p :: ps <+: xs := by
  obtain ⟨rest, hrest⟩ := h
  rcases List.append_eq_append_iff.mp hrest with ⟨gap, rfl, -⟩ | ⟨tail, htail, rfl⟩
  · exact List.prefix_append _ _
  · obtain ⟨x, xs, rfl⟩ := List.exists_cons_of_ne_nil hxs
    rw [List.cons_append, List.cons.injEq] at htail
    cases tail with
    | nil => rw [htail.1, htail.2, List.append_nil]
    | cons t tail =>
      -- what reaches into the second occurrence begins with its first character
      have ht : p = t := (List.cons_prefix_cons.mp hfound).1
      refine absurd ?_ hp
      rw [htail.2, ht]
      simp

/-- **The first place.** A search splits a text where the text that it looks for stands and has not
stood before. -/
theorem splitAtFirst?_eq_some_iff (hp : p ∉ ps) {cs before found : List Char} :
    splitAtFirst? (p :: ps) cs = some (before, found) ↔
      cs = before ++ found ∧ p :: ps <+: found ∧ ¬p :: ps <:+: before := by
  induction cs generalizing before with
  | nil =>
    simp only [splitAtFirst?, reduceCtorEq, if_false, false_iff, not_and]
    intro happend hstarts
    rw [(List.append_eq_nil_iff.mp happend.symm).2] at hstarts
    exact absurd (List.prefix_nil.mp hstarts) (List.cons_ne_nil p ps)
  | cons c cs ih =>
    by_cases h : p :: ps <+: c :: cs
    · rw [splitAtFirst?_of_isPrefix h, Option.some.injEq, Prod.mk.injEq]
      constructor
      · rintro ⟨rfl, rfl⟩
        exact ⟨rfl, h, by simp⟩
      · rintro ⟨happend, hfound, hbefore⟩
        cases before with
        | nil => exact ⟨rfl, happend⟩
        | cons b before =>
          rw [happend] at h
          have hfirst := isPrefix_of_isPrefix_append hp (List.cons_ne_nil b before) hfound h
          exact absurd hfirst.isInfix hbefore
    · rw [splitAtFirst?_cons_of_not h, Option.map_eq_some_iff]
      constructor
      · rintro ⟨⟨front, found'⟩, hsplit, heq⟩
        rw [Prod.mk.injEq] at heq
        obtain ⟨rfl, rfl⟩ := heq
        obtain ⟨rfl, hfound, hbefore⟩ := ih.mp hsplit
        refine ⟨rfl, hfound, ?_⟩
        rw [List.infix_cons_iff, not_or]
        refine ⟨fun hstarts => h ?_, hbefore⟩
        exact hstarts.trans (List.prefix_append (c :: front) found')
      · rintro ⟨happend, hfound, hbefore⟩
        cases before with
        | nil =>
          rw [List.nil_append] at happend
          rw [happend] at h
          exact absurd hfound h
        | cons b before =>
          rw [List.cons_append, List.cons.injEq] at happend
          rw [List.infix_cons_iff, not_or] at hbefore
          exact ⟨(before, found), ih.mpr ⟨happend.2, hfound, hbefore.2⟩, by rw [happend.1]⟩

end FirstCharacter

/-- A text with a character in it is split before the first one. -/
theorem splitAtFirst?_char {c : Char} {xs : List Char} (h : c ∉ xs) (ys : List Char) :
    splitAtFirst? [c] (xs ++ c :: ys) = some (xs, c :: ys) := by
  refine (splitAtFirst?_eq_some_iff List.not_mem_nil).mpr ⟨rfl, ?_, ?_⟩
  · exact List.prefix_append [c] ys
  · rwa [List.singleton_infix_iff]

/-- Where a character stands in a text behind a part without it, it stands in the rest. -/
theorem exists_append_of_not_mem {c : Char} {front rest before after : List Char}
    (hfront : c ∉ front) (h : front ++ rest = before ++ c :: after) :
    ∃ gap, before = front ++ gap ∧ rest = gap ++ c :: after := by
  rcases List.append_eq_append_iff.mp h with ⟨gap, hbefore, hrest⟩ | ⟨gap, hsplit, hrest⟩
  · exact ⟨gap, hbefore, hrest⟩
  · cases gap with
    | nil => exact ⟨[], by simpa using hsplit.symm, by simpa using hrest.symm⟩
    | cons d gap =>
      obtain ⟨rfl, -⟩ := List.cons.inj hrest
      exact absurd (by rw [hsplit]; simp) hfront

/-- A text is split at the first character of a kind. -/
theorem splitAtChar?_eq_some_iff {p : Char → Bool} {cs before after : List Char} {c : Char} :
    splitAtChar? p cs = some (before, c, after) ↔
      cs = before ++ c :: after ∧ p c = true ∧ ∀ d ∈ before, p d = false := by
  induction cs generalizing before with
  | nil => simp [splitAtChar?]
  | cons d cs ih =>
    rw [splitAtChar?]
    cases hd : p d with
    | true =>
      rw [if_pos rfl, Option.some.injEq, Prod.mk.injEq, Prod.mk.injEq]
      constructor
      · rintro ⟨rfl, rfl, rfl⟩
        exact ⟨rfl, hd, by simp⟩
      · rintro ⟨happend, hc, hbefore⟩
        cases before with
        | nil =>
          obtain ⟨rfl, rfl⟩ := List.cons.inj happend
          exact ⟨rfl, rfl, rfl⟩
        | cons b before =>
          obtain ⟨rfl, -⟩ := List.cons.inj happend
          rw [hbefore d List.mem_cons_self] at hd
          exact absurd hd Bool.false_ne_true
    | false =>
      rw [if_neg Bool.false_ne_true, Option.map_eq_some_iff]
      constructor
      · rintro ⟨⟨front, c', after'⟩, hsplit, heq⟩
        rw [Prod.mk.injEq, Prod.mk.injEq] at heq
        obtain ⟨rfl, rfl, rfl⟩ := heq
        obtain ⟨rfl, hc, hfront⟩ := ih.mp hsplit
        exact ⟨rfl, hc, List.forall_mem_cons.mpr ⟨hd, hfront⟩⟩
      · rintro ⟨happend, hc, hbefore⟩
        cases before with
        | nil =>
          obtain ⟨rfl, -⟩ := List.cons.inj happend
          rw [hd] at hc
          exact absurd hc Bool.false_ne_true
        | cons b before =>
          obtain ⟨rfl, hrest⟩ := List.cons.inj happend
          have hfront := (List.forall_mem_cons.mp hbefore).2
          exact ⟨(before, c, after), ih.mpr ⟨hrest, hc, hfront⟩, rfl⟩

/-! ## The part after the last occurrence of a character -/

theorem not_mem_afterLast (c : Char) (cs : List Char) : c ∉ afterLast c cs := by
  intro hmem
  have hall := List.all_eq_true.mp (List.all_takeWhile (p := (· != c)) (l := cs.reverse))
  simpa using hall c (List.mem_reverse.mp hmem)

/-- The part after the last `c` is a given one if it has no `c` and what stands before it is empty
or ends with `c`. -/
theorem afterLast_append {c : Char} {front cs : List Char} (hfront : ∀ d ∈ front.getLast?, d = c)
    (hcs : c ∉ cs) : afterLast c (front ++ cs) = cs := by
  have hall : ∀ d ∈ cs.reverse, (d != c) = true := by
    intro d hd
    rw [bne_iff_ne]
    rintro rfl
    exact hcs (List.mem_reverse.mp hd)
  have hstop : front.reverse.takeWhile (· != c) = [] := by
    rcases List.eq_nil_or_concat front with rfl | ⟨start, d, rfl⟩
    · rfl
    · obtain rfl : d = c := hfront d (by simp)
      simp
  rw [afterLast, List.reverse_append, List.takeWhile_append_of_pos hall, hstop, List.append_nil,
    List.reverse_reverse]

end Assist.Text
