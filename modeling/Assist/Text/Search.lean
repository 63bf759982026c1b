/-!
# Searching text

Splitting a text at the first place where another text stands, and taking a known start or end off
it. Each search returns the pieces around the place it found rather than an offset, so nothing is
lost and no offset has to be turned back into a cut.
-/

namespace Assist.Text

/-- What follows `start` in `cs`, if `cs` begins with it. -/
def stripStart? : List Char → List Char → Option (List Char)
  | [], cs => some cs
  | _ :: _, [] => none
  | p :: ps, c :: cs => if p = c then stripStart? ps cs else none

/-- What stands before `ending` in `cs`, if `cs` ends with it. -/
def stripEnd? (ending cs : List Char) : Option (List Char) :=
  (stripStart? ending.reverse cs.reverse).map List.reverse

/-- Split `cs` at the first occurrence of `needle`: what stands before it, and what begins with
it. -/
def splitAtFirst? (needle : List Char) : List Char → Option (List Char × List Char)
  | [] => if needle = [] then some ([], []) else none
  | c :: cs =>
    if (stripStart? needle (c :: cs)).isSome then some ([], c :: cs)
    else (splitAtFirst? needle cs).map fun (before, found) => (c :: before, found)

/-- Split `cs` at the first character that satisfies `p`: what stands before it, the character,
and what follows it. -/
def splitAtChar? (p : Char → Bool) : List Char → Option (List Char × Char × List Char)
  | [] => none
  | c :: cs =>
    if p c then some ([], c, cs)
    else (splitAtChar? p cs).map fun (before, found, after) => (c :: before, found, after)

/-- What follows the last `c` of `cs`, or all of `cs` if there is none. -/
def afterLast (c : Char) (cs : List Char) : List Char :=
  (cs.reverse.takeWhile (· != c)).reverse

theorem stripStart?_eq_some_iff {ps cs rest : List Char} :
    stripStart? ps cs = some rest ↔ cs = ps ++ rest := by
  induction ps generalizing cs with
  | nil => simp [stripStart?]
  | cons p ps ih =>
    cases cs with
    | nil => simp [stripStart?]
    | cons c cs =>
      by_cases h : p = c
      · simp [stripStart?, h, ih]
      · simp [stripStart?, h, Ne.symm h]

theorem stripEnd?_eq_some_iff {ending cs before : List Char} :
    stripEnd? ending cs = some before ↔ cs = before ++ ending := by
  simp only [stripEnd?, Option.map_eq_some_iff, stripStart?_eq_some_iff]
  constructor
  · rintro ⟨rest, hrest, rfl⟩
    rw [← List.reverse_reverse cs, hrest]
    simp
  · rintro rfl
    exact ⟨before.reverse, by simp, by simp⟩

/-- A split at a text keeps every character, and its second part begins with the text. -/
theorem splitAtFirst?_eq_append {needle cs before found : List Char}
    (h : splitAtFirst? needle cs = some (before, found)) :
    cs = before ++ found ∧ ∃ rest, found = needle ++ rest := by
  induction cs generalizing before found with
  | nil =>
    simp only [splitAtFirst?] at h
    split at h
    · rename_i hn
      simp at h
      simp [h, hn]
    · simp at h
  | cons c cs ih =>
    simp only [splitAtFirst?] at h
    split at h
    · rename_i hs
      simp at h
      obtain ⟨rfl, rfl⟩ := h
      obtain ⟨rest, hr⟩ := Option.isSome_iff_exists.1 hs
      exact ⟨rfl, rest, stripStart?_eq_some_iff.1 hr⟩
    · obtain ⟨⟨a, b⟩, hab, hxy⟩ := Option.map_eq_some_iff.1 h
      obtain ⟨rfl, hb⟩ := ih hab
      simp only [Prod.mk.injEq] at hxy
      obtain ⟨rfl, rfl⟩ := hxy
      exact ⟨rfl, hb⟩

end Assist.Text
