import Assist.Text.Bytes
import Assist.Text.Search

/-!
# Cuts and boundaries

A byte offset is a boundary of a text exactly when the text splits there, and the split is unique
(`append_inj_of_byteLen`). So a cut of a longer text can be read off a cut of its end (`cut?_add`),
and a text stands at an offset (`StandsAt`) when the bytes from that offset on begin with it.
-/

namespace Assist.Text

/-- A text splits in at most one way after a given number of bytes. -/
theorem append_inj_of_byteLen {xs ys xs' ys' : List Char} (h : xs ++ ys = xs' ++ ys')
    (hlen : byteLen xs = byteLen xs') : xs = xs' ∧ ys = ys' := by
  have h1 : cut? (byteLen xs) (xs ++ ys) = some (xs, ys) := cut?_append xs ys
  have h2 : cut? (byteLen xs) (xs ++ ys) = some (xs', ys') := by
    rw [h, hlen]
    exact cut?_append xs' ys'
  rw [h1] at h2
  simpa using h2

/-- Two front parts of one text with the same number of bytes end at the same place. -/
theorem eq_of_byteLen_take_eq {m n : Nat} {cs : List Char} (hm : m ≤ cs.length)
    (hn : n ≤ cs.length) (h : byteLen (cs.take m) = byteLen (cs.take n)) : m = n := by
  have happend : cs.take m ++ cs.drop m = cs.take n ++ cs.drop n := by
    rw [List.take_append_drop, List.take_append_drop]
  have hfront := congrArg List.length (append_inj_of_byteLen happend h).1
  rw [List.length_take, List.length_take] at hfront
  omega

/-- A boundary is the number of bytes of some initial part of the text. -/
theorem isBoundary_iff {n : Nat} {cs : List Char} :
    isBoundary n cs = true ↔ ∃ xs ys, cs = xs ++ ys ∧ byteLen xs = n := by
  unfold isBoundary
  rw [Option.isSome_iff_exists]
  constructor
  · rintro ⟨⟨xs, ys⟩, h⟩
    exact ⟨xs, ys, eq_append_of_cut? h⟩
  · rintro ⟨xs, ys, h, hn⟩
    exact ⟨(xs, ys), cut?_eq_some_iff.mpr ⟨h, hn⟩⟩

/-- A cut past the bytes of a first part is a cut of what follows that part. -/
theorem cut?_add (xs ys : List Char) (n : Nat) :
    cut? (byteLen xs + n) (xs ++ ys) = (cut? n ys).map fun p => (xs ++ p.1, p.2) := by
  cases h : cut? n ys with
  | some p =>
    obtain ⟨as, bs⟩ := p
    obtain ⟨rfl, rfl⟩ := eq_append_of_cut? h
    rw [Option.map_some, cut?_eq_some_iff]
    exact ⟨by simp, by simp⟩
  | none =>
    rw [Option.map_none, Option.eq_none_iff_forall_ne_some]
    rintro ⟨as, bs⟩ hcut
    obtain ⟨heq, hlen⟩ := eq_append_of_cut? hcut
    -- the first part of the longer cut reaches past `xs`, so its end is a cut of `ys`
    rcases List.append_eq_append_iff.mp heq with ⟨ms, rfl, hys⟩ | ⟨ms, hxs, -⟩
    · have hcutys : cut? n ys = some (ms, bs) :=
        cut?_eq_some_iff.mpr ⟨hys, by simp at hlen; omega⟩
      rw [h] at hcutys
      exact absurd hcutys (by simp)
    · have hn : n = 0 := by
        rw [hxs] at hlen
        simp at hlen
        omega
      rw [hn, cut?_zero] at h
      exact absurd h (by simp)

/-- The boundaries of a text past a first part are the boundaries of what follows that part. -/
theorem isBoundary_append {xs ys : List Char} (n : Nat) :
    isBoundary (byteLen xs + n) (xs ++ ys) = isBoundary n ys := by
  simp [isBoundary, cut?_add]

/-- There is no boundary inside a character. -/
theorem isBoundary_cons_iff_of_lt {n : Nat} {c : Char} {cs : List Char} (h : n < c.utf8Size) :
    isBoundary n (c :: cs) = true ↔ n = 0 := by
  cases n with
  | zero => simp [isBoundary]
  | succ n =>
    have hcut : cut? (n + 1) (c :: cs) = none := by
      rw [cut?]
      exact if_neg (by omega)
    simp [isBoundary, hcut]

/-- One byte before the end of a part of a text, or at its start if it is empty, is a boundary
exactly if the part does not end with a character of more bytes. -/
theorem isBoundary_before_last_byte_iff {before part after : List Char} :
    isBoundary (byteLen before + max (byteLen part) 1 - 1) (before ++ part ++ after) = true ↔
      ∀ c ∈ part.getLast?, c.utf8Size = 1 := by
  rcases List.eq_nil_or_concat part with rfl | ⟨front, c, rfl⟩
  · have hstart := isBoundary_iff.mpr ⟨before, after, rfl, rfl⟩
    simpa using hstart
  · have hpos := c.utf8Size_pos
    have hlen : byteLen before + max (byteLen (front ++ [c])) 1 - 1 =
        byteLen (before ++ front) + (c.utf8Size - 1) := by
      simp only [byteLen_append, byteLen_cons, byteLen_nil]
      omega
    have htext : before ++ (front ++ [c]) ++ after = before ++ front ++ c :: after := by simp
    rw [List.concat_eq_append, hlen, htext, isBoundary_append,
      isBoundary_cons_iff_of_lt (Nat.sub_lt hpos Nat.one_pos)]
    simp only [List.getLast?_concat, Option.mem_some_iff, forall_eq']
    omega

/-- `piece` stands in `text` at the byte offset `offset`. -/
def StandsAt (piece : List Char) (offset : Nat) (text : List Char) : Prop :=
  ∃ before after, text = before ++ piece ++ after ∧ byteLen before = offset

/-- A piece that stands in a middle part of a text stands in the text. -/
theorem StandsAt.within {piece text : List Char} {offset : Nat} (h : StandsAt piece offset text)
    (before after : List Char) :
    StandsAt piece (byteLen before + offset) (before ++ text ++ after) := by
  obtain ⟨pre, post, rfl, rfl⟩ := h
  exact ⟨before ++ pre, post ++ after, by simp, by simp⟩

/-- A piece stands at an offset exactly when the text can be cut there and goes on with it. -/
theorem standsAt_iff {piece text : List Char} {offset : Nat} :
    StandsAt piece offset text ↔
      ((cut? offset text).any fun p => (stripStart? piece p.2).isSome) = true := by
  rw [Option.any_eq_true]
  constructor
  · rintro ⟨before, after, htext, hlen⟩
    refine ⟨(before, piece ++ after), cut?_eq_some_iff.mpr ⟨by simp [htext], hlen⟩, ?_⟩
    exact Option.isSome_iff_exists.mpr ⟨after, stripStart?_eq_some_iff.mpr rfl⟩
  · rintro ⟨⟨before, tail⟩, hcut, hstrip⟩
    obtain ⟨after, hafter⟩ := Option.isSome_iff_exists.mp hstrip
    obtain ⟨htext, hlen⟩ := eq_append_of_cut? hcut
    have htail : tail = piece ++ after := stripStart?_eq_some_iff.mp hafter
    exact ⟨before, after, by rw [htext, htail]; simp, hlen⟩

instance (piece text : List Char) (offset : Nat) : Decidable (StandsAt piece offset text) :=
  decidable_of_iff _ standsAt_iff.symm

end Assist.Text
