/-!
# Byte offsets into text

Positions in a file are byte offsets into its UTF-8 form. The functions here work on the list of
characters of a text: `cut? n cs` splits `cs` after exactly `n` bytes, and there is no such split
when the offset falls inside a character or past the end of the text. Every other notion of a
character boundary in the library is stated through `cut?`.
-/

namespace Assist.Text

/-- A byte offset into a file, or a length in bytes. -/
abbrev Offset := UInt32

/-- The largest byte offset. -/
def maxOffset : Nat := 4294967295

/-- The number of bytes that `cs` takes in UTF-8. -/
def byteLen : List Char → Nat
  | [] => 0
  | c :: cs => c.utf8Size + byteLen cs

/-- The bytes of `cs` in UTF-8. -/
def utf8 (cs : List Char) : List UInt8 := cs.flatMap String.utf8EncodeChar

/-- Split `cs` after exactly `n` bytes, if that is a character boundary within `cs`. -/
def cut? : Nat → List Char → Option (List Char × List Char)
  | 0, cs => some ([], cs)
  | _ + 1, [] => none
  | n + 1, c :: cs =>
    if c.utf8Size ≤ n + 1 then
      (cut? (n + 1 - c.utf8Size) cs).map fun (before, after) => (c :: before, after)
    else none

/-- Whether `n` is a character boundary of `cs`: its start, its end or a point between two
characters. -/
def isBoundary (n : Nat) (cs : List Char) : Bool := (cut? n cs).isSome

/-- The characters between the byte offsets `start` and `stop`, if both are boundaries and in
order. -/
def slice? (start stop : Nat) (cs : List Char) : Option (List Char) := do
  guard (start ≤ stop)
  let (_, tail) ← cut? start cs
  let (middle, _) ← cut? (stop - start) tail
  return middle

@[simp] theorem byteLen_nil : byteLen [] = 0 := rfl

@[simp] theorem byteLen_cons (c : Char) (cs : List Char) :
    byteLen (c :: cs) = c.utf8Size + byteLen cs := rfl

@[simp] theorem byteLen_append (xs ys : List Char) :
    byteLen (xs ++ ys) = byteLen xs + byteLen ys := by
  induction xs with
  | nil => simp
  | cons c cs ih => simp [ih, Nat.add_assoc]

@[simp] theorem cut?_zero (cs : List Char) : cut? 0 cs = some ([], cs) := by
  cases cs <;> rfl

/-- Cutting after the bytes of a first part gives that part and the rest. -/
theorem cut?_append (xs ys : List Char) : cut? (byteLen xs) (xs ++ ys) = some (xs, ys) := by
  induction xs with
  | nil => simp
  | cons c cs ih =>
    have hpos : 0 < c.utf8Size := c.utf8Size_pos
    obtain ⟨k, hk⟩ : ∃ k, byteLen (c :: cs) = k + 1 :=
      ⟨c.utf8Size + byteLen cs - 1, by simp; omega⟩
    have hlen : c.utf8Size + byteLen cs = k + 1 := by simpa using hk
    have hrest : k + 1 - c.utf8Size = byteLen cs := by omega
    rw [hk, List.cons_append, cut?, if_pos (by omega), hrest, ih]
    rfl

/-- A cut keeps every character, and its first part has the asked number of bytes. -/
theorem eq_append_of_cut? {n : Nat} {cs xs ys : List Char} (h : cut? n cs = some (xs, ys)) :
    cs = xs ++ ys ∧ byteLen xs = n := by
  induction cs generalizing n xs ys with
  | nil =>
    cases n with
    | zero => simp at h; simp [h]
    | succ n => simp [cut?] at h
  | cons c cs ih =>
    cases n with
    | zero => simp at h; simp [h]
    | succ n =>
      rw [cut?] at h
      split at h
      · rename_i hle
        obtain ⟨⟨a, b⟩, hab, hxy⟩ := Option.map_eq_some_iff.1 h
        obtain ⟨rfl, hlen⟩ := ih hab
        simp only [Prod.mk.injEq] at hxy
        obtain ⟨rfl, rfl⟩ := hxy
        refine ⟨rfl, ?_⟩
        simp only [byteLen_cons, hlen]
        omega
      · simp at h

/-- A cut at `n` exists exactly for a split of the text whose first part has `n` bytes. -/
theorem cut?_eq_some_iff {n : Nat} {cs xs ys : List Char} :
    cut? n cs = some (xs, ys) ↔ cs = xs ++ ys ∧ byteLen xs = n :=
  ⟨eq_append_of_cut?, fun ⟨h, hn⟩ => by rw [h, ← hn]; exact cut?_append xs ys⟩

end Assist.Text
