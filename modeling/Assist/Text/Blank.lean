/-!
# Blank characters

A character is blank when it has the Unicode property `White_Space`. Trimming and the leading
whitespace of a text are about blank characters, so they cover the wide spaces and the line and
paragraph separators as well as the ASCII ones.
-/

namespace Assist.Text

/-- The characters with the Unicode property `White_Space`. -/
def isBlank (c : Char) : Bool :=
  let n := c.toNat
  (9 ≤ n && n ≤ 13) || n == 0x20 || n == 0x85 || n == 0xA0 || n == 0x1680
    || (0x2000 ≤ n && n ≤ 0x200A) || n == 0x2028 || n == 0x2029 || n == 0x202F || n == 0x205F
    || n == 0x3000

/-- The blank characters at the start of `cs`, newlines included. -/
def leadingBlank (cs : List Char) : List Char := cs.takeWhile isBlank

/-- `cs` without the blank characters at its start. -/
def trimStart (cs : List Char) : List Char := cs.dropWhile isBlank

/-- `cs` without the characters at its end that satisfy `p`. -/
def trimEndBy (p : Char → Bool) (cs : List Char) : List Char :=
  (cs.reverse.dropWhile p).reverse

/-- `cs` without the blank characters at its end. -/
def trimEnd (cs : List Char) : List Char := trimEndBy isBlank cs

/-- `cs` without the blank characters at either end. -/
def trim (cs : List Char) : List Char := trimEnd (trimStart cs)

/-- Whether every character of `cs` is blank. -/
def allBlank (cs : List Char) : Bool := cs.all isBlank

/-- The leading blanks and the trimmed rest make up the text. -/
theorem leadingBlank_append_trimStart (cs : List Char) : leadingBlank cs ++ trimStart cs = cs :=
  List.takeWhile_append_dropWhile

theorem allBlank_cons_iff {c : Char} {cs : List Char} :
    allBlank (c :: cs) = true ↔ isBlank c = true ∧ allBlank cs = true := by
  rw [allBlank, List.all_cons, Bool.and_eq_true, allBlank]

theorem allBlank_append (xs ys : List Char) : allBlank (xs ++ ys) = (allBlank xs && allBlank ys) :=
  List.all_append

end Assist.Text
