import Assist.Text.Decimal

/-!
# Names that are not taken

A new name is a base, or the base with the first number that makes a name that is not taken. The
search tries a fixed number of numbers and keeps the last name if all are taken.
-/

namespace Assist.Extraction

/-- How many numbers are tried. -/
def maxNameAttempts : Nat := 10000

/-- The name made from a base and a number. -/
def numbered (base : String) (n : Nat) : String :=
  base ++ "_" ++ Text.decimal n

/-- The first name that is not taken among those with a number from `n` on, or the last of the
`attempts + 1` names that are tried. -/
def firstFree (taken : String → Bool) (base : String) : Nat → Nat → String
  | 0, n => numbered base n
  | attempts + 1, n =>
    if taken (numbered base n) then firstFree taken base attempts (n + 1) else numbered base n

/-- The base, or the base with a number, such that the name is not taken. -/
def freshName (taken : String → Bool) (base : String) : String :=
  if taken base then firstFree taken base (maxNameAttempts - 1) 1 else base

end Assist.Extraction
