/-!
# Faults

A syntax tree comes from outside, so its offsets need not fit its text. Taking text apart at such an
offset, or adding to it, has no answer, and neither has reading a list past its end; a `Fault` says
which of these went wrong. The functions that can meet one return it, and every other function of
the library is total.
-/

namespace Assist

/-- Why an offset or an index could not be used. -/
inductive Fault where
  /-- A text was to be cut inside one of its characters. -/
  | splitCharacter
  /-- An offset was to be moved past the largest offset. -/
  | offsetOverflow
  /-- A list was to be read or changed at an index that it does not have. -/
  | outOfRange
  deriving DecidableEq, Repr

end Assist
