/-!
# Numbers in decimal

How a natural number is written: its decimal digits, without a sign or leading zeros.
-/

namespace Assist.Text

/-- A number in decimal. -/
def decimal (n : Nat) : String := String.ofList (Nat.toDigits 10 n)

end Assist.Text
