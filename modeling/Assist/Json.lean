/-!
# JSON values

A number is an integer or a decimal: the two are told apart by how they are written, not by their
value, so `1` and `1.0` are different values. The fields of an object are in the order in which they
were written.
-/

namespace Assist

/-- The number `mantissa * 10 ^ exponent`. -/
structure Decimal where
  mantissa : Int
  exponent : Int
  deriving DecidableEq, Repr

namespace Decimal

/-- The least number that is too large for an IEEE 754 double: it would be rounded to a power of two
that is out of range. -/
def doubleLimit : Nat := Nat.pow 2 1024 - Nat.pow 2 970

/-- Whether a decimal is within the range of an IEEE 754 double. A decimal whose first digit stands
far from the limit is decided by that alone. -/
def fitsDouble (d : Decimal) : Bool :=
  let magnitude := d.mantissa.natAbs
  let lead : Int := (Nat.toDigits 10 magnitude).length + d.exponent
  if magnitude = 0 || lead < 300 then true
  else if 320 < lead then false
  else if 0 ≤ d.exponent then magnitude * Nat.pow 10 d.exponent.toNat < doubleLimit
  else magnitude < doubleLimit * Nat.pow 10 (-d.exponent).toNat

end Decimal

/-- A JSON value. -/
inductive Json where
  | null
  | bool (value : Bool)
  | int (value : Int)
  | real (value : Decimal)
  | string (value : String)
  | array (items : List Json)
  | object (fields : List (String × Json))
  deriving Repr, Inhabited

namespace Json

mutual

/-- The number of values inside one another in a value. -/
def depth : Json → Nat
  | null | bool _ | int _ | real _ | string _ => 1
  | array items => depthOfItems items + 1
  | object fields => depthOfFields fields + 1

/-- The greatest depth of some values. -/
def depthOfItems : List Json → Nat
  | [] => 0
  | item :: items => max (depth item) (depthOfItems items)

/-- The greatest depth of the values of some fields. -/
def depthOfFields : List (String × Json) → Nat
  | [] => 0
  | (_, value) :: fields => max (depth value) (depthOfFields fields)

end

/-- The fields of an object; any other value has none. -/
def fields : Json → List (String × Json)
  | object fields => fields
  | _ => []

/-- A field of an object. -/
def field? (json : Json) (name : String) : Option Json := json.fields.lookup name

end Json

end Assist
