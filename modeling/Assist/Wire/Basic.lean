import Assist.Json

/-!
# Values on the wire

`Wire` says how a type of value is written as JSON and read back. A record is written as an object.
It is read from an object, in which unknown fields do not matter, or from an array of its fields in
order. What a field may leave out is said by how it is read: `required`, `optional`, `optionalOr` or
`withDefault`.
-/

namespace Assist

/-- How the values of a type are written and read. -/
class Wire (α : Type) where
  write : α → Json
  read? : Json → Option α

namespace Wire

instance : Wire Bool where
  write := .bool
  read?
    | .bool value => some value
    | _ => none

instance : Wire String where
  write := .string
  read?
    | .string value => some value
    | _ => none

instance : Wire UInt32 where
  write n := .int n.toNat
  read?
    | .int n => if 0 ≤ n ∧ n < UInt32.size then some (UInt32.ofNat n.toNat) else none
    | _ => none

instance {α : Type} [Wire α] : Wire (Option α) where
  write
    | some value => write value
    | none => .null
  read?
    | .null => some none
    | json => (read? json).map some

instance {α : Type} [Wire α] : Wire (List α) where
  write values := .array (values.map write)
  read?
    | .array items => items.mapM read?
    | _ => none

/-- How a field of a record is given. -/
inductive Slot where
  | given (value : Json)
  /-- The object does not have the field. -/
  | absent
  /-- The array is too short for the field. -/
  | pastEnd

/-- The fields of a record from an object or an array. An array has no more items than there are
fields. -/
def slots? (names : List String) : Json → Option (List Slot)
  | .object fields =>
    some (names.map fun name => ((fields.lookup name).map Slot.given).getD .absent)
  | .array items =>
    if items.length ≤ names.length then
      some (items.map Slot.given ++ List.replicate (names.length - items.length) .pastEnd)
    else none
  | _ => none

namespace Slot

/-- A field that has to be given. -/
def required {α : Type} [Wire α] : Slot → Option α
  | given value => read? value
  | _ => none

/-- A field that may be missing from an object or `null`. -/
def optional {α : Type} [Wire α] : Slot → Option (Option α)
  | given value => read? value
  | absent => some none
  | pastEnd => none

/-- A field that has a value where it is not given. -/
def withDefault {α : Type} [Wire α] (default : α) : Slot → Option α
  | given value => read? value
  | _ => some default

/-- A field that may be missing or `null`. -/
def optionalOr {α : Type} [Wire α] (slot : Slot) : Option (Option α) := slot.withDefault none

end Slot

/-- A field that is written only if it has a value. -/
def unlessNone {α : Type} [Wire α] (name : String) : Option α → List (String × Json)
  | some value => [(name, write value)]
  | none => []

/-- Read one of a choice of names: a string, or an object with the name as its only field and `null`
as its value. -/
def readChoice? {α : Type} (choice? : String → Option α) : Json → Option α
  | .string name => choice? name
  | .object [(name, .null)] => choice? name
  | _ => none

end Wire

end Assist
