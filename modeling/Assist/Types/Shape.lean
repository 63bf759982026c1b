import Assist.Types.Oracle

/-!
# The shape of a type

The shape of a type decides which value is offered for it. A union has a shape when every member of
it other than `undefined` has that shape and there is such a member; it is a function as soon as one
member is. Unions inside unions are followed down to `maxUnionDepth` levels, so an answer is reached
on any graph of types.
-/

namespace Assist.Types

/-- What kind of value a type calls for. -/
inductive ValueShape where
  | string
  | boolean
  | array
  | plainObject
  | function
  | none
  deriving DecidableEq, Repr

namespace ValueShape

/-- Every shape. -/
def all : List ValueShape := [string, boolean, array, plainObject, function, none]

/-- The name of a shape. -/
def name : ValueShape → String
  | string => "String"
  | boolean => "Boolean"
  | array => "Array"
  | plainObject => "PlainObject"
  | function => "Function"
  | none => "None"

/-- The shape of a given name. -/
def ofName? (text : String) : Option ValueShape := all.find? fun shape => shape.name == text

/-- A shape is found again under its name. -/
theorem ofName?_name (shape : ValueShape) : ofName? shape.name = some shape := by
  cases shape <;> rfl

end ValueShape

/-- How many levels of unions inside unions are followed. -/
def maxUnionDepth : Nat := 32

namespace Oracle

/-- Whether a type can be called, or has such a member within `depth` levels of unions. -/
def callableWithin (o : Oracle) : Nat → TypeId → Bool
  | 0, ty => 0 < (o.info ty).calls
  | depth + 1, ty =>
    0 < (o.info ty).calls || ((o.info ty).members.getD []).any (o.callableWithin depth)

/-- Whether a type can be called, or is a union with a member that can. -/
def isFunction (o : Oracle) (ty : TypeId) : Bool := o.callableWithin maxUnionDepth ty

/-- The members of a union that are not `undefined`. -/
def definedMembers (o : Oracle) (ty : TypeId) : List TypeId :=
  ((o.info ty).members.getD []).filter fun member => !(o.info member).isUndefined

/-- Whether a type is of a kind that `verdict` decides for types that are not unions: where there is
no verdict, all defined members within `depth` levels have to be of that kind. -/
def allWithin (o : Oracle) (verdict : TypeInfo → Option Bool) : Nat → TypeId → Bool
  | 0, ty => (verdict (o.info ty)).getD false
  | depth + 1, ty =>
    match verdict (o.info ty) with
    | some answer => answer
    | none =>
      let members := o.definedMembers ty
      !members.isEmpty && members.all (o.allWithin verdict depth)

/-- Strings, string literals and template literals. -/
def stringVerdict (info : TypeInfo) : Option Bool :=
  if info.isUndefined then some false
  else if info.flags.intersects .stringLike then some true
  else none

/-- The keyword type `boolean`; a boolean literal alone is not of this kind. -/
def booleanVerdict (info : TypeInfo) : Option Bool :=
  if info.isUndefined then some false
  else if info.flags.contains .boolean then some true
  else none

/-- Arrays and tuples, but not `any`. -/
def arrayVerdict (info : TypeInfo) : Option Bool :=
  if info.flags.contains .any || info.isUndefined then some false
  else if info.arrayLike then some true
  else none

/-- Object types other than arrays, instances of classes and regular expressions. -/
def plainObjectVerdict (info : TypeInfo) : Option Bool :=
  if info.isUndefined || info.arrayLike then some false
  else if info.flags.contains .object then
    some (!info.objectFlags.contains .ofClass && info.symbol != some regExpName)
  else none

/-- Whether a type is a string, or a union of strings. -/
def isString (o : Oracle) (ty : TypeId) : Bool := o.allWithin stringVerdict maxUnionDepth ty

/-- Whether a type is a boolean, or a union of booleans. -/
def isBoolean (o : Oracle) (ty : TypeId) : Bool := o.allWithin booleanVerdict maxUnionDepth ty

/-- Whether a type is an array, or a union of arrays. -/
def isArray (o : Oracle) (ty : TypeId) : Bool := o.allWithin arrayVerdict maxUnionDepth ty

/-- Whether a type is a plain object, or a union of plain objects. -/
def isPlainObject (o : Oracle) (ty : TypeId) : Bool :=
  o.allWithin plainObjectVerdict maxUnionDepth ty

/-- The shape of a type. A type that can be called is a function whatever else it is. -/
def shape (o : Oracle) (ty : TypeId) : ValueShape :=
  if (o.info ty).isUndefined then .none
  else if o.isFunction ty then .function
  else if o.isString ty then .string
  else if o.isBoolean ty then .boolean
  else if o.isArray ty then .array
  else if o.isPlainObject ty then .plainObject
  else .none

/-- Whether a type has properties that an object literal can be completed with. -/
def contributes (o : Oracle) (ty : TypeId) : Bool := !o.isFunction ty && o.isPlainObject ty

/-- The properties that an object literal of a type can be completed with: those of every plain
object among the members of the type. If there is more than one such member, a name that is declared
more than once is left out, since no one value fits. -/
def completableProperties (o : Oracle) (ty : TypeId) : List Property :=
  let contributing := ((o.info ty).members.getD [ty]).filter o.contributes
  let properties := contributing.flatMap fun member => (o.info member).properties
  if contributing.length ≤ 1 then properties
  else properties.filter fun property =>
    properties.countP (fun other => other.name == property.name) ≤ 1

end Oracle

end Assist.Types
