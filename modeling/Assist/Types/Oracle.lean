import Assist.Syntax.Tree
import Assist.Types.Basic

/-!
# Questions about types

The library infers no types. What it wants to know about a type, and about the type that is expected
at a place in a file, it asks an `Oracle`.
-/

namespace Assist.Types

open Assist.Syntax

/-- What is known of a type. -/
structure TypeInfo where
  flags : TypeFlags
  objectFlags : ObjectFlags
  /-- The members of a union type; `none` for any other type. -/
  members : Option (List TypeId)
  /-- The number of call signatures. -/
  calls : Nat
  /-- Whether the type is an array or a tuple. -/
  arrayLike : Bool
  /-- The name of the symbol that declares the type. -/
  symbol : Option String
  properties : List Property
  deriving Repr

namespace TypeInfo

/-- What is known of a type that does not exist. -/
def empty : TypeInfo := ⟨.none, .none, none, 0, false, none, []⟩

/-- Whether the type is a union. -/
def isUnion (info : TypeInfo) : Bool := info.flags.contains .union

/-- Whether the type is `undefined`. -/
def isUndefined (info : TypeInfo) : Bool := info.flags.contains .undefined

end TypeInfo

/-- The answers about types. -/
structure Oracle where
  info : TypeId → TypeInfo
  /-- The type that the surroundings of an expression expect of it. -/
  expectedType : NodeId → Option TypeId
  /-- The type of a property as seen from a place. -/
  propertyTypeAt : Property → NodeId → Option TypeId

end Assist.Types
