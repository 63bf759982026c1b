import Assist.Types.Oracle

/-!
# A table of types

A table numbers contents of types in the order in which they come; a content that is in the table
keeps its number. The keyword types come first. Numbers have 32 bits, so after `2 ^ 32` types they
start again from zero. The constructors keep unions flat and without repetition, and put `undefined`
into the type of every optional property. A table answers the questions of an `Oracle`.
-/

namespace Assist.Types

open Assist.Syntax

namespace TypeContent

/-- The flags of a content. -/
def typeFlags : TypeContent → TypeFlags
  | .intrinsic kind => kind.flags
  | .string _ => .stringLiteral
  | .number _ => .numberLiteral
  | .boolean _ => .booleanLiteral
  | .template _ => .templateLiteral
  | .union _ => .union
  | .object _ | .array _ | .tuple _ | .function _ _ => .object

/-- The flags of a content as an object type. -/
def objectFlags : TypeContent → ObjectFlags
  | .object shape => shape.flags
  | .array _ => .reference
  | .tuple _ => .union .reference .tuple
  | .function _ _ => .anonymous
  | _ => .none

/-- What is known of a content. -/
def info (content : TypeContent) : TypeInfo where
  flags := content.typeFlags
  objectFlags := content.objectFlags
  members := match content with
    | .union members => some members
    | _ => none
  calls := match content with
    | .function _ _ => 1
    | _ => 0
  arrayLike := match content with
    | .array _ | .tuple _ => true
    | _ => false
  symbol := match content with
    | .object shape => shape.symbol
    | .array _ => some "Array"
    | _ => none
  properties := match content with
    | .object shape => shape.properties
    | _ => []

end TypeContent

/-- The contents of types by number, and the types expected at places of a file, the latest
first. -/
structure TypeTable where
  contents : Array TypeContent
  expected : List (NodeId × TypeId)

namespace TypeTable

/-- The table of the keyword types. -/
def initial : TypeTable := ⟨(Intrinsic.all.map TypeContent.intrinsic).toArray, []⟩

/-- The number of types. -/
def size (t : TypeTable) : Nat := t.contents.size

/-- The content of a type. -/
def lookup? (t : TypeTable) (id : TypeId) : Option TypeContent :=
  t.contents[id.index.toNat]?

/-- The number of a content, which is added to the table if it is not there. -/
def intern (content : TypeContent) : StateM TypeTable TypeId := fun t =>
  match t.contents.idxOf? content with
  | some index => (⟨UInt32.ofNat index⟩, t)
  | none => (⟨UInt32.ofNat t.contents.size⟩, { t with contents := t.contents.push content })

/-- The members of a union type, or the type itself. -/
def flatten (t : TypeTable) (id : TypeId) : List TypeId :=
  match t.lookup? id with
  | some (.union members) => members
  | _ => [id]

/-- The union of some types: unions among them are opened, repetitions dropped. The union of no
types is `never`, and that of one is the type itself. -/
def union (members : List TypeId) : StateM TypeTable TypeId := do
  let t ← get
  match (members.flatMap t.flatten).eraseDups with
  | [] => return .never
  | [member] => return member
  | flat => intern (.union flat)

/-- The union of a type and `undefined`. -/
def orUndefined (type : TypeId) : StateM TypeTable TypeId := union [type, .undefined]

/-- A property whose type includes `undefined` if the property is optional. -/
def declareProperty (property : Property) : StateM TypeTable Property := do
  if property.optional then
    let type ← orUndefined property.type
    return { property with type }
  else return property

/-- An object type with declared properties. -/
def declareObject (properties : List Property) (symbol : Option String) (flags : ObjectFlags) :
    StateM TypeTable TypeId := do
  let properties ← properties.mapM declareProperty
  intern (.object ⟨properties, symbol, flags⟩)

/-- An object type without a name. -/
def object (properties : List Property) : StateM TypeTable TypeId :=
  declareObject properties none .anonymous

/-- An interface type. -/
def interface (name : String) (properties : List Property) : StateM TypeTable TypeId :=
  declareObject properties (some name) .interface

/-- The type of the instances of a class. -/
def instanceOf (name : String) (properties : List Property) : StateM TypeTable TypeId :=
  declareObject properties (some name) .ofClass

/-- The interface of regular expressions. -/
def regExp : StateM TypeTable TypeId :=
  interface regExpName
    [⟨"source", .string, false⟩, ⟨"flags", .string, false⟩, ⟨"lastIndex", .number, false⟩]

/-- Record the type that is expected at a node. -/
def expect (t : TypeTable) (node : NodeId) (type : TypeId) : TypeTable :=
  { t with expected := (node, type) :: t.expected }

/-- The answers of a table. A property has the type it was declared with everywhere. -/
def oracle (t : TypeTable) : Oracle where
  info id := ((t.lookup? id).map TypeContent.info).getD .empty
  expectedType node := t.expected.lookup node
  propertyTypeAt property _ := some property.type

end TypeTable

end Assist.Types
