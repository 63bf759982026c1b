/-!
# Types

A type is known by its number, a `TypeId`. The first twelve numbers are the keyword types. A
`TypeContent` is the content of a type: two types with one content have one number. The two sets of
flags say coarsely what kind of type and what kind of object type it is.
-/

namespace Assist.Types

/-- A set of flags on a type. -/
structure TypeFlags where
  bits : UInt32
  deriving DecidableEq, Repr, Inhabited

/-- A set of flags on an object type. -/
structure ObjectFlags where
  bits : UInt32
  deriving DecidableEq, Repr, Inhabited

/-! ## Flags

Each flag of a type is one bit. -/

namespace TypeFlags

def none : TypeFlags := ⟨0⟩
def any : TypeFlags := ⟨0x1⟩
def unknown : TypeFlags := ⟨0x2⟩
def string : TypeFlags := ⟨0x4⟩
def number : TypeFlags := ⟨0x8⟩
def boolean : TypeFlags := ⟨0x10⟩
def bigint : TypeFlags := ⟨0x20⟩
def stringLiteral : TypeFlags := ⟨0x40⟩
def numberLiteral : TypeFlags := ⟨0x80⟩
def booleanLiteral : TypeFlags := ⟨0x100⟩
def templateLiteral : TypeFlags := ⟨0x200⟩
def symbol : TypeFlags := ⟨0x400⟩
def void : TypeFlags := ⟨0x800⟩
def undefined : TypeFlags := ⟨0x1000⟩
def null : TypeFlags := ⟨0x2000⟩
def never : TypeFlags := ⟨0x4000⟩
def object : TypeFlags := ⟨0x8000⟩
def union : TypeFlags := ⟨0x10000⟩
def nonPrimitive : TypeFlags := ⟨0x20000⟩

/-- Every flag there is. -/
def all : TypeFlags := ⟨0x3FFFF⟩

/-- Strings, string literals and template literals. -/
def stringLike : TypeFlags := ⟨0x244⟩

/-- The flags among the given bits; other bits mean nothing. -/
def ofBits (bits : UInt32) : TypeFlags := ⟨bits &&& all.bits⟩

/-- Whether all flags of `other` are set. -/
def contains (flags other : TypeFlags) : Bool := flags.bits &&& other.bits == other.bits

/-- Whether some flag of `other` is set. -/
def intersects (flags other : TypeFlags) : Bool := flags.bits &&& other.bits != 0

end TypeFlags

namespace ObjectFlags

def none : ObjectFlags := ⟨0⟩
def ofClass : ObjectFlags := ⟨0x1⟩
def interface : ObjectFlags := ⟨0x2⟩
def reference : ObjectFlags := ⟨0x4⟩
def tuple : ObjectFlags := ⟨0x8⟩
def anonymous : ObjectFlags := ⟨0x10⟩

/-- Every flag there is. -/
def all : ObjectFlags := ⟨0x1F⟩

/-- The flags among the given bits; other bits mean nothing. -/
def ofBits (bits : UInt32) : ObjectFlags := ⟨bits &&& all.bits⟩

/-- Whether all flags of `other` are set. -/
def contains (flags other : ObjectFlags) : Bool := flags.bits &&& other.bits == other.bits

/-- The flags of both sets. -/
def union (flags other : ObjectFlags) : ObjectFlags := ⟨flags.bits ||| other.bits⟩

end ObjectFlags

/-! ## Keyword types and contents -/

/-- The number of a type. There are `2 ^ 32` of them. -/
structure TypeId where
  index : UInt32
  deriving DecidableEq, Repr, Inhabited

/-- The keyword types. -/
inductive Intrinsic where
  | any
  | unknown
  | never
  | void
  | undefined
  | null
  | boolean
  | number
  | string
  | bigint
  | symbol
  | object
  deriving DecidableEq, Repr

namespace Intrinsic

/-- The keyword types in the order of their numbers. -/
def all : List Intrinsic :=
  [any, unknown, never, void, undefined, null, boolean, number, string, bigint, symbol, object]

/-- The name of a keyword type. -/
def name : Intrinsic → String
  | any => "Any"
  | unknown => "Unknown"
  | never => "Never"
  | void => "Void"
  | undefined => "Undefined"
  | null => "Null"
  | boolean => "Boolean"
  | number => "Number"
  | string => "String"
  | bigint => "Bigint"
  | symbol => "Symbol"
  | object => "Object"

/-- The keyword type of a given name. -/
def ofName? (text : String) : Option Intrinsic := all.find? fun kind => kind.name == text

/-- The flags of a keyword type. -/
def flags : Intrinsic → TypeFlags
  | any => .any
  | unknown => .unknown
  | never => .never
  | void => .void
  | undefined => .undefined
  | null => .null
  | boolean => .boolean
  | number => .number
  | string => .string
  | bigint => .bigint
  | symbol => .symbol
  | object => .nonPrimitive

/-- Every keyword type is listed. -/
theorem mem_all (kind : Intrinsic) : kind ∈ all := by cases kind <;> decide

/-- A keyword type is found again under its name. -/
theorem ofName?_name (kind : Intrinsic) : ofName? kind.name = some kind := by cases kind <;> rfl

end Intrinsic

namespace TypeId

/-- The number of a keyword type. -/
def ofIntrinsic (kind : Intrinsic) : TypeId := ⟨UInt32.ofNat (Intrinsic.all.idxOf kind)⟩

def never : TypeId := ofIntrinsic .never
def undefined : TypeId := ofIntrinsic .undefined
def number : TypeId := ofIntrinsic .number
def string : TypeId := ofIntrinsic .string

/-- Whether a number is that of a keyword type. -/
def isIntrinsic (id : TypeId) : Bool := id.index.toNat < Intrinsic.all.length

end TypeId

/-- A property of an object type. The type of an optional property includes `undefined`. -/
structure Property where
  name : String
  type : TypeId
  optional : Bool
  deriving DecidableEq, Repr

/-- The name of the interface of regular expressions. -/
def regExpName : String := "RegExp"

/-- The content of an object type: its properties, the symbol that declares it if it has one, and
its flags. -/
structure ObjectContent where
  properties : List Property
  symbol : Option String
  flags : ObjectFlags
  deriving DecidableEq, Repr

/-- The content of a type. -/
inductive TypeContent where
  | intrinsic (kind : Intrinsic)
  | string (value : String)
  /-- A number literal, as the bits of its IEEE 754 double. -/
  | number (bits : UInt64)
  | boolean (value : Bool)
  /-- A template literal type, by the parts of its text. -/
  | template (parts : List String)
  | union (members : List TypeId)
  | object (shape : ObjectContent)
  | array (element : TypeId)
  | tuple (elements : List TypeId)
  | function (params : List TypeId) (returnType : TypeId)
  deriving DecidableEq, Repr

end Assist.Types
