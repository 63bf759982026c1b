/-!
# Function signatures

The header of a function declaration: its keywords, name, parameters and return type. Types,
initial values and type parameters are kept as they are written. A type can also be an inline object
type with its members apart, and a parameter can be an object pattern with its elements apart; a
header built by the library uses these forms, one that was read does not.
-/

namespace Assist.Signature

mutual

/-- A type in a signature. -/
inductive TypeExpr where
  /-- A type as it is written. -/
  | text (source : String)
  /-- An inline object type. -/
  | literal (members : List Member)
  deriving Repr

/-- A member of an inline object type. -/
inductive Member where
  | mk (name : String) (optional : Bool) (type? : Option TypeExpr)
  deriving Repr

end

instance : Inhabited TypeExpr := ⟨.text ""⟩

/-- An element of an object pattern: `name`, or `property: name`. -/
structure PatternElement where
  property : Option String
  name : String
  deriving DecidableEq, Repr

/-- What a parameter binds. -/
inductive Binding where
  /-- A plain name. -/
  | identifier (name : String)
  /-- An object pattern. -/
  | object (elements : List PatternElement)
  /-- A pattern as it is written. -/
  | pattern (source : String)
  deriving DecidableEq, Repr

namespace Binding

/-- The name that is bound, if it is a plain one. -/
def identifier? : Binding → Option String
  | identifier name => some name
  | _ => none

end Binding

/-- A parameter of a function. -/
structure Parameter where
  /-- Whether the parameter takes all remaining arguments (`...`). -/
  rest : Bool
  name : Binding
  /-- Whether the parameter is marked with `?`. -/
  optional : Bool
  type? : Option TypeExpr
  initializer : Option String
  deriving Repr

/-- The declaration of a function. -/
structure FunctionDecl where
  /-- The keywords before `function`. -/
  modifiers : List String
  /-- Whether the function is a generator (`function*`). -/
  generator : Bool
  name : String
  /-- What stands between `<` and `>` after the name. -/
  typeParameters : Option String
  parameters : List Parameter
  returnType : Option TypeExpr
  /-- The statements of the body, or `none` for a declaration without a body. -/
  body : Option (List String)
  deriving Repr

end Assist.Signature
