import Assist.Signature.Basic

/-!
# Writing a signature

A signature is written on one line apart from inline object types, which take a line for each member
and indent by one unit for each level. An empty body is `{ }`, and a declaration without a body ends
in a semicolon.
-/

namespace Assist.Signature

/-- How code is indented: a number of spaces, or a tab. -/
structure Layout where
  indentSize : UInt32
  useSpaces : Bool
  deriving DecidableEq, Repr

namespace Layout

/-- Four spaces. -/
def standard : Layout := ⟨4, true⟩

/-- The indentation of one level. -/
def unit (layout : Layout) : String :=
  if layout.useSpaces then String.ofList (List.replicate layout.indentSize.toNat ' ') else "\t"

/-- The indentation of `level` levels. -/
def indent (layout : Layout) (level : Nat) : String :=
  String.join (List.replicate level layout.unit)

end Layout

mutual

/-- Write a type that starts on a line indented by `level` levels. -/
def TypeExpr.print (layout : Layout) (level : Nat) : TypeExpr → String
  | .text source => source
  | .literal [] => "\x7b\x7d"
  | .literal members =>
    "\x7b\n" ++ printMembers layout (level + 1) members ++ layout.indent level ++ "\x7d"

/-- Write the members of an inline object type, one to a line. -/
def printMembers (layout : Layout) (level : Nat) : List Member → String
  | [] => ""
  | member :: members =>
    layout.indent level ++ Member.print layout level member ++ ";\n"
      ++ printMembers layout level members

/-- Write a member of an inline object type. -/
def Member.print (layout : Layout) (level : Nat) : Member → String
  | .mk name optional none => name ++ (if optional then "?" else "")
  | .mk name optional (some type) =>
    name ++ (if optional then "?" else "") ++ ": " ++ TypeExpr.print layout level type

end

/-- Write an element of an object pattern. -/
def PatternElement.print (element : PatternElement) : String :=
  match element.property with
  | some property => property ++ ": " ++ element.name
  | none => element.name

/-- Write what a parameter binds. -/
def Binding.print : Binding → String
  | identifier name => name
  | pattern source => source
  | object [] => "\x7b\x7d"
  | object elements =>
    "\x7b " ++ ", ".intercalate (elements.map PatternElement.print) ++ " \x7d"

/-- Write a parameter. -/
def Parameter.print (layout : Layout) (p : Parameter) : String :=
  (if p.rest then "..." else "") ++ p.name.print ++ (if p.optional then "?" else "")
    ++ (match p.type? with
        | some type => ": " ++ TypeExpr.print layout 0 type
        | none => "")
    ++ (match p.initializer with
        | some initializer => " = " ++ initializer
        | none => "")

/-- Write the body of a function, or the semicolon in its place. -/
def printBody (layout : Layout) : Option (List String) → String
  | none => ";"
  | some [] => " \x7b \x7d"
  | some statements =>
    " \x7b" ++ String.join (statements.map fun statement => "\n" ++ layout.unit ++ statement)
      ++ "\n\x7d"

/-- Write the declaration of a function. -/
def FunctionDecl.print (layout : Layout) (decl : FunctionDecl) : String :=
  String.join (decl.modifiers.map (· ++ " ")) ++ "function" ++ (if decl.generator then "*" else "")
    ++ " " ++ decl.name
    ++ (match decl.typeParameters with
        | some typeParameters => "<" ++ typeParameters ++ ">"
        | none => "")
    ++ "(" ++ ", ".intercalate (decl.parameters.map (Parameter.print layout)) ++ ")"
    ++ (match decl.returnType with
        | some type => ": " ++ TypeExpr.print layout 0 type
        | none => "")
    ++ printBody layout decl.body

end Assist.Signature
