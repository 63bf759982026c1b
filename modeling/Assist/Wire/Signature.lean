import Assist.Signature.Basic
import Assist.Wire.Basic

/-!
# Signatures on the wire

A choice between forms (of a type, of what a parameter binds) is written as an object whose only
field has the name of the form. Types are nested in types, so they are read down to the depth of the
value they are read from.
-/

namespace Assist.Wire

open Assist.Signature

mutual

/-- Write a type. -/
def writeType : TypeExpr → Json
  | .text source => .object [("Text", .string source)]
  | .literal members => .object [("TypeLiteral", .array (writeMembers members))]

/-- Write members. -/
def writeMembers : List Member → List Json
  | [] => []
  | member :: members => writeMember member :: writeMembers members

/-- Write a member. -/
def writeMember : Member → Json
  | .mk name optional none =>
    .object [("name", write name), ("question_token", write optional), ("type_node", .null)]
  | .mk name optional (some type) =>
    .object [("name", write name), ("question_token", write optional),
      ("type_node", writeType type)]

end

/-- Read a member, whose type is read by `readType?`. -/
def readMember? (readType? : Json → Option TypeExpr) (json : Json) : Option Member := do
  match ← slots? ["name", "question_token", "type_node"] json with
  | [name, optional, type] =>
    let type? ← match type with
      | .given .null | .absent => some none
      | .given value => (readType? value).map some
      | .pastEnd => none
    return .mk (← name.required) (← optional.required) type?
  | _ => none

/-- Read a type that is nested at most `depth` levels. -/
def readType? : Nat → Json → Option TypeExpr
  | 0, _ => none
  | depth + 1, json =>
    match json with
    | .object [("Text", .string source)] => some (.text source)
    | .object [("TypeLiteral", .array members)] =>
      (members.mapM (readMember? (readType? depth))).map TypeExpr.literal
    | _ => none

instance : Wire TypeExpr where
  write := writeType
  read? json := readType? json.depth json

instance : Wire PatternElement where
  write element := .object [("property_name", write element.property), ("name", write element.name)]
  read? json := do
    match ← slots? ["property_name", "name"] json with
    | [property, name] => return ⟨← property.optional, ← name.required⟩
    | _ => none

instance : Wire Binding where
  write
    | .identifier name => .object [("Identifier", write name)]
    | .object elements => .object [("ObjectBindingPattern", write elements)]
    | .pattern source => .object [("Pattern", write source)]
  read?
    | .object [("Identifier", value)] => (read? value).map Binding.identifier
    | .object [("ObjectBindingPattern", value)] => (read? value).map Binding.object
    | .object [("Pattern", value)] => (read? value).map Binding.pattern
    | _ => none

instance : Wire Parameter where
  write parameter := .object
    [("dot_dot_dot_token", write parameter.rest), ("name", write parameter.name),
      ("question_token", write parameter.optional), ("type_annotation", write parameter.type?),
      ("initializer", write parameter.initializer)]
  read? json := do
    match ← slots? ["dot_dot_dot_token", "name", "question_token", "type_annotation",
        "initializer"] json with
    | [rest, name, optional, type, initializer] =>
      return { rest := ← rest.required, name := ← name.required, optional := ← optional.required
               type? := ← type.optional, initializer := ← initializer.optional }
    | _ => none

instance : Wire FunctionDecl where
  write decl := .object
    [("modifiers", write decl.modifiers), ("asterisk_token", write decl.generator),
      ("name", write decl.name), ("type_parameters", write decl.typeParameters),
      ("parameters", write decl.parameters), ("return_type", write decl.returnType),
      ("body", write decl.body)]
  read? json := do
    match ← slots? ["modifiers", "asterisk_token", "name", "type_parameters", "parameters",
        "return_type", "body"] json with
    | [modifiers, generator, name, typeParameters, parameters, returnType, body] =>
      return { modifiers := ← modifiers.required, generator := ← generator.required
               name := ← name.required, typeParameters := ← typeParameters.optional
               parameters := ← parameters.required, returnType := ← returnType.optional
               body := ← body.optional }
    | _ => none

end Assist.Wire
