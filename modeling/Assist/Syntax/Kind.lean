/-!
# Kinds of syntax nodes

The kinds that the library tells apart. A host maps its own kinds onto these, and a node that no
rule looks into may be `unknown`. A kind has a name, under which hosts send it, and a number, its
place in the list `Kind.all`.
-/

namespace Assist.Syntax

/-- The kind of a syntax node. -/
inductive Kind where
  | unknown
  | sourceFile
  -- tokens and literals
  | identifier
  | privateIdentifier
  | stringLiteral
  | numericLiteral
  | noSubstitutionTemplateLiteral
  | templateExpression
  -- expressions
  | objectLiteralExpression
  | propertyAssignment
  | shorthandPropertyAssignment
  | spreadAssignment
  | methodDeclaration
  | arrayLiteralExpression
  | callExpression
  | newExpression
  | propertyAccessExpression
  | elementAccessExpression
  | parenthesizedExpression
  | arrowFunction
  | functionExpression
  | binaryExpression
  | conditionalExpression
  | asExpression
  | satisfiesExpression
  -- statements and declarations
  | variableStatement
  | variableDeclarationList
  | variableDeclaration
  | functionDeclaration
  | classDeclaration
  | interfaceDeclaration
  | typeAliasDeclaration
  | enumDeclaration
  | moduleDeclaration
  | importDeclaration
  | exportDeclaration
  | exportAssignment
  | parameter
  | block
  | expressionStatement
  | returnStatement
  | ifStatement
  | forStatement
  | whileStatement
  -- types
  | typeReference
  | typeLiteral
  | propertySignature
  | unionType
  -- JSX
  | jsxElement
  | jsxSelfClosingElement
  | jsxOpeningElement
  | jsxClosingElement
  | jsxFragment
  | jsxOpeningFragment
  | jsxClosingFragment
  | jsxAttributes
  | jsxAttribute
  | jsxSpreadAttribute
  | jsxExpression
  | jsxText
  deriving DecidableEq, Repr, Inhabited

namespace Kind

/-- Every kind, in the order of their numbers. -/
def all : List Kind :=
  [.unknown, .sourceFile, .identifier, .privateIdentifier, .stringLiteral, .numericLiteral,
    .noSubstitutionTemplateLiteral, .templateExpression, .objectLiteralExpression,
    .propertyAssignment, .shorthandPropertyAssignment, .spreadAssignment, .methodDeclaration,
    .arrayLiteralExpression, .callExpression, .newExpression, .propertyAccessExpression,
    .elementAccessExpression, .parenthesizedExpression, .arrowFunction, .functionExpression,
    .binaryExpression, .conditionalExpression, .asExpression, .satisfiesExpression,
    .variableStatement, .variableDeclarationList, .variableDeclaration, .functionDeclaration,
    .classDeclaration, .interfaceDeclaration, .typeAliasDeclaration, .enumDeclaration,
    .moduleDeclaration, .importDeclaration, .exportDeclaration, .exportAssignment, .parameter,
    .block, .expressionStatement, .returnStatement, .ifStatement, .forStatement, .whileStatement,
    .typeReference, .typeLiteral, .propertySignature, .unionType, .jsxElement,
    .jsxSelfClosingElement, .jsxOpeningElement, .jsxClosingElement, .jsxFragment,
    .jsxOpeningFragment, .jsxClosingFragment, .jsxAttributes, .jsxAttribute, .jsxSpreadAttribute,
    .jsxExpression, .jsxText]

/-- The name of a kind. -/
def name : Kind → String
  | unknown => "Unknown"
  | sourceFile => "SourceFile"
  | identifier => "Identifier"
  | privateIdentifier => "PrivateIdentifier"
  | stringLiteral => "StringLiteral"
  | numericLiteral => "NumericLiteral"
  | noSubstitutionTemplateLiteral => "NoSubstitutionTemplateLiteral"
  | templateExpression => "TemplateExpression"
  | objectLiteralExpression => "ObjectLiteralExpression"
  | propertyAssignment => "PropertyAssignment"
  | shorthandPropertyAssignment => "ShorthandPropertyAssignment"
  | spreadAssignment => "SpreadAssignment"
  | methodDeclaration => "MethodDeclaration"
  | arrayLiteralExpression => "ArrayLiteralExpression"
  | callExpression => "CallExpression"
  | newExpression => "NewExpression"
  | propertyAccessExpression => "PropertyAccessExpression"
  | elementAccessExpression => "ElementAccessExpression"
  | parenthesizedExpression => "ParenthesizedExpression"
  | arrowFunction => "ArrowFunction"
  | functionExpression => "FunctionExpression"
  | binaryExpression => "BinaryExpression"
  | conditionalExpression => "ConditionalExpression"
  | asExpression => "AsExpression"
  | satisfiesExpression => "SatisfiesExpression"
  | variableStatement => "VariableStatement"
  | variableDeclarationList => "VariableDeclarationList"
  | variableDeclaration => "VariableDeclaration"
  | functionDeclaration => "FunctionDeclaration"
  | classDeclaration => "ClassDeclaration"
  | interfaceDeclaration => "InterfaceDeclaration"
  | typeAliasDeclaration => "TypeAliasDeclaration"
  | enumDeclaration => "EnumDeclaration"
  | moduleDeclaration => "ModuleDeclaration"
  | importDeclaration => "ImportDeclaration"
  | exportDeclaration => "ExportDeclaration"
  | exportAssignment => "ExportAssignment"
  | parameter => "Parameter"
  | block => "Block"
  | expressionStatement => "ExpressionStatement"
  | returnStatement => "ReturnStatement"
  | ifStatement => "IfStatement"
  | forStatement => "ForStatement"
  | whileStatement => "WhileStatement"
  | typeReference => "TypeReference"
  | typeLiteral => "TypeLiteral"
  | propertySignature => "PropertySignature"
  | unionType => "UnionType"
  | jsxElement => "JsxElement"
  | jsxSelfClosingElement => "JsxSelfClosingElement"
  | jsxOpeningElement => "JsxOpeningElement"
  | jsxClosingElement => "JsxClosingElement"
  | jsxFragment => "JsxFragment"
  | jsxOpeningFragment => "JsxOpeningFragment"
  | jsxClosingFragment => "JsxClosingFragment"
  | jsxAttributes => "JsxAttributes"
  | jsxAttribute => "JsxAttribute"
  | jsxSpreadAttribute => "JsxSpreadAttribute"
  | jsxExpression => "JsxExpression"
  | jsxText => "JsxText"

/-- The kind of a given name. -/
def ofName? (text : String) : Option Kind := all.find? fun kind => kind.name == text

/-- The number of a kind: its place in `all`. -/
def number (kind : Kind) : Nat := all.idxOf kind

/-- Names of values: identifiers and private identifiers. -/
def isIdentifier : Kind → Bool
  | identifier | privateIdentifier => true
  | _ => false

/-- Whole JSX elements: with tags, self-closing, or a fragment. -/
def isJsxElementLike : Kind → Bool
  | jsxElement | jsxSelfClosingElement | jsxFragment => true
  | _ => false

/-- Literals that stand for one string. -/
def isStringLiteralLike : Kind → Bool
  | stringLiteral | noSubstitutionTemplateLiteral => true
  | _ => false

/-- Every kind is listed. -/
theorem mem_all (kind : Kind) : kind ∈ all := by cases kind <;> decide

/-- A kind is found again under its name. -/
theorem ofName?_name (kind : Kind) : ofName? kind.name = some kind := by
  have h : ∀ k ∈ all, ofName? k.name = some k := by decide +kernel
  exact h kind (mem_all kind)

end Kind

end Assist.Syntax
