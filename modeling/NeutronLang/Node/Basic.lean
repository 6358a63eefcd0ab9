import NeutronLang.SyntaxError
import NeutronLang.Decimal.Numeral

/-!
# Syntax trees

The nodes of a syntax tree with their spans. Operators, declared types and literal types are plain
texts, and a child may be any node at all or absent: which trees come from reading a document is a
matter of the grammar, and the checker has an answer for all the others too.
-/

namespace NeutronLang

/-- The value of a literal, from its text by `LiteralValue.ofNumeral` and
`LiteralValue.ofQuoted`. -/
inductive LiteralValue where
  | integer (value : Int)
  | double (value : Float)
  | text (value : String)
  | boolean (value : Bool)
  | nil
  /-- The value of a numeral that is none, such as one with two points. -/
  | notANumber

/-- The value of a number by its text `raw`, which is a double if it has a point. -/
def LiteralValue.ofNumeral (raw : String) : LiteralValue :=
  let text := raw.toList
  if text.contains '.' then ((Decimal.readDouble? text).map double).getD notANumber
  else ((Decimal.readInt? text).map integer).getD notANumber

/-- The value of a string by its text `raw`: what stands between its first and its last
character. -/
def LiteralValue.ofQuoted (raw : String) : LiteralValue :=
  text (String.ofList (raw.toList.drop 1).dropLast)

/-- A syntax tree. A part that may be left out is `absent` there. -/
inductive Node where
  /-- No node, where an optional child is left out. -/
  | absent
  | program (span : Span) (statements : List Node) (errors : List SyntaxError)
  | variableDeclaration (span : Span) (type : Option String) (name init : Node)
  | ifStatement (span : Span) (test consequent alternate : Node)
  | whileStatement (span : Span) (test body : Node)
  | forStatement (span : Span) (init test update body : Node)
  | block (span : Span) (body : List Node)
  | functionDeclaration (span : Span) (name : Node) (params : List Node) (body : Node)
  | classDeclaration (span : Span) (name body : Node)
  | returnStatement (span : Span) (argument : Node)
  | expressionStatement (span : Span) (expression : Node)
  | assignment (span : Span) (operator : String) (target value : Node)
  | binary (span : Span) (operator : String) (left right : Node)
  | logical (span : Span) (operator : String) (left right : Node)
  | unary (span : Span) (operator : String) (operand : Node)
  | call (span : Span) (callee : Node) (arguments : List Node)
  | member (span : Span) (owner name : Node)
  | array (span : Span) (elements : List Node)
  | object (span : Span) (properties : List Node)
  | property (span : Span) (key value : Node)
  | identifier (span : Span) (name : String)
  | literal (span : Span) (value : LiteralValue) (raw type : String)

/-- The default node is `absent`. -/
instance : Inhabited Node := ⟨.absent⟩

/-- What a node holds under one of its labels, listed by `Node.fields`. -/
inductive Field where
  | node (node : Node)
  | nodes (nodes : List Node)
  | text (text : Option String)
  | value (value : LiteralValue)
  | errors (errors : List SyntaxError)

namespace Node

/-- `sizeOf` counts every node, as the depth of a tree is measured by it. -/
theorem sizeOf_pos (node : Node) : 0 < sizeOf node := by cases node <;> simp +arith

/-- The `sizeOf` of nodes, added up. -/
@[simp]
noncomputable def sizes : List Node → Nat
  | [] => 0
  | node :: nodes => sizeOf node + sizes nodes

/-- Whether there is no node. -/
def isAbsent : Node → Bool
  | absent => true
  | _ => false

/-- The span of a node. -/
def span : Node → Span
  | absent => .point 0
  | program span .. | variableDeclaration span .. | ifStatement span .. | whileStatement span ..
  | forStatement span .. | block span .. | functionDeclaration span .. | classDeclaration span ..
  | returnStatement span .. | expressionStatement span .. | assignment span .. | binary span ..
  | logical span .. | unary span .. | call span .. | member span .. | array span ..
  | object span .. | property span .. | identifier span .. | literal span .. => span

/-- The name of a node's kind. -/
def kind : Node → String
  | absent => ""
  | program .. => "Program"
  | variableDeclaration .. => "VariableDeclaration"
  | ifStatement .. => "IfStatement"
  | whileStatement .. => "WhileStatement"
  | forStatement .. => "ForStatement"
  | block .. => "BlockStatement"
  | functionDeclaration .. => "FunctionDeclaration"
  | classDeclaration .. => "ClassDeclaration"
  | returnStatement .. => "ReturnStatement"
  | expressionStatement .. => "ExpressionStatement"
  | assignment .. => "AssignmentExpression"
  | binary .. => "BinaryExpression"
  | logical .. => "LogicalExpression"
  | unary .. => "UnaryExpression"
  | call .. => "CallExpression"
  | member .. => "MemberExpression"
  | array .. => "ArrayExpression"
  | object .. => "ObjectExpression"
  | property .. => "Property"
  | identifier .. => "Identifier"
  | literal .. => "Literal"

/-- A node in short, for callers that print it. -/
def text (node : Node) : String := s!"{node.kind}@{node.span.text}"

/-- A node with its span spelled out, for callers that print it. -/
def details (node : Node) : String := s!"{node.kind}(span={node.span.text})"

/-- What a node holds, each `Field` under its label, in the order in which it is written out. -/
def fields : Node → List (String × Field)
  | absent => []
  | program _ statements errors =>
    [("statements", .nodes statements), ("syntax_errors", .errors errors)]
  | variableDeclaration _ type name init =>
    [("var_type", .text type), ("name", .node name), ("init", .node init)]
  | ifStatement _ test consequent alternate =>
    [("test", .node test), ("consequent", .node consequent), ("alternate", .node alternate)]
  | whileStatement _ test body => [("test", .node test), ("body", .node body)]
  | forStatement _ init test update body =>
    [("init", .node init), ("test", .node test), ("update", .node update), ("body", .node body)]
  | block _ body => [("body", .nodes body)]
  | functionDeclaration _ name params body =>
    [("name", .node name), ("params", .nodes params), ("body", .node body)]
  | classDeclaration _ name body => [("name", .node name), ("body", .node body)]
  | returnStatement _ argument => [("argument", .node argument)]
  | expressionStatement _ expression => [("expression", .node expression)]
  | assignment _ operator target value =>
    [("operator", .text operator), ("left", .node target), ("right", .node value)]
  | binary _ operator left right | logical _ operator left right =>
    [("operator", .text operator), ("left", .node left), ("right", .node right)]
  | unary _ operator operand => [("operator", .text operator), ("argument", .node operand)]
  | call _ callee arguments => [("callee", .node callee), ("arguments", .nodes arguments)]
  | member _ owner name => [("obj", .node owner), ("property", .node name)]
  | array _ elements => [("elements", .nodes elements)]
  | object _ properties => [("properties", .nodes properties)]
  | property _ key value => [("key", .node key), ("value", .node value)]
  | identifier _ name => [("name", .text name)]
  | literal _ value raw type =>
    [("value", .value value), ("raw", .text raw), ("literal_type", .text type)]

/-- The nodes that are not `absent`. -/
def present (nodes : List Node) : List Node := nodes.filter (!·.isAbsent)

/-- The children of a node in the order of the document. An optional child that is left out is none
of them; where a child is due, an `absent` one stays in its place. -/
def children : Node → List Node
  | absent | identifier .. | literal .. => []
  | program _ nodes _ | block _ nodes | array _ nodes | object _ nodes => nodes
  | variableDeclaration _ _ name init => name :: present [init]
  | ifStatement _ test consequent alternate => test :: consequent :: present [alternate]
  | whileStatement _ test body => [test, body]
  | forStatement _ init test update body => present [init, test, update, body]
  | functionDeclaration _ name params body => name :: params ++ [body]
  | classDeclaration _ name body => [name, body]
  | returnStatement _ argument => present [argument]
  | expressionStatement _ expression => [expression]
  | assignment _ _ target value => [target, value]
  | binary _ _ left right | logical _ _ left right => [left, right]
  | unary _ _ operand => [operand]
  | call _ callee arguments => callee :: arguments
  | member _ owner name => [owner, name]
  | property _ key value => [key, value]

end Node

end NeutronLang
