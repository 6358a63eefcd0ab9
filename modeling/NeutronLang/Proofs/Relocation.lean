import NeutronLang.Node.Basic

/-!
# Trees with other spans

A tree says two things: what was read, and where. `Node.mapSpans` changes the second and keeps the
first. With all spans made equal (`Node.withoutSpans`), two trees are equal if they differ in spans
only.
-/

namespace NeutronLang.Node

mutual

/-- The tree with each span replaced by what `f` makes of it. -/
@[simp] def mapSpans (f : Span → Span) : Node → Node
  | absent => .absent
  | program span statements errors => .program (f span) (mapSpansOfAll f statements) errors
  | variableDeclaration span type name init =>
    .variableDeclaration (f span) type (mapSpans f name) (mapSpans f init)
  | ifStatement span test consequent alternate =>
    .ifStatement (f span) (mapSpans f test) (mapSpans f consequent) (mapSpans f alternate)
  | whileStatement span test body => .whileStatement (f span) (mapSpans f test) (mapSpans f body)
  | forStatement span init test update body =>
    .forStatement (f span) (mapSpans f init) (mapSpans f test) (mapSpans f update) (mapSpans f body)
  | block span body => .block (f span) (mapSpansOfAll f body)
  | functionDeclaration span name params body =>
    .functionDeclaration (f span) (mapSpans f name) (mapSpansOfAll f params) (mapSpans f body)
  | classDeclaration span name body =>
    .classDeclaration (f span) (mapSpans f name) (mapSpans f body)
  | returnStatement span argument => .returnStatement (f span) (mapSpans f argument)
  | expressionStatement span expression => .expressionStatement (f span) (mapSpans f expression)
  | assignment span operator target value =>
    .assignment (f span) operator (mapSpans f target) (mapSpans f value)
  | binary span operator left right =>
    .binary (f span) operator (mapSpans f left) (mapSpans f right)
  | logical span operator left right =>
    .logical (f span) operator (mapSpans f left) (mapSpans f right)
  | unary span operator operand => .unary (f span) operator (mapSpans f operand)
  | call span callee arguments => .call (f span) (mapSpans f callee) (mapSpansOfAll f arguments)
  | member span owner name => .member (f span) (mapSpans f owner) (mapSpans f name)
  | array span elements => .array (f span) (mapSpansOfAll f elements)
  | object span properties => .object (f span) (mapSpansOfAll f properties)
  | property span key value => .property (f span) (mapSpans f key) (mapSpans f value)
  | identifier span name => .identifier (f span) name
  | literal span value raw type => .literal (f span) value raw type

/-- The trees with each span replaced by what `f` makes of it. -/
@[simp] def mapSpansOfAll (f : Span → Span) : List Node → List Node
  | [] => []
  | node :: nodes => mapSpans f node :: mapSpansOfAll f nodes

end

/-- `mapSpansOfAll` changes trees in a list one by one. -/
@[simp] theorem mapSpansOfAll_eq_map (f : Span → Span) (nodes : List Node) :
    mapSpansOfAll f nodes = nodes.map (mapSpans f) := by
  induction nodes with
  | nil => rfl
  | cons node nodes ih => rw [mapSpansOfAll, ih, List.map_cons]

/-- `mapSpans` changes the span of a tree, unless there is no tree. -/
theorem span_mapSpans (f : Span → Span) {node : Node} (h : node.isAbsent = false) :
    (node.mapSpans f).span = f node.span := by
  cases node with
  | absent => cases h
  | _ => rw [mapSpans]; rfl

/-- `mapSpans` leaves a tree absent or present. -/
@[simp] theorem isAbsent_mapSpans (f : Span → Span) (node : Node) :
    (node.mapSpans f).isAbsent = node.isAbsent := by
  cases node <;> rw [mapSpans] <;> rfl

mutual

/-- `mapSpans` by the identity leaves a tree as it is. -/
theorem mapSpans_id : (node : Node) → mapSpans id node = node
  | absent => by rw [mapSpans]
  | program _ statements _ => by simp only [mapSpans, mapSpansOfAll_id statements, id]
  | variableDeclaration _ _ name init => by
    simp only [mapSpans, mapSpans_id name, mapSpans_id init, id]
  | ifStatement _ test consequent alternate => by
    simp only [mapSpans, mapSpans_id test, mapSpans_id consequent, mapSpans_id alternate, id]
  | whileStatement _ test body => by simp only [mapSpans, mapSpans_id test, mapSpans_id body, id]
  | forStatement _ init test update body => by
    simp only [mapSpans, mapSpans_id init, mapSpans_id test, mapSpans_id update, mapSpans_id body,
      id]
  | block _ body => by simp only [mapSpans, mapSpansOfAll_id body, id]
  | functionDeclaration _ name params body => by
    simp only [mapSpans, mapSpans_id name, mapSpansOfAll_id params, mapSpans_id body, id]
  | classDeclaration _ name body => by simp only [mapSpans, mapSpans_id name, mapSpans_id body, id]
  | returnStatement _ argument => by simp only [mapSpans, mapSpans_id argument, id]
  | expressionStatement _ expression => by simp only [mapSpans, mapSpans_id expression, id]
  | assignment _ _ target value => by
    simp only [mapSpans, mapSpans_id target, mapSpans_id value, id]
  | binary _ _ left right => by simp only [mapSpans, mapSpans_id left, mapSpans_id right, id]
  | logical _ _ left right => by simp only [mapSpans, mapSpans_id left, mapSpans_id right, id]
  | unary _ _ operand => by simp only [mapSpans, mapSpans_id operand, id]
  | call _ callee arguments => by
    simp only [mapSpans, mapSpans_id callee, mapSpansOfAll_id arguments, id]
  | member _ owner name => by simp only [mapSpans, mapSpans_id owner, mapSpans_id name, id]
  | array _ elements => by simp only [mapSpans, mapSpansOfAll_id elements, id]
  | object _ properties => by simp only [mapSpans, mapSpansOfAll_id properties, id]
  | property _ key value => by simp only [mapSpans, mapSpans_id key, mapSpans_id value, id]
  | identifier _ _ => by simp only [mapSpans, id]
  | literal _ _ _ _ => by simp only [mapSpans, id]

/-- `mapSpansOfAll` by the identity leaves trees as they are. -/
theorem mapSpansOfAll_id : (nodes : List Node) → mapSpansOfAll id nodes = nodes
  | [] => by rw [mapSpansOfAll]
  | node :: nodes => by rw [mapSpansOfAll, mapSpans_id node, mapSpansOfAll_id nodes]

end

/-- The tree with all spans made equal. -/
def withoutSpans : Node → Node := mapSpans fun _ => .point 0

end NeutronLang.Node
