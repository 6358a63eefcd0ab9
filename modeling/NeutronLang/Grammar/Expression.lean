import NeutronLang.Grammar.Rule

/-!
# Reading expressions

Binary operators by how tightly they bind, all of them grouping to the left; then prefix operators;
then operands with the calls and member accesses that follow a name. An expression is read by
climbing: what follows a left operand is an operator and a right operand, which takes only the
operators that bind more tightly.

Each definition that repeats a step takes a bound on the repetitions. A number of tokens that is not
below that of the tokens ahead never stops a repetition early, since every step reads one of them;
`expression` starts with that number.
-/

namespace NeutronLang.Grammar

/-! ## Operators -/

/-- How tightly the binary operators bind, the loosest first. -/
def precedences : List (String × Nat) :=
  [("or", 1), ("and", 2), ("==", 3), ("!=", 3), ("<", 4), ("<=", 4), (">", 4), (">=", 4),
   ("+", 5), ("-", 5), ("*", 6), ("/", 6), ("%", 6)]

/-- How tightly a binary operator binds, if `lexeme` is one of the `precedences`. -/
def precedence? (lexeme : String) : Option Nat := precedences.lookup lexeme

/-- Whether a token is a binary operator that binds at least as tightly as `least`. -/
def bindsFrom (least : Nat) (token : Token) : Bool :=
  (precedence? token.lexeme).any (least ≤ ·)

/-- The operators of logical expressions. -/
def logicalOperators : List String := ["and", "or"]

/-- The operators that stand before their operand. -/
def prefixOperators : List String := ["not", "-"]

/-- The node of a binary operator between two operands, which for `logicalOperators` is of a kind of
its own. -/
def operation (operator : String) (left right : Node) : Node :=
  let span := Span.between left.span.start right.span.stop
  if logicalOperators.contains operator then .logical span operator left right
  else .binary span operator left right

/-- Reads what follows a left operand: operators that bind at least as tightly as `least`, each with
a right operand that takes the operators which bind more tightly. -/
def climb (operand : Rule Node) : (bound least : Nat) → Node → Rule Node
  | 0, _, left => pure left
  | bound + 1, least, left => do
    match ← Rule.accept (bindsFrom least) with
    | none => pure left
    | some token =>
      let first ← operand
      let right ← climb operand bound ((precedence? token.lexeme).getD 0 + 1) first
      climb operand bound least (operation token.lexeme left right)

/-- Reads an expression whose operators bind at least as tightly as given, by `climb`. -/
def binary (bound : Nat) (operand : Rule Node) (least : Nat) : Rule Node := do
  climb operand bound least (← operand)

/-- Reads an operand with the operators (`prefixOperators`) before it. -/
def unary (operand : Rule Node) : (bound : Nat) → Rule Node
  | 0 => operand
  | bound + 1 => do
    match ← Rule.accept (prefixOperators.contains ·.lexeme) with
    | none => operand
    | some token =>
      let argument ← unary operand bound
      return .unary (.between token.start argument.span.stop) token.lexeme argument

/-! ## Operands -/

/-- The literal that a token is by itself. -/
def literal? (token : Token) : Option Node :=
  let node (value : LiteralValue) (type : String) : Option Node :=
    some (.literal token.span value token.lexeme type)
  match token.kind with
  | .number => node (.ofNumeral token.lexeme) "number"
  | .string => node (.ofQuoted token.lexeme) "string"
  | .keyword =>
    match token.lexeme with
    | "true" => node (.boolean true) "boolean"
    | "false" => node (.boolean false) "boolean"
    | "nil" => node .nil "nil"
    | _ => none
  | _ => none

/-- Whether a token names something: an identifier, or `this`. -/
def isOperandName (token : Token) : Bool :=
  token.isIdentifier || (token.isKeyword && token.lexeme == "this")

/-- Whether a token is the symbol with the text `lexeme`. -/
def isSymbol (lexeme : String) (token : Token) : Bool :=
  token.kind == .symbol && token.lexeme == lexeme

/-- Reads the calls and member accesses that follow an operand; `arguments` reads what a call has in
its parentheses. -/
def suffixes (arguments : Rule (List Node × Token)) : (bound : Nat) → Node → Rule Node
  | 0, operand => pure operand
  | bound + 1, operand => do
    match ← Rule.accept fun token => token.lexeme == "(" || token.lexeme == "." with
    | none => pure operand
    | some token =>
      if token.lexeme == "(" then
        let (found, close) ← arguments
        let span := .between operand.span.start close.stop
        suffixes arguments bound (.call span operand found)
      else
        let member ← Rule.name .memberName
        let span := .between operand.span.start member.span.stop
        suffixes arguments bound (.member span operand member)

/-- Reads a property of an object: its key, a colon and its value, an `expression`. -/
def property (expression : Rule Node) : Rule Node := do
  let key ← Rule.require (·.kind == .string) .propertyKey
  let _ ← Rule.expect ":" .propertyColon
  let value ← expression
  let keyNode := Node.literal key.span (.ofQuoted key.lexeme) key.lexeme "string"
  return .property (.between key.start value.span.stop) keyNode value

/-- Reads the rest of an array after its opening bracket, which starts at `start`. -/
def arrayRest (bound : Nat) (expression : Rule Node) (start : Int) : Rule Node := do
  let (elements, close) ← Rule.items bound expression "]" .arrayEnd
  return .array (.between start close.stop) elements

/-- Reads the rest of an object after its opening brace, which starts at `start`. -/
def objectRest (bound : Nat) (expression : Rule Node) (start : Int) : Rule Node := do
  let (properties, close) ← Rule.items bound (property expression) "\x7d" .objectEnd
  return .object (.between start close.stop) properties

/-- Reads an operand: a literal, a name with what follows it (`suffixes`), an expression in
parentheses, an array or an object. The expressions inside are read by the rule `expression`. -/
def operand (bound : Nat) (expression : Rule Node) : Rule Node := do
  let some token ← Rule.next? | Rule.unexpected
  if let some node := literal? token then
    Rule.skip
    return node
  else if isOperandName token then
    Rule.skip
    suffixes (Rule.items bound expression ")" .callCloseParen) bound token.node
  else if isSymbol "(" token then
    Rule.skip
    let inner ← expression
    let _ ← Rule.expect ")" .expressionCloseParen
    return inner
  else if isSymbol "[" token then
    Rule.skip
    arrayRest bound expression token.start
  else if isSymbol "\x7b" token then
    Rule.skip
    objectRest bound expression token.start
  else Rule.unexpected

/-! ## Expressions -/

/-- Reads an expression from at most `bound` tokens; of none there is none. -/
def expressionWithin : (bound : Nat) → Rule Node
  | 0 => Rule.unexpected
  | bound + 1 =>
    binary (bound + 1) (unary (operand bound (expressionWithin bound)) (bound + 1)) 1

/-- A rule for the tokens ahead, by a `rule` for at most a given number of them. -/
def withTokensAhead {α : Type} (rule : (bound : Nat) → Rule α) : Rule α := fun cursor =>
  rule cursor.ahead.length cursor

/-- Reads an expression, by `expressionWithin` for the tokens ahead. -/
def expression : Rule Node := withTokensAhead expressionWithin

/-- Reads an `operand` together with the expressions inside it. -/
def fullOperand : Rule Node := withTokensAhead fun bound => operand bound (expressionWithin bound)

/-- Reads an operand and the operators before it (`unary`). -/
def fullUnary : Rule Node := withTokensAhead (unary fullOperand)

/-- Reads an expression whose operators bind more tightly than given, for callers that ask for a
part of the grammar. The rules here read `expression` as a whole. -/
def expressionAbove (precedence : Nat) : Rule Node :=
  withTokensAhead fun bound => binary bound fullUnary (precedence + 1)

/-- Reads an expression or, if that is a bare name before an equals sign, an assignment to it. -/
def expressionOrAssignment : Rule Node := do
  match ← expression with
  | .identifier span name =>
    match ← Rule.acceptText "=" with
    | none => pure (.identifier span name)
    | some _ =>
      let value ← expression
      return .assignment (.between span.start value.span.stop) "=" (.identifier span name) value
  | other => pure other

end NeutronLang.Grammar
