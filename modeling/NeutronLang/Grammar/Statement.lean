import NeutronLang.Grammar.Expression
import NeutronLang.Grammar.Trace

/-!
# Reading statements

A statement is read by an attempt that the token it opens with selects. Where an attempt fails the
statement is given up, and reading goes on at the next boundary; a missing semicolon is noted and
costs nothing else. So lists of statements, and the blocks that hold them, are always read.

As with expressions, bounds are numbers not below that of the tokens ahead.
-/

namespace NeutronLang.Grammar

/-! ## Ends of statements -/

/-- Reads the semicolon that ends a statement, and answers where the statement then ends. Without
one the statement ends at `stop`, where its last part does, and the rest of that line is
reported. -/
def terminate (lineEnd : Int → Int) (after : Clause) (stop : Int) : Recovering Int := do
  let place := (← get).index
  match ← Rule.acceptText ";" with
  | some token =>
    record (.terminated after place)
    return token.stop
  | none =>
    record (.unterminated (.missingSemicolon after stop (lineEnd stop)) place)
    return stop

/-! ## Lists of statements and blocks -/

/-- The body of a construct: statements and the span that they take, with braces where they stand.
Its `Body.node` is a block. -/
structure Body where
  span : Span
  statements : List Node

/-- A body as a `block` node. -/
def Body.node (body : Body) : Node := .block body.span body.statements

/-- Whether a list of statements ends here: at the end, or at the token `closing`. -/
def listEnds (closing : Option String) : Recovering Bool := fun cursor =>
  pure (cursor.atEnd || closing.any cursor.sees, cursor)

/-- Reads statements up to the end or to the token `closing`, which is left. -/
def statements (closing : Option String) (statement : Recovering (Option Node)) :
    (bound : Nat) → Recovering (List Node)
  | 0 => pure []
  | bound + 1 => do
    if ← listEnds closing then return []
    let first ← statement
    return first.toList ++ (← statements closing statement bound)

/--
Reads a body: statements in braces, where the last brace may be missing at the end of the tokens,
or a single statement without any.
-/
def body (statement : Recovering (Option Node)) (bound : Nat) : Recovering Body := do
  let start ← get
  match ← Rule.acceptText "\x7b" with
  | some opening =>
    let found ← statements (some "\x7d") statement bound
    let stop ← get
    match ← Rule.acceptText "\x7d" with
    | some closing =>
      record (.closed start.index stop.index)
      return ⟨.between opening.start closing.stop, found⟩
    | none =>
      record (.unclosed start.index)
      return ⟨.between opening.start stop.lastStop, found⟩
  | none =>
    let found ← statement
    let stop ← get
    return ⟨start.spanTo stop, found.toList⟩

/-! ## Declarations -/

/-- The parts of a variable declaration, without the semicolon at its end. They come from
`binding`. -/
structure Binding where
  start : Int
  type : Option String
  name : Node
  init : Node

/-- The span of a declaration without its semicolon, up to the end of its last part. -/
def Binding.span (binding : Binding) : Span :=
  .between binding.start
    (if binding.init.isAbsent then binding.name.span.stop else binding.init.span.stop)

/-- A declaration as a node that ends at `stop`. -/
def Binding.node (binding : Binding) (stop : Int) : Node :=
  .variableDeclaration (.between binding.start stop) binding.type binding.name binding.init

/-- Whether a token names the type of a declaration: one of `typeKeywords`. -/
def isTypeName (token : Token) : Bool := token.isKeyword && typeKeywords.contains token.lexeme

/-- Reads the initial value of a declaration, if there is one. -/
def initialValue : Rule Node := do
  match ← Rule.acceptText "=" with
  | some _ => expression
  | none => pure .absent

/-- Reads a variable declaration after its `keyword`. -/
def binding (keyword : Token) : Rule Binding := do
  let type ← Rule.accept isTypeName
  let name ← Rule.name .variableName
  let init ← initialValue
  return ⟨keyword.start, type.map (·.lexeme), name, init⟩

/-- Reads a variable declaration (`binding`) and its semicolon after its `keyword`. -/
def declaration (lineEnd : Int → Int) (keyword : Token) : Attempt Node := do
  let found ← binding keyword
  let stop ← terminate lineEnd .variableDeclaration found.span.stop
  return found.node stop

/-- Reads a `parameter`; a place between commas may also be empty. -/
def parameter : Rule (List Node) := do
  let token ← Rule.accept (·.isIdentifier)
  return token.toList.map Token.node

/-- Reads further parameters, each after a comma. -/
def moreParameters : (bound : Nat) → Rule (List Node)
  | 0 => pure []
  | bound + 1 => do
    match ← Rule.acceptText "," with
    | none => pure []
    | some _ =>
      let first ← parameter
      return first ++ (← moreParameters bound)

/-- Reads the parameters of a function, up to the closing parenthesis. -/
def parameters (bound : Nat) : Rule (List Node) := do
  if ← Rule.sees ")" then return []
  let first ← parameter
  return first ++ (← moreParameters bound)

/-- Reads a function after its keyword, with `parameters` and a body. -/
def functionStatement (bound : Nat) (body : Recovering Body) (keyword : Token) : Attempt Node := do
  let name ← Rule.name .functionName
  let _ ← Rule.expect "(" .functionOpenParen
  let params ← parameters bound
  let _ ← Rule.expect ")" .parametersCloseParen
  let body ← body
  return .functionDeclaration (.between keyword.start body.span.stop) name params body.node

/-- Reads the opening brace of a class, which is left where it is. -/
def classBodyAhead : Rule Unit := do
  if ← Rule.sees "\x7b" then return () else Rule.missing .classBody

/-- Reads a class after its `keyword`. -/
def classStatement (body : Recovering Body) (keyword : Token) : Attempt Node := do
  let name ← Rule.name .className
  classBodyAhead
  let body ← body
  return .classDeclaration (.between keyword.start body.span.stop) name body.node

/-! ## Control flow -/

/-- Reads a conditional after its keyword, what follows its body being read by `alternate`. -/
def conditional (alternate : Attempt Node) (body : Recovering Body) (keyword : Token) :
    Attempt Node := do
  let _ ← Rule.expect "(" (.openParen keyword.lexeme)
  let test ← expression
  let _ ← Rule.expect ")" .ifCloseParen
  let consequent ← body
  let alternate ← alternate
  let stop := if alternate.isAbsent then consequent.span.stop else alternate.span.stop
  return .ifStatement (.between keyword.start stop) test consequent.node alternate

/-- Reads what follows the body of a conditional: another conditional, a last body, or nothing. -/
def alternate (body : Recovering Body) : (bound : Nat) → Attempt Node
  | 0 => pure .absent
  | bound + 1 => do
    match ← Rule.acceptText "else" with
    | some _ =>
      match ← Rule.acceptText "if" with
      | some keyword => conditional (alternate body bound) body keyword
      | none => return (← body).node
    | none =>
      match ← Rule.acceptText "elif" with
      | some keyword => conditional (alternate body bound) body keyword
      | none => pure .absent

/-- Reads a `conditional` with all its alternatives after its keyword. -/
def ifStatement (bound : Nat) (body : Recovering Body) (keyword : Token) : Attempt Node :=
  conditional (alternate body bound) body keyword

/-- Reads a loop with a condition after its `keyword`. -/
def whileStatement (body : Recovering Body) (keyword : Token) : Attempt Node := do
  let _ ← Rule.expect "(" (.openParen "while")
  let test ← expression
  let _ ← Rule.expect ")" .whileCloseParen
  let body ← body
  return .whileStatement (.between keyword.start body.span.stop) test body.node

/-- Reads one `clause` of a loop's head, unless the token `close` comes first. -/
def optionalClause (close : String) (clause : Rule Node) : Rule Node := do
  if ← Rule.sees close then return .absent else clause

/-- Reads what a loop starts with: a declaration, an assignment or an expression. -/
def loopInit : Rule Node := do
  match ← Rule.acceptText "var" with
  | some keyword =>
    let found ← binding keyword
    return found.node found.span.stop
  | none => expressionOrAssignment

/-- Reads a loop with three clauses after its `keyword`. -/
def forStatement (body : Recovering Body) (keyword : Token) : Attempt Node := do
  let _ ← Rule.expect "(" (.openParen "for")
  let init ← optionalClause ";" loopInit
  let _ ← Rule.expect ";" .initSemicolon
  let test ← optionalClause ";" expression
  let _ ← Rule.expect ";" .testSemicolon
  let update ← optionalClause ")" expressionOrAssignment
  let _ ← Rule.expect ")" .forCloseParen
  let body ← body
  return .forStatement (.between keyword.start body.span.stop) init test update body.node

/-- Whether a return ends before any value: at the end, at a semicolon or at a closing brace. -/
def returnEnds (cursor : Cursor) : Bool := cursor.atEnd || cursor.sees ";" || cursor.sees "\x7d"

/-- Reads a return, which began at `start`, after its keyword; its last semicolon is optional. -/
def returnStatement (start : Cursor) : Rule Node := do
  let argument ← if returnEnds (← get) then pure Node.absent else expression
  let _ ← Rule.acceptText ";"
  return .returnStatement (start.spanTo (← get)) argument

/-! ## Statements -/

/-- Reads an expression or an assignment (`expressionOrAssignment`) as a statement, with its
semicolon. -/
def expressionStatement (lineEnd : Int → Int) : Attempt Node := do
  match ← expressionOrAssignment with
  | .assignment span operator target value =>
    let stop ← terminate lineEnd .assignment span.stop
    return .assignment (.between span.start stop) operator target value
  | expression =>
    let stop ← terminate lineEnd .statement expression.span.stop
    return .expressionStatement (.between expression.span.start stop) expression

/-- The reader of the statements that begin at `start` with a reserved word, after that word. -/
def keywordStatement? (lineEnd : Int → Int) (bound : Nat) (body : Recovering Body)
    (start : Cursor) (keyword : Token) : Option (Attempt Node) :=
  if keyword.isKeyword then
    match keyword.lexeme with
    | "var" => some (declaration lineEnd keyword)
    | "if" => some (ifStatement bound body keyword)
    | "while" => some (whileStatement body keyword)
    | "for" => some (forStatement body keyword)
    | "fun" => some (functionStatement bound body keyword)
    | "class" => some (classStatement body keyword)
    | "return" => some (returnStatement start)
    | _ => none
  else none

/-- Reads past a token that starts no statement, and on to the next boundary (`synchronize`). -/
def skipToBoundary (token : Token) : Recovering (Option Node) := fun start =>
  let stop := start.advance.synchronize
  ⟨(none, stop), [.skipped token start.index stop.index]⟩

/-- Records that the attempt that began at `start` has read a statement. -/
def completed (start : Cursor) (node : Node) : Attempt (Option Node) := do
  record (.completed start.index (← get).index)
  return some node

/-- Reads a statement, or fails; what starts no statement is skipped (`skipToBoundary`) and gives
none. -/
def attempt (lineEnd : Int → Int) (bound : Nat) (body : Recovering Body) :
    Attempt (Option Node) := do
  let start ← get
  let some token := start.next? | return none
  record (.began start.index)
  match keywordStatement? lineEnd bound body start token with
  | some rest =>
    Rule.skip
    completed start (← rest)
  | none =>
    if token.isIdentifier then completed start (← expressionStatement lineEnd)
    else skipToBoundary token

/-- Reads a statement from at most `bound` tokens; of none there is none. What `attempt` fails on is
recovered from. -/
def statementWithin (lineEnd : Int → Int) : (bound : Nat) → Recovering (Option Node)
  | 0 => pure none
  | bound + 1 =>
    (attempt lineEnd bound (body (statementWithin lineEnd bound) bound)).recover

/-! ## Programs -/

/-- The body rule for the tokens ahead of a cursor, whose statements `statementWithin` reads. -/
def bodyWithin (lineEnd : Int → Int) (bound : Nat) : Recovering Body :=
  body (statementWithin lineEnd bound) bound

/-- Where a program ends: with `text` or with its last token, whichever is later. -/
def programStop (text : List Char) (tokens : List Token) : Int :=
  match tokens.getLast? with
  | some token => max text.length token.stop
  | none => text.length

/-- Reads the `tokens` of a document as a program; `text` is that of the document. -/
def program (text : List Char) (tokens : List Token) : Traced Node :=
  let bound := tokens.length
  let outcome := statements none (statementWithin (Text.lineEnd text) bound) bound
    (Cursor.ofTokens tokens)
  let node := .program (.between 0 (programStop text tokens)) outcome.value.1 outcome.errors
  ⟨node, outcome.events⟩

end NeutronLang.Grammar
