import NeutronLang.Grammar.Statement
import NeutronLang.Proofs.Derivation

/-!
# Rendering trees

Which trees are those of programs (`IsProgram`), and how such a tree is written down: as words with
blank characters between them (`Spaced`), the words being one choice for each place of its rendering
(`places`). Parentheses stand exactly where an operand holds together less tightly than its place
asks for, bodies are in braces, and simple statements have their semicolon. Where the language has
two ways of writing the same, in two signs or in a word, and `elif` for `else if`, both are choices.

Nothing here refers to the lexer or to a reader of the grammar.
-/

namespace NeutronLang.Rendering

open Grammar

/-! ## Words -/

/-- A word of a rendering: the `kind` and the text of the token that it stands for. -/
structure Word where
  kind : TokenKind
  lexeme : String
deriving DecidableEq

/-- The `Word` that a token is, wherever it was read. -/
def Word.ofToken (token : Token) : Word := ⟨token.kind, token.lexeme⟩

/-- How a word is spelled. Logical operators that are not reserved words are spelled in signs. -/
def Word.spelling (word : Word) : List Char :=
  match word.kind, word.lexeme with
  | .operator, "and" => ['&', '&']
  | .operator, "or" => ['|', '|']
  | _, lexeme => lexeme.toList

/-- Words are written one after the other as `Word.spelling` has them, with blank characters around
them and at least one between two of them. -/
inductive Spaced : List Word → List Char → Prop where
  | nil : Spaced [] []
  | blank {c : Char} {words : List Word} {text : List Char} : Text.isBlank c = true →
      Spaced words text → Spaced words (c :: text)
  | last {word : Word} : Spaced [word] word.spelling
  | word {word : Word} {c : Char} {words : List Word} {text : List Char} : Text.isBlank c = true →
      Spaced words text → Spaced (word :: words) (word.spelling ++ c :: text)

/-! ## Places -/

/-- A place of a rendering, at which some words can be chosen: its `Place.choices`. -/
inductive Place where
  /-- A word with one way of writing it. -/
  | word (kind : TokenKind) (lexeme : String)
  /-- A logical operator can be a reserved word or two signs. -/
  | logical (operator : String)
  /-- The next conditional of a chain can be opened by one reserved word or by two. -/
  | elseIf

/-- What can be written at a `Place`. -/
def Place.choices : Place → List (List Word)
  | word kind lexeme => [[⟨kind, lexeme⟩]]
  | logical operator => [[⟨.keyword, operator⟩], [⟨.operator, operator⟩]]
  | elseIf => [[⟨.keyword, "elif"⟩], [⟨.keyword, "else"⟩, ⟨.keyword, "if"⟩]]

/-- The words of one choice for each place, freely made among its `Place.choices`. -/
inductive Chosen : List Place → List Word → Prop where
  | nil : Chosen [] []
  | cons {place : Place} {places : List Place} {words rest : List Word} :
      words ∈ place.choices → Chosen places rest → Chosen (place :: places) (words ++ rest)

/-- The place of a reserved word, with `lexeme` for its only choice. -/
abbrev keyword (lexeme : String) : Place := .word .keyword lexeme

/-- The place of a symbol, with `lexeme` for its only choice. -/
abbrev symbol (lexeme : String) : Place := .word .symbol lexeme

/-- The place of a name, of which `this` is the one that is reserved. -/
def namePlace (name : String) : Place :=
  .word (if name = "this" then .keyword else .identifier) name

/-- The place of a literal of a type. -/
def literalPlace (type raw : String) : Place :=
  match type with
  | "number" => .word .number raw
  | "string" => .word .string raw
  | _ => .word .keyword raw

/-- The place of a binary operator that is not logical: two signs or one. -/
def operatorPlace (operator : String) : Place :=
  .word (if operator.length = 2 then .operator else .symbol) operator

/-- How tightly a node holds together, as levels of the grammar have it (`precedence?`). -/
def level : Node → Nat
  | .binary _ operator _ _ | .logical _ operator _ _ => (precedence? operator).getD 0
  | .unary .. => prefixLevel
  | .call .. | .member .. | .identifier .. => pathLevel
  | _ => operandLevel

/-- An operand at a place for phrases of the level `least`: in parentheses if it is looser than
that. -/
def operandPlaces (least : Nat) (operand : Node) (inner : List Place) : List Place :=
  if level operand < least then symbol "(" :: (inner ++ [symbol ")"]) else inner

/-- Items with commas between them. -/
def listPlaces : List (List Place) → List Place
  | [] => []
  | [item] => item
  | item :: next :: items => item ++ symbol "," :: listPlaces (next :: items)

/-- What follows the body of a conditional, given by `inner` how its alternative is written by
itself. -/
def alternatePlaces (alternate : Node) (inner : List Place) : List Place :=
  match alternate with
  | .absent => []
  | .ifStatement .. => .elseIf :: inner.tail
  | _ => keyword "else" :: inner

/-- An initial value with its equals sign, given by `inner` how it is written by itself. -/
def initPlaces (init : Node) (inner : List Place) : List Place :=
  if init.isAbsent then [] else symbol "=" :: inner

/-- The semicolon of a statement that has one. -/
def endPlaces : Node → List Place
  | .variableDeclaration .. | .assignment .. | .expressionStatement .. | .returnStatement .. =>
    [symbol ";"]
  | _ => []

mutual

/-- The places of a tree, without the semicolon that may end it as a statement (`endPlaces`). -/
@[simp] def places : Node → List Place
  | .absent => []
  | .program _ statements _ => statementPlaces statements
  | .variableDeclaration _ type name init =>
    keyword "var" :: (type.toList.map keyword ++ places name ++ initPlaces init (places init))
  | .ifStatement _ test consequent alternate =>
    keyword "if" :: symbol "(" :: (places test ++ symbol ")" :: (places consequent ++
      alternatePlaces alternate (places alternate)))
  | .whileStatement _ test body =>
    keyword "while" :: symbol "(" :: (places test ++ symbol ")" :: places body)
  | .forStatement _ init test update body =>
    keyword "for" :: symbol "(" :: (places init ++ symbol ";" :: (places test ++ symbol ";" ::
      (places update ++ symbol ")" :: places body)))
  | .block _ statements => symbol "\x7b" :: (statementPlaces statements ++ [symbol "\x7d"])
  | .functionDeclaration _ name params body =>
    keyword "fun" :: (places name ++ symbol "(" :: (listPlaces (placesOfAll params) ++
      symbol ")" :: places body))
  | .classDeclaration _ name body => keyword "class" :: (places name ++ places body)
  | .returnStatement _ argument => keyword "return" :: places argument
  | .expressionStatement _ expression => places expression
  | .assignment _ operator target value => places target ++ symbol operator :: places value
  | .binary _ operator left right =>
    let least := (precedence? operator).getD 0
    operandPlaces least left (places left) ++ operatorPlace operator ::
      operandPlaces (least + 1) right (places right)
  | .logical _ operator left right =>
    let least := (precedence? operator).getD 0
    operandPlaces least left (places left) ++ .logical operator ::
      operandPlaces (least + 1) right (places right)
  | .unary _ operator operand =>
    .word (if operator = "not" then .keyword else .symbol) operator ::
      operandPlaces prefixLevel operand (places operand)
  | .call _ callee arguments =>
    places callee ++ symbol "(" :: (listPlaces (placesOfAll arguments) ++ [symbol ")"])
  | .member _ owner name => places owner ++ symbol "." :: places name
  | .array _ elements => symbol "[" :: (listPlaces (placesOfAll elements) ++ [symbol "]"])
  | .object _ properties =>
    symbol "\x7b" :: (listPlaces (placesOfAll properties) ++ [symbol "\x7d"])
  | .property _ key value => places key ++ symbol ":" :: places value
  | .identifier _ name => [namePlace name]
  | .literal _ _ raw type => [literalPlace type raw]

/-- The `places` of each of some trees. -/
def placesOfAll : List Node → List (List Place)
  | [] => []
  | node :: nodes => places node :: placesOfAll nodes

/-- The places of statements, each with its semicolon if it has one (`endPlaces`). -/
def statementPlaces : List Node → List Place
  | [] => []
  | node :: nodes => places node ++ endPlaces node ++ statementPlaces nodes

end

/-- `placesOfAll` gives the `places` of each tree. -/
theorem placesOfAll_eq_map (nodes : List Node) : placesOfAll nodes = nodes.map places := by
  induction nodes with
  | nil => rfl
  | cons node nodes ih => rw [placesOfAll, ih, List.map_cons]

/-! ## Well-formed trees -/

/-- A name is written as an identifier that is none of the `keywords`. -/
def IsName (name : String) : Prop :=
  name ∉ keywords ∧ ∃ c tail, name.toList = c :: tail ∧ isWordStart c = true ∧
    ∀ d ∈ tail, isWordChar d = true

/-- A numeral is written as a digit with digits and points after it. -/
def IsNumeral (raw : String) : Prop :=
  ∃ c tail, raw.toList = c :: tail ∧ c.isDigit = true ∧ ∀ d ∈ tail, isNumberChar d = true

/-- A string is written in quotes, with a backslash before each such quote inside. -/
def IsQuoted (raw : String) : Prop :=
  ∃ quote body, isQuote quote = true ∧ Lexicon.Enclosed quote body ∧
    raw.toList = quote :: (body ++ [quote])

/-- A property of an object: the text of its `key`, its `value`, and the spans that do not
matter. -/
structure Entry where
  span : Span
  keySpan : Span
  key : String
  value : Node

/-- A property as a `Node`. -/
def Entry.node (entry : Entry) : Node :=
  .property entry.span (.literal entry.keySpan (.ofQuoted entry.key) entry.key "string") entry.value

/-- The trees of expressions, with names as `IsName` has them. What is called and what has members
is a name, a call or a member. -/
inductive IsExpression : Node → Prop where
  | number {span : Span} {raw : String} : IsNumeral raw →
      IsExpression (.literal span (.ofNumeral raw) raw "number")
  | string {span : Span} {raw : String} : IsQuoted raw →
      IsExpression (.literal span (.ofQuoted raw) raw "string")
  | true {span : Span} : IsExpression (.literal span (.boolean true) "true" "boolean")
  | false {span : Span} : IsExpression (.literal span (.boolean false) "false" "boolean")
  | nil {span : Span} : IsExpression (.literal span .nil "nil" "nil")
  | name {span : Span} {name : String} : IsName name ∨ name = "this" →
      IsExpression (.identifier span name)
  | binary {span : Span} {operator : String} {left right : Node} :
      (precedence? operator).isSome → operator ∉ logicalOperators →
      IsExpression left → IsExpression right → IsExpression (.binary span operator left right)
  | logical {span : Span} {operator : String} {left right : Node} :
      operator ∈ logicalOperators → IsExpression left → IsExpression right →
      IsExpression (.logical span operator left right)
  | unary {span : Span} {operator : String} {operand : Node} : operator ∈ prefixOperators →
      IsExpression operand → IsExpression (.unary span operator operand)
  | call {span : Span} {callee : Node} {arguments : List Node} : level callee = pathLevel →
      IsExpression callee → (∀ argument ∈ arguments, IsExpression argument) →
      IsExpression (.call span callee arguments)
  | member {span nameSpan : Span} {owner : Node} {name : String} : level owner = pathLevel →
      IsExpression owner → IsName name →
      IsExpression (.member span owner (.identifier nameSpan name))
  | array {span : Span} {elements : List Node} : (∀ element ∈ elements, IsExpression element) →
      IsExpression (.array span elements)
  | object {span : Span} {entries : List Entry} : (∀ entry ∈ entries, IsQuoted entry.key) →
      (∀ entry ∈ entries, IsExpression entry.value) →
      IsExpression (.object span (entries.map Entry.node))

/-- The trees of variable declarations. Their type is one of `typeKeywords`, if there is any. -/
inductive IsDeclaration : Node → Prop where
  | mk {span nameSpan : Span} {type : Option String} {name : String} {init : Node} :
      (∀ typeName ∈ type, typeName ∈ typeKeywords) → IsName name →
      (init = .absent ∨ IsExpression init) →
      IsDeclaration (.variableDeclaration span type (.identifier nameSpan name) init)

/-- The trees of assignments to a name, which may be `this`. -/
inductive IsAssignment : Node → Prop where
  | mk {span nameSpan : Span} {name : String} {value : Node} : IsName name ∨ name = "this" →
      IsExpression value → IsAssignment (.assignment span "=" (.identifier nameSpan name) value)

/-- Whether a rendering starts with a name that is not reserved. -/
def StartsWithName (places : List Place) : Prop :=
  ∃ name rest, places = .word .identifier name :: rest

/-- The trees of statements, whose bodies are blocks of statements and whose conditions are
expressions (`IsExpression`). -/
inductive IsStatement : Node → Prop where
  | declaration {node : Node} : IsDeclaration node → IsStatement node
  | assignment {node : Node} : IsAssignment node → StartsWithName (places node) → IsStatement node
  | expression {span : Span} {expression : Node} : IsExpression expression →
      StartsWithName (places expression) → IsStatement (.expressionStatement span expression)
  | returns {span : Span} {argument : Node} : (argument = .absent ∨ IsExpression argument) →
      IsStatement (.returnStatement span argument)
  | conditional {span bodySpan : Span} {test : Node} {body : List Node} : IsExpression test →
      (∀ statement ∈ body, IsStatement statement) →
      IsStatement (.ifStatement span test (.block bodySpan body) .absent)
  | conditionalElse {span bodySpan otherSpan : Span} {test : Node} {body other : List Node} :
      IsExpression test → (∀ statement ∈ body, IsStatement statement) →
      (∀ statement ∈ other, IsStatement statement) →
      IsStatement (.ifStatement span test (.block bodySpan body) (.block otherSpan other))
  | conditionalChain {span bodySpan nextSpan : Span} {test nextTest consequent alternate : Node}
      {body : List Node} : IsExpression test → (∀ statement ∈ body, IsStatement statement) →
      IsStatement (.ifStatement nextSpan nextTest consequent alternate) →
      IsStatement (.ifStatement span test (.block bodySpan body)
        (.ifStatement nextSpan nextTest consequent alternate))
  | loop {span bodySpan : Span} {test : Node} {body : List Node} : IsExpression test →
      (∀ statement ∈ body, IsStatement statement) →
      IsStatement (.whileStatement span test (.block bodySpan body))
  | forLoop {span bodySpan : Span} {init test update : Node} {body : List Node} :
      (init = .absent ∨ IsDeclaration init ∨ IsExpression init ∨ IsAssignment init) →
      (test = .absent ∨ IsExpression test) →
      (update = .absent ∨ IsExpression update ∨ IsAssignment update) →
      (∀ statement ∈ body, IsStatement statement) →
      IsStatement (.forStatement span init test update (.block bodySpan body))
  | function {span nameSpan bodySpan : Span} {name : String} {params : List (Span × String)}
      {body : List Node} : IsName name → (∀ param ∈ params, IsName param.2) →
      (∀ statement ∈ body, IsStatement statement) →
      IsStatement (.functionDeclaration span (.identifier nameSpan name)
        (params.map fun param => .identifier param.1 param.2) (.block bodySpan body))
  | declaredClass {span nameSpan bodySpan : Span} {name : String} {body : List Node} :
      IsName name → (∀ statement ∈ body, IsStatement statement) →
      IsStatement (.classDeclaration span (.identifier nameSpan name) (.block bodySpan body))

/-- The trees of programs without syntax errors: any statements (`IsStatement`) one after the
other. -/
inductive IsProgram : Node → Prop where
  | mk {span : Span} {statements : List Node} :
      (∀ statement ∈ statements, IsStatement statement) → IsProgram (.program span statements [])

end NeutronLang.Rendering
