import NeutronLang.Typing.Inference

/-!
# Checking types

One walk over a syntax tree that keeps the symbol table and notes each declaration or assignment
whose value does not fit. Constructs with variables of their own open a scope and close it again,
whatever happens inside. As in inference, the operands of a chain of operators are kept on a list.

The walk stops only where a declared type is none, or where a name or a body is due and the tree has
something else; no tree read from a document is like that. What was noted and defined until then
stays.
-/

namespace NeutronLang

/-- What a value is given to: `Receiver.text` names it in the message of a `TypeMismatch`. -/
inductive Receiver where
  | declaration (name : String)
  | assignment (name : String)
deriving DecidableEq

/-- The words that say what a value is given to. -/
def Receiver.text : Receiver → String
  | declaration name => s!"for variable '{name}'"
  | assignment name => s!"when assigning to '{name}'"

/-- A value that does not fit the type declared for it (`TypeTag.accepts`). -/
structure TypeMismatch where
  expected : TypeTag
  actual : TypeTag
  receiver : Receiver
  span : Span
deriving DecidableEq

/-- The `Problem` that a mismatch is. -/
def TypeMismatch.problem (mismatch : TypeMismatch) : Problem where
  message :=
    let types := s!"expected {mismatch.expected.name} but got {mismatch.actual.name}"
    s!"Type mismatch: {types} {mismatch.receiver.text}"
  span := mismatch.span
  code := some "S001"
  help := some s!"Provide a value of type {mismatch.expected.name} here."

/-- The state of a check: the variables known so far and the `mismatches` noted. -/
structure Checking where
  table : SymbolTable
  mismatches : List TypeMismatch
deriving DecidableEq

/-- What stops a `Check`. -/
inductive Obstacle where
  /-- The declared type is none. -/
  | unknownType (fault : UnknownName)
  /-- What is declared or assigned to is not a name. -/
  | notName (found : Node)
  /-- The body of a function or a class is not a block. -/
  | notBlock (found : Node)

/-- A step of a check. It may meet an `Obstacle`, and keeps what was done before it. -/
abbrev Check (α : Type) := ExceptT Obstacle (StateM Checking) α

namespace Check

/-- The symbol table. -/
def table : Check SymbolTable := return (← get).table

/-- Defines a variable. -/
def define (name : String) (type : TypeTag) (offset : Int) : Check Unit :=
  modify fun state => { state with table := state.table.define ⟨name, type, some offset⟩ }

/-- Notes `mismatch` behind those noted before. -/
def note (mismatch : TypeMismatch) : Check Unit :=
  modify fun state => { state with mismatches := state.mismatches ++ [mismatch] }

/-- Takes a `step` in a scope of its own, which is closed even if the step stops the check. -/
def inScope (kind : ScopeKind) (step : Check Unit) : Check Unit :=
  ExceptT.mk fun state =>
    let (result, after) := step.run { state with table := state.table.enter kind }
    (result, { after with table := after.table.exit })

/-- The type that a declaration names; where there is none of that name the check meets an
`Obstacle`. -/
def declaredType (name : String) : Check TypeTag :=
  match TypeTag.ofName name with
  | .ok type => pure type
  | .error fault => throw (.unknownType fault)

/-- Defines a parameter of a function, with the type `any`. -/
def defineParam : Node → Check Unit
  | .identifier span name => define name .any span.start
  | other => throw (.notName other)

/-- Defines the parameters of a function, which only a nested table keeps apart. -/
def defineParams (params : List Node) : Check Unit := do
  if (← table).nested then params.forM defineParam

/-- Judges a declaration of the type `declared` by its value; a value that does not fit defines
nothing. -/
def declare (name : String) (start : Int) (declared : TypeTag) (init : Node) : Check Unit := do
  if init.isAbsent then define name declared start
  else
    let actual := (← table).infer init
    if declared.accepts actual then define name declared start
    else note ⟨declared, actual, .declaration name, init.span⟩

/-- Judges an assignment by its `value`, if the variable has a type that does not take all. -/
def judge (name : String) (value : Node) : Check Unit := do
  let table ← table
  match table.typeOf? name with
  | none | some .any => pure ()
  | some declared =>
    let actual := table.infer value
    if !declared.accepts actual then note ⟨declared, actual, .assignment name, value.span⟩

mutual

/-- Checks a tree. -/
def tree : Node → Check Unit
  | .absent | .identifier .. | .literal .. => pure ()
  | .variableDeclaration span none (.identifier _ name) init => do
    define name .any span.start
    tree init
  | .variableDeclaration span (some type) (.identifier _ name) init => do
    declare name span.start (← declaredType type) init
  | .assignment _ _ (.identifier _ name) value => do
    judge name value
    tree value
  | .variableDeclaration _ _ other _ | .assignment _ _ other _ => throw (.notName other)
  | .block _ nodes => inScope .block (trees nodes)
  | .forStatement _ init test update body => inScope .loop do
    tree init
    tree test
    tree update
    tree body
  | .functionDeclaration _ _ params (.block _ nodes) => inScope .function do
    defineParams params
    trees nodes
  | .functionDeclaration _ _ params other => inScope .function do
    defineParams params
    throw (.notBlock other)
  | .classDeclaration _ _ (.block _ nodes) => inScope .classBody (trees nodes)
  | .classDeclaration _ _ other => throw (.notBlock other)
  | .binary _ _ left right | .logical _ _ left right => operands [left, right]
  | .program _ nodes _ | .array _ nodes | .object _ nodes => trees nodes
  | .ifStatement _ test consequent alternate => do
    tree test
    tree consequent
    tree alternate
  | .whileStatement _ test body => do
    tree test
    tree body
  | .returnStatement _ node | .expressionStatement _ node | .unary _ _ node => tree node
  | .call _ callee arguments => do
    tree callee
    trees arguments
  | .member _ left right | .property _ left right => do
    tree left
    tree right
termination_by node => (sizeOf node, 0)

/-- Checks trees in order, each by `tree`. -/
def trees : List Node → Check Unit
  | [] => pure ()
  | node :: nodes => do
    tree node
    trees nodes
termination_by nodes => (sizeOf nodes, 1)

/-- Checks the operands of a chain, of which those `pending` are still to visit. -/
def operands : (pending : List Node) → Check Unit
  | [] => pure ()
  | .binary _ _ left right :: pending => operands (left :: right :: pending)
  | .logical _ _ left right :: pending => operands (left :: right :: pending)
  | node :: pending => do
    tree node
    operands pending
termination_by pending => (Node.sizes pending, 1)
decreasing_by
  all_goals simp +arith [Prod.lex_def, Node.sizeOf_pos]
  omega

end

end Check

/-- The check of a program's `statements`, from an empty table and with the `mismatches` noted
before. -/
def checkStatements (nested : Bool) (statements : List Node) (mismatches : List TypeMismatch) :
    Except Obstacle Unit × Checking :=
  (Check.trees statements).run ⟨.empty nested, mismatches⟩

end NeutronLang
