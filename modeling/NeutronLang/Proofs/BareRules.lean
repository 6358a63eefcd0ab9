import NeutronLang.Proofs.BareTokens
import NeutronLang.Proofs.Reading

/-!
# Rules on bare tokens

What a rule gives of bare tokens is what it gives of the tokens, made bare: the tree without its
spans, or the same failure. That is kept by everything that rules are put together with, so each
rule has a lemma here that is little more than its definition read aloud; what there is to see is
that rules take tokens by their text, and by their kind only where that tells names, words and signs
apart.
-/

namespace NeutronLang

open Grammar

/-- The outcome of a rule, without layout; `f` takes it off what the rule gives. -/
def Failure.bareOutcome {α β : Type} (f : α → β) :
    Except Failure (α × Cursor) → Except Failure (β × Cursor)
  | .ok (x, stop) => .ok (f x, stop.bare)
  | .error failure => .error failure.bare

/-- The rule `bared` gives of bare tokens what `rule` gives of the tokens, without layout. -/
def Rule.Bares {α β : Type} (f : α → β) (rule : Rule α) (bared : Rule β) : Prop :=
  ∀ start : Cursor, bared start.bare = Failure.bareOutcome f (rule start)

namespace Rule

variable {α β γ δ : Type} {f : α → β} {g : γ → δ}

/-- `>>=` bares if both of its rules do. -/
theorem Bares.bind {rule : Rule α} {bared : Rule β} {next : α → Rule γ} {next' : β → Rule δ}
    (h : Bares f rule bared) (hnext : ∀ x, Bares g (next x) (next' (f x))) :
    Bares g (rule >>= next) (bared >>= next') := by
  intro start
  show (bared start.bare >>= fun (y, middle) => next' y middle) =
    Failure.bareOutcome g (rule start >>= fun (x, middle) => next x middle)
  rw [h start]
  cases rule start with
  | ok outcome => exact hnext outcome.1 outcome.2
  | error failure => rfl

/-- `pure` bares if its answers do. -/
theorem bares_pure {x : α} {y : β} (h : y = f x) : Bares f (pure x) (pure y) := by
  subst h
  exact fun start => rfl

/-- `get` bares: the place is that among the bare tokens. -/
theorem bares_get : Bares Cursor.bare (get : Rule Cursor) get := fun _ => rfl

/-- `sees` bares: the same texts are seen. -/
theorem bares_sees (lexeme : String) : Bares id (sees lexeme : Rule Bool) (sees lexeme) := by
  intro start
  show Except.ok (start.bare.sees lexeme, start.bare) = _
  rw [Cursor.sees_bare]
  rfl

/-- `next?` bares: the next token is the bare one. -/
theorem bares_next? : Bares (Option.map Token.bare) (next? : Rule (Option Token)) next? := by
  intro start
  show Except.ok (start.bare.next?, start.bare) = _
  rw [Cursor.next?_bare]
  rfl

/-- `skip` bares. -/
theorem bares_skip : Bares id (skip : Rule Unit) skip := by
  intro start
  show Except.ok ((), start.bare.advance) = _
  rw [Cursor.advance_bare]
  rfl

/-- `accept` bares if a bare token is wanted where the token is. -/
theorem bares_accept {wanted : Token → Bool} (h : ∀ token, wanted token.bare = wanted token) :
    Bares (Option.map Token.bare) (accept wanted : Rule (Option Token)) (accept wanted) := by
  intro start
  show Except.ok (start.bare.accept wanted) = _
  rw [start.accept_bare h]
  rfl

/-- `acceptText` bares. -/
theorem bares_acceptText (lexeme : String) :
    Bares (Option.map Token.bare) (acceptText lexeme : Rule (Option Token)) (acceptText lexeme) :=
  bares_accept fun _ => rfl

/-- `unexpected` bares. -/
theorem bares_unexpected (f : α → β) : Bares f unexpected unexpected :=
  fun start => congrArg Except.error start.unexpected_bare

/-- `missing` bares. -/
theorem bares_missing (f : α → β) (wanted : Wanted) : Bares f (missing wanted) (missing wanted) :=
  fun start => congrArg Except.error (start.missing_bare wanted)

/-- `require` bares if a bare token is accepted where the token is. -/
theorem bares_require {accepted : Token → Bool} (h : ∀ token, accepted token.bare = accepted token)
    (wanted : Wanted) : Bares Token.bare (require accepted wanted) (require accepted wanted) := by
  refine (bares_accept h).bind fun token? => ?_
  cases token? with
  | some token => exact bares_pure rfl
  | none => exact bares_missing _ wanted

/-- `expect` bares. -/
theorem bares_expect (lexeme : String) (wanted : Wanted) :
    Bares Token.bare (expect lexeme wanted) (expect lexeme wanted) :=
  bares_require (fun _ => rfl) wanted

/-- `name` bares. -/
theorem bares_name (wanted : Wanted) : Bares Node.withoutSpans (name wanted) (name wanted) :=
  (bares_require Token.isIdentifier_bare wanted).bind fun _ => bares_pure rfl

/-- `moreItems` bares if its item does. -/
theorem bares_moreItems {item : Rule α} {bared : Rule β} (h : Bares f item bared) (bound : Nat) :
    Bares (List.map f) (moreItems item bound) (moreItems bared bound) := by
  induction bound with
  | zero => exact bares_pure rfl
  | succ bound ih =>
    refine (bares_acceptText ",").bind fun comma? => ?_
    cases comma? with
    | none => exact bares_pure rfl
    | some comma => exact h.bind fun first => ih.bind fun more => bares_pure rfl

/-- `items` bares if its item does. -/
theorem bares_items {item : Rule α} {bared : Rule β} (h : Bares f item bared) (bound : Nat)
    (close : String) (wanted : Wanted) :
    Bares (Prod.map (List.map f) Token.bare) (items bound item close wanted)
      (items bound bared close wanted) := by
  have hitems : Bares (List.map f) (itemsBefore bound item close)
      (itemsBefore bound bared close) := by
    refine (bares_sees close).bind fun seen => ?_
    cases seen with
    | true => exact bares_pure rfl
    | false =>
      exact h.bind fun first => (bares_moreItems h bound).bind fun more => bares_pure rfl
  exact hitems.bind fun found => (bares_expect close wanted).bind fun closing => bares_pure rfl

end Rule

namespace Grammar

open Rule Node

/-! ## Expressions -/

/-- `withoutSpans` leaves a tree without a place. -/
@[simp] theorem span_withoutSpans (tree : Node) : tree.withoutSpans.span = .point 0 := by
  cases tree <;> rfl

/-- `operation` of operands without spans is the operation without spans. -/
theorem operation_withoutSpans (operator : String) (left right : Node) :
    operation operator left.withoutSpans right.withoutSpans =
      (operation operator left right).withoutSpans := by
  unfold operation
  rw [span_withoutSpans, span_withoutSpans]
  dsimp only
  split <;> (unfold withoutSpans; rw [mapSpans]; rfl)

/-- `literal?` of a bare token is the same literal without its span. -/
theorem literal?_bare (token : Token) :
    literal? token.bare = (literal? token).map Node.withoutSpans := by
  obtain ⟨kind, lexeme, start, stop⟩ := token
  cases kind with
  | operator =>
    by_cases hlogical : lexeme ∈ logicalOperators
    · -- as a word it is none of the words that are literals
      simp only [logicalOperators, List.mem_cons, List.not_mem_nil, or_false] at hlogical
      rcases hlogical with rfl | rfl <;> rfl
    · simp [literal?, Token.bare, hlogical]
  | keyword =>
    have hbare : Token.bare ⟨.keyword, lexeme, start, stop⟩ = ⟨.keyword, lexeme, 0, 0⟩ := by
      simp [Token.bare]
    rw [hbare]
    simp only [literal?]
    split <;> rfl
  | number | string | identifier | symbol => rfl

variable {expression bared : Rule Node}

/-- `climb` bares if its operands do. -/
theorem bares_climb {operand bared : Rule Node} (h : Bares withoutSpans operand bared)
    (bound : Nat) : ∀ least left, Bares withoutSpans (climb operand bound least left)
      (climb bared bound least left.withoutSpans) := by
  induction bound with
  | zero => exact fun _ left => bares_pure rfl
  | succ bound ih =>
    intro least left
    refine (bares_accept fun _ => rfl).bind fun token? => ?_
    cases token? with
    | none => exact bares_pure rfl
    | some token =>
      refine h.bind fun first => (ih _ first).bind fun right => ?_
      rw [operation_withoutSpans]
      exact ih least _

/-- `unary` bares if its operand does. -/
theorem bares_unary {operand bared : Rule Node} (h : Bares withoutSpans operand bared)
    (bound : Nat) : Bares withoutSpans (unary operand bound) (unary bared bound) := by
  induction bound with
  | zero => exact h
  | succ bound ih =>
    refine (bares_accept fun _ => rfl).bind fun token? => ?_
    cases token? with
    | none => exact h
    | some token =>
      refine ih.bind fun argument => bares_pure ?_
      rw [span_withoutSpans]
      rfl

/-- `isOperandName` is the same for a bare token. -/
@[simp] theorem isOperandName_bare (token : Token) :
    isOperandName token.bare = isOperandName token := by
  have hthis := token.isKeyword_bare_and (· == "this") (by decide)
  unfold isOperandName
  rw [Token.isIdentifier_bare, Token.lexeme_bare, hthis]

/-- `isSymbol` is the same for a bare token. -/
@[simp] theorem isSymbol_bare (lexeme : String) (token : Token) :
    isSymbol lexeme token.bare = isSymbol lexeme token := by
  unfold isSymbol
  rw [token.kind_bare_beq .symbol (by decide) (by decide), Token.lexeme_bare]

/-- `suffixes` bares if its arguments do. -/
theorem bares_suffixes {arguments bared : Rule (List Node × Token)}
    (h : Bares (Prod.map (List.map withoutSpans) Token.bare) arguments bared) (bound : Nat) :
    ∀ owner, Bares withoutSpans (suffixes arguments bound owner)
      (suffixes bared bound owner.withoutSpans) := by
  induction bound with
  | zero => exact fun owner => bares_pure rfl
  | succ bound ih =>
    intro owner
    -- each suffix makes a new owner, for which the induction has the rest
    have hnode (node : Node) {next : Node} (hnext : next = node.withoutSpans) :
        Bares withoutSpans (suffixes arguments bound node) (suffixes bared bound next) :=
      hnext ▸ ih node
    refine (bares_accept fun _ => rfl).bind fun token? => ?_
    cases token? with
    | none => exact bares_pure rfl
    | some token =>
      show Bares withoutSpans (if token.lexeme == "(" then _ else _)
        (if token.lexeme == "(" then _ else _)
      split
      · refine h.bind fun found => hnode _ ?_
        rw [span_withoutSpans]
        simp only [withoutSpans, mapSpans, mapSpansOfAll_eq_map]
        rfl
      · refine (bares_name _).bind fun member => hnode _ ?_
        rw [span_withoutSpans, span_withoutSpans]
        rfl

/-- `property` bares if its value does. -/
theorem bares_property (h : Bares withoutSpans expression bared) :
    Bares withoutSpans (property expression) (property bared) := by
  have hkey := fun token : Token => token.kind_bare_beq .string (by decide) (by decide)
  refine (bares_require hkey _).bind fun key => (bares_expect _ _).bind fun _ =>
    h.bind fun value => bares_pure ?_
  rw [span_withoutSpans]
  rfl

/-- `operand` bares if the expressions in it do. -/
theorem bares_operand (h : Bares withoutSpans expression bared) (bound : Nat) :
    Bares withoutSpans (operand bound expression) (operand bound bared) := by
  refine bares_next?.bind fun token? => ?_
  cases token? with
  | none => exact bares_unexpected _
  | some token =>
    have hskip {rest : Rule Node} {rest' : Rule Node} (hrest : Bares withoutSpans rest rest') :
        Bares withoutSpans (skip >>= fun _ => rest) (skip >>= fun _ => rest') :=
      bares_skip.bind fun _ => hrest
    -- whatever is asked of the token has the same answer of the bare one
    have hliteral := literal?_bare token
    dsimp only [Option.map_some]
    rw [hliteral]
    cases literal? token with
    | some node => exact hskip (bares_pure rfl)
    | none =>
      dsimp only [Option.map_none]
      rw [isOperandName_bare, isSymbol_bare, isSymbol_bare, isSymbol_bare]
      split
      · exact hskip (bares_suffixes (bares_items h bound _ _) bound _)
      split
      · exact hskip (h.bind fun inner => (bares_expect _ _).bind fun _ => bares_pure rfl)
      split
      · refine hskip ((bares_items h bound _ _).bind fun found => bares_pure ?_)
        simp only [withoutSpans, mapSpans, mapSpansOfAll_eq_map]
        rfl
      split
      · refine hskip ((bares_items (bares_property h) bound _ _).bind fun found => bares_pure ?_)
        simp only [withoutSpans, mapSpans, mapSpansOfAll_eq_map]
        rfl
      · exact bares_unexpected _

/-- `expressionWithin` bares. -/
theorem bares_expressionWithin (bound : Nat) :
    Bares withoutSpans (expressionWithin bound) (expressionWithin bound) := by
  induction bound with
  | zero => exact bares_unexpected _
  | succ bound ih =>
    have hunary := bares_unary (bares_operand ih bound) (bound + 1)
    exact hunary.bind fun left => bares_climb hunary (bound + 1) 1 left

/-- `expression` bares. -/
theorem bares_expression : Bares withoutSpans Grammar.expression Grammar.expression := by
  intro start
  show expressionWithin start.bare.ahead.length start.bare = _
  rw [Cursor.length_ahead_bare]
  exact bares_expressionWithin start.ahead.length start

/-- `expressionOrAssignment` bares. -/
theorem bares_expressionOrAssignment :
    Bares withoutSpans expressionOrAssignment expressionOrAssignment := by
  refine bares_expression.bind fun tree => ?_
  cases tree with
  | identifier span name =>
    refine (bares_acceptText "=").bind fun equals? => ?_
    cases equals? with
    | none => exact bares_pure rfl
    | some equals =>
      refine bares_expression.bind fun value => bares_pure ?_
      rw [span_withoutSpans]
      rfl
  | _ => exact bares_pure rfl

/-! ## Parts of statements -/

/-- A declaration without layout, as `binding` reads it from bare tokens. -/
def Binding.bare (found : Binding) : Binding :=
  ⟨0, found.type, found.name.withoutSpans, found.init.withoutSpans⟩

/-- `bare` leaves a declaration without a place. -/
@[simp] theorem Binding.span_bare (found : Binding) : found.bare.span = .point 0 := by
  unfold Binding.span Binding.bare
  dsimp only
  rw [span_withoutSpans, span_withoutSpans]
  split <;> rfl

/-- `node` of a bare declaration is that of the declaration, but for the spans. -/
theorem Binding.node_bare (found : Binding) (stop : Int) :
    found.bare.node 0 = (found.node stop).withoutSpans := rfl

/-- `binding` bares. -/
theorem bares_binding (keyword : Token) :
    Bares Binding.bare (binding keyword) (binding keyword.bare) := by
  have htype := fun token : Token => token.isKeyword_bare_and typeKeywords.contains (by decide)
  have hinitial : Bares withoutSpans initialValue initialValue := by
    refine (bares_acceptText "=").bind fun equals? => ?_
    cases equals? with
    | none => exact bares_pure rfl
    | some equals => exact bares_expression
  refine (bares_accept htype).bind fun type => (bares_name _).bind fun name =>
    hinitial.bind fun init => bares_pure ?_
  rw [Option.map_map]
  rfl

/-- `parameters` bare. -/
theorem bares_parameters (bound : Nat) :
    Bares (List.map withoutSpans) (parameters bound) (parameters bound) := by
  have hparameter : Bares (List.map withoutSpans) parameter parameter := by
    refine (bares_accept Token.isIdentifier_bare).bind fun token? => bares_pure ?_
    cases token? <;> rfl
  have hmore (bound : Nat) :
      Bares (List.map withoutSpans) (moreParameters bound) (moreParameters bound) := by
    induction bound with
    | zero => exact bares_pure rfl
    | succ bound ih =>
      refine (bares_acceptText ",").bind fun comma? => ?_
      cases comma? with
      | none => exact bares_pure rfl
      | some comma =>
        exact hparameter.bind fun first => ih.bind fun more => bares_pure List.map_append.symm
  refine (bares_sees ")").bind fun seen => ?_
  cases seen with
  | true => exact bares_pure rfl
  | false =>
    exact hparameter.bind fun first => (hmore bound).bind fun more =>
      bares_pure List.map_append.symm

/-- `classBodyAhead` bares. -/
theorem bares_classBodyAhead : Bares id classBodyAhead classBodyAhead := by
  refine (bares_sees "\x7b").bind fun seen => ?_
  cases seen with
  | true => exact bares_pure rfl
  | false => exact bares_missing _ _

/-- `optionalClause` bares if its clause does. -/
theorem bares_optionalClause {clause : Rule Node} (h : Bares withoutSpans clause clause)
    (close : String) :
    Bares withoutSpans (optionalClause close clause) (optionalClause close clause) := by
  refine (bares_sees close).bind fun seen => ?_
  cases seen with
  | true => exact bares_pure rfl
  | false => exact h

/-- `loopInit` bares. -/
theorem bares_loopInit : Bares withoutSpans loopInit loopInit := by
  refine (bares_acceptText "var").bind fun keyword? => ?_
  cases keyword? with
  | none => exact bares_expressionOrAssignment
  | some keyword =>
    refine (bares_binding keyword).bind fun found => bares_pure ?_
    rw [Binding.span_bare]
    exact found.node_bare _

/-- `returnStatement` bares. -/
theorem bares_returnStatement (start : Cursor) :
    Bares withoutSpans (returnStatement start) (returnStatement start.bare) := by
  have hends (place : Cursor) : returnEnds place.bare = returnEnds place := by
    unfold returnEnds
    rw [Cursor.atEnd_bare, Cursor.sees_bare, Cursor.sees_bare]
  have hrest (argument : Node) : Bares withoutSpans (do
        let _ ← acceptText ";"
        return .returnStatement (start.spanTo (← get)) argument)
      (do
        let _ ← acceptText ";"
        return .returnStatement (start.bare.spanTo (← get)) argument.withoutSpans) := by
    refine (bares_acceptText ";").bind fun _ => bares_get.bind fun stop => bares_pure ?_
    rw [Cursor.spanTo_bare]
    rfl
  refine bares_get.bind fun place => ?_
  dsimp only
  rw [hends]
  split
  · exact (bares_pure rfl).bind hrest
  · exact bares_expression.bind hrest

end Grammar

end NeutronLang
