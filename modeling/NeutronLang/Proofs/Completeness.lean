import NeutronLang.Proofs.Soundness

/-!
# Phrases of the grammar are read

Every phrase whose tokens are spelled as the lexer spells them is read as a whole and answered with
its tree, if the token after it does not go on with an expression. What the induction over a
derivation needs at a level is what the rule for that level does with the phrase: at the levels of
the binary operators, reading an expression that starts with the phrase comes to climbing from its
tree (`ClimbRead`); at the level of names, reading an operand comes to reading calls and member
accesses after its tree (`PathRead`). In this way the bounds on repetitions need no lemmas of their
own.
-/

namespace NeutronLang

/-- The next token is none that goes on with an expression (`continuesExpression`). -/
def Cursor.Settled (place : Cursor) : Prop :=
  ∀ token ∈ place.ahead.head?, Grammar.continuesExpression token = false

/-- The next token is neither that of a call nor that of a member access. -/
def Cursor.Detached (place : Cursor) : Prop :=
  ∀ token ∈ place.ahead.head?, (token.lexeme == "(" || token.lexeme == ".") = false

/-- `Settled` places are followed by no call and no member access. -/
theorem Cursor.Settled.detached {start : Cursor} (h : start.Settled) : start.Detached := by
  intro token htoken
  have hcontinues := h token htoken
  unfold Grammar.continuesExpression at hcontinues
  rw [Bool.or_assoc, Bool.or_eq_false_iff] at hcontinues
  exact hcontinues.2

/-- `Settled` places are not followed by a binary operator. -/
theorem Cursor.Settled.loose {start : Cursor} (h : start.Settled) : Grammar.Loose 1 start := by
  intro token htoken precedence hprecedence
  have hcontinues := h token htoken
  unfold Grammar.continuesExpression at hcontinues
  rw [hprecedence] at hcontinues
  cases hcontinues

/-- From no more tokens than `bound`, a rule reads the phrase, unless an expression goes on. -/
def Rule.Takes {α : Type} (rule : Rule α) (bound : Nat) (tokens : List Token) (x : α) : Prop :=
  ∀ start stop, start.Reads tokens stop → start.ahead.length ≤ bound → stop.Settled →
    rule start = .ok (x, stop)

namespace Grammar

variable {α : Type} {start middle stop : Cursor} {tokens inner more : List Token} {tree : Node}
  {bound : Nat}

/-- `Settled` holds where the next token is one that divides phrases. -/
theorem settled_of_lexeme {token : Token} (h : start.Reads (token :: more) stop)
    (hlexeme : token.lexeme ∈ dividingTexts) : start.Settled := by
  intro found hfound
  obtain rfl := h.eq_of_mem_head? hfound
  -- The texts that divide phrases are few, and none of them is an operator, `(` or `.`.
  have hall : ∀ lexeme ∈ dividingTexts,
      ((precedence? lexeme).isSome || lexeme == "(" || lexeme == ".") = false := by decide
  exact hall _ hlexeme

/-! ## Lists -/

/-- `moreItems` reads nothing without a comma. -/
theorem moreItems_of_no_comma {item : Rule α} (count : Nat)
    (h : ∀ token ∈ start.ahead.head?, token.lexeme ≠ ",") :
    Rule.moreItems item count start = .ok ([], start) := by
  cases count with
  | zero => rfl
  | succ count =>
    unfold Rule.moreItems
    rw [Rule.bind_of_eq_ok (Rule.acceptText_of_ne h)]
    rfl

/-- `moreItems` reads phrases, each after a comma, one after the other. -/
theorem moreItems_of_separated {item : Rule α} {parts : List (List Token × α)}
    {phrase : List Token} (hparts : ∀ part ∈ parts, item.Takes bound part.1 part.2)
    (hseparated : Separated (phrase :: parts.map (·.1)) inner) :
    ∃ tokens, inner = phrase ++ tokens ∧ ∀ start middle stop closing count,
      start.Reads tokens middle → middle.Reads [closing] stop → closing.lexeme ∈ closingTexts →
      start.ahead.length ≤ bound → start.ahead.length ≤ count →
        start.Settled ∧ Rule.moreItems item count start = .ok (parts.map (·.2), middle) := by
  induction parts generalizing phrase inner with
  | nil =>
    cases hseparated
    refine ⟨[], (List.append_nil _).symm, ?_⟩
    intro start middle stop closing count hread hclose hclosing _ _
    obtain rfl := hread.eq_of_nil
    refine ⟨settled_of_lexeme hclose (List.mem_append_left _ hclosing), ?_⟩
    refine moreItems_of_no_comma count fun token htoken => ?_
    obtain rfl := hclose.eq_of_mem_head? htoken
    have hall : ∀ lexeme ∈ closingTexts, lexeme ≠ "," := by decide
    exact hall _ hclosing
  | cons part parts ih =>
    cases hseparated with
    | cons hcomma hrest =>
    obtain ⟨tokens, rfl, hmore⟩ := ih (fun p hp => hparts p (List.mem_cons_of_mem _ hp)) hrest
    refine ⟨_, rfl, ?_⟩
    intro start middle stop closing count hread hclose hclosing hbound hcount
    obtain ⟨afterComma, hfirst, hread⟩ := hread.exists_after_first
    obtain ⟨afterPart, hpart, hread⟩ := hread.exists_middle
    have hlength := hfirst.length_ahead_token
    have hlength' := hpart.length_ahead
    obtain ⟨count, rfl⟩ : ∃ n, count = n + 1 := ⟨count - 1, by omega⟩
    -- The later items come first, since a part is read only if what follows it is settled.
    obtain ⟨hsettled, hitems⟩ := hmore afterPart middle stop closing count hread hclose hclosing
      (by omega) (by omega)
    refine ⟨settled_of_lexeme hfirst (by rw [hcomma]; decide), ?_⟩
    have hitem := hparts part List.mem_cons_self afterComma afterPart hpart (by omega) hsettled
    unfold Rule.moreItems
    rw [Rule.bind_of_eq_ok (Rule.acceptText_of_eq hcomma hfirst)]
    simp only
    rw [Rule.bind_of_eq_ok hitem, Rule.bind_of_eq_ok hitems]
    rfl

/-- `items` reads phrases with commas between them up to the token that closes them. -/
theorem items_of_separated {item : Rule α} {parts : List (List Token × α)} {closing : Token}
    {close : String} (wanted : Wanted) (count : Nat)
    (hparts : ∀ part ∈ parts, item.Takes bound part.1 part.2)
    (hfirst : ∀ part ∈ parts, ∃ first rest, part.1 = first :: rest ∧ first.lexeme ∉ closingTexts)
    (hseparated : Separated (parts.map (·.1)) inner) (hclose : closing.lexeme = close)
    (hclosing : close ∈ closingTexts) (hread : start.Reads (inner ++ [closing]) stop)
    (hbound : start.ahead.length ≤ bound) (hcount : start.ahead.length ≤ count) :
    Rule.items count item close wanted start = .ok ((parts.map (·.2), closing), stop) := by
  subst hclose
  obtain ⟨middle, hinner, hlast⟩ := hread.exists_middle
  -- The closing token is read in the same way with items before it and without.
  suffices hbefore : Rule.itemsBefore count item closing.lexeme start =
      .ok (parts.map (·.2), middle) by
    unfold Rule.items
    rw [Rule.bind_of_eq_ok hbefore, Rule.bind_of_eq_ok (Rule.expect_eq_ok_iff.mpr ⟨rfl, hlast⟩)]
    rfl
  unfold Rule.itemsBefore
  cases parts with
  | nil =>
    cases hseparated
    obtain rfl := hinner.eq_of_nil
    have hsees : middle.sees closing.lexeme = true := by rw [hlast.sees_eq, beq_self_eq_true]
    rw [Rule.bind_of_eq_ok (Rule.sees_eq_ok_iff.mpr ⟨hsees.symm, rfl⟩)]
    rfl
  | cons part parts =>
    obtain ⟨tokens, rfl, hmore⟩ := moreItems_of_separated
      (fun p hp => hparts p (List.mem_cons_of_mem _ hp)) hseparated
    obtain ⟨afterPart, (hpart : start.Reads part.1 afterPart), htokens⟩ := hinner.exists_middle
    have hlength := hpart.length_ahead
    obtain ⟨hsettled, hitems⟩ := hmore afterPart middle stop closing count htokens hlast hclosing
      (by omega) (by omega)
    have hitem := hparts part List.mem_cons_self start afterPart hpart hbound hsettled
    obtain ⟨first, rest, hphrase, hopens⟩ := hfirst part List.mem_cons_self
    rw [hphrase] at hpart
    -- The first item does not start with the text of the closing token, so the list is not empty.
    have hsees : start.sees closing.lexeme = false := by
      rw [hpart.sees_eq]
      exact beq_eq_false_iff_ne.mpr fun h => hopens (h ▸ hclosing)
    rw [Rule.bind_of_eq_ok (Rule.sees_eq_ok_iff.mpr ⟨hsees.symm, rfl⟩), if_neg Bool.false_ne_true]
    rw [Rule.bind_of_eq_ok hitem, Rule.bind_of_eq_ok hitems]
    rfl

/-! ## What the rules do with a phrase -/

/-- Reading an operand comes to reading what follows the phrase, a name, at the place after it
(`suffixes`). -/
def PathRead (tokens : List Token) (tree : Node) : Prop :=
  ∀ bound start stop, start.Reads tokens stop → start.ahead.length ≤ bound + 1 →
    ∃ count, stop.ahead.length ≤ count ∧ operand bound (expressionWithin bound) start =
      suffixes (Rule.items bound (expressionWithin bound) ")" .callCloseParen) count tree stop

/-- The phrase is read as an `operand`. -/
def OperandRead (tokens : List Token) (tree : Node) : Prop :=
  ∀ bound start stop, start.Reads tokens stop → start.ahead.length ≤ bound + 1 → stop.Detached →
    operand bound (expressionWithin bound) start = .ok (tree, stop)

/-- The phrase is read as an operand with prefix operators before it, by `unary`. -/
def UnaryRead (tokens : List Token) (tree : Node) : Prop :=
  ∀ bound count start stop, start.Reads tokens stop → start.ahead.length ≤ bound + 1 →
    start.ahead.length ≤ count → stop.Detached →
      unary (operand bound (expressionWithin bound)) count start = .ok (tree, stop)

/-- Reading an expression comes to `climb` from the tree of the phrase at the place after it. -/
def ClimbRead (level : Nat) (tokens : List Token) (tree : Node) : Prop :=
  ∀ bound count least start stop, start.Reads tokens stop → start.ahead.length ≤ bound + 1 →
    start.ahead.length ≤ count → stop.Detached → Loose (level + 1) stop → least ≤ level →
      let operand := unary (operand bound (expressionWithin bound)) (bound + 1)
      ∃ climbs, stop.ahead.length ≤ climbs ∧
        binary count operand least start = climb operand climbs least tree stop

/-- `suffixes` reads nothing without a call or a member access. -/
theorem suffixes_of_detached {arguments : Rule (List Node × Token)} {count : Nat}
    (h : stop.Detached) : suffixes arguments count tree stop = .ok (tree, stop) := by
  cases count with
  | zero => rfl
  | succ count =>
    unfold suffixes
    rw [Rule.bind_of_eq_ok (Rule.accept_of_not_wanted h)]
    rfl

/-- `unary` reads an operand without a prefix operator. -/
theorem unary_of_no_sign {operand : Rule Node} {count : Nat}
    (h : ∀ token ∈ start.ahead.head?, prefixOperators.contains token.lexeme = false) :
    unary operand count start = operand start := by
  cases count with
  | zero => rfl
  | succ count =>
    rw [unary, Rule.bind_of_eq_ok (Rule.accept_of_not_wanted h)]

/-- A name that is followed by no call and no member access is a whole operand. -/
theorem PathRead.operand (h : PathRead tokens tree) : OperandRead tokens tree := by
  intro bound start stop hread hbound hdetached
  obtain ⟨count, -, heq⟩ := h bound start stop hread hbound
  rw [heq]
  exact suffixes_of_detached hdetached

/-- An operand without a prefix operator is read by `unary`. -/
theorem OperandRead.unary (h : OperandRead tokens tree)
    (hsign : ∀ token ∈ tokens.head?, prefixOperators.contains token.lexeme = false)
    (hne : tokens ≠ []) : UnaryRead tokens tree := by
  intro bound count start stop hread hbound _ hdetached
  obtain ⟨first, rest, rfl⟩ := List.exists_cons_of_ne_nil hne
  rw [unary_of_no_sign fun token htoken => hsign token (by rwa [hread.head?_ahead] at htoken)]
  exact h bound start stop hread hbound hdetached

/-- An operand with its prefix operators is climbed on from. -/
theorem UnaryRead.climb (h : UnaryRead tokens tree) : ClimbRead prefixLevel tokens tree := by
  intro bound count least start stop hread hbound hcount hdetached _ _
  have hlength := hread.length_ahead
  refine ⟨count, by omega, ?_⟩
  exact Rule.bind_of_eq_ok (h bound (bound + 1) start stop hread hbound hbound hdetached)

/-- `ClimbRead` at a level of binary operators holds at the looser ones. -/
theorem ClimbRead.of_le {level looser : Nat} (h : ClimbRead level tokens tree)
    (hle : looser ≤ level) : ClimbRead looser tokens tree := by
  intro bound count least start stop hread hbound hcount hdetached hloose hleast
  refine h bound count least start stop hread hbound hcount hdetached ?_ (by omega)
  intro token htoken precedence hprecedence
  have hlimit := hloose token htoken precedence hprecedence
  omega

/-- `climb` stops where no operator binds tightly enough. -/
theorem climb_of_loose {operand : Rule Node} {count least : Nat} (h : Loose least stop) :
    climb operand count least tree stop = .ok (tree, stop) := by
  cases count with
  | zero => rfl
  | succ count =>
    have hnone : ∀ token ∈ stop.ahead.head?, bindsFrom least token = false := by
      intro token htoken
      rw [Bool.eq_false_iff, ne_eq, bindsFrom_eq_true_iff]
      rintro ⟨precedence, hprecedence, hle⟩
      exact absurd hle (Nat.not_le_of_lt (h token htoken precedence hprecedence))
    rw [climb, Rule.bind_of_eq_ok (Rule.accept_of_not_wanted hnone)]
    rfl

/-- What the reader does with a phrase of a level: `ClimbRead` at that level and at the looser ones,
and what holds of the tighter phrases that it may be. -/
structure ReadAt (level : Nat) (tokens : List Token) (tree : Node) : Prop where
  path : level = pathLevel → PathRead tokens tree
  operand : operandLevel ≤ level → OperandRead tokens tree
  unary : prefixLevel ≤ level → UnaryRead tokens tree
  climb : ∀ looser, looser ≤ level → looser ≤ prefixLevel → ClimbRead looser tokens tree

/-- `ReadAt` the levels of binary operators asks for climbing only. -/
theorem ClimbRead.readAt {level : Nat} (h : ClimbRead level tokens tree)
    (hlevel : level < prefixLevel) : ReadAt level tokens tree where
  path := fun heq => absurd hlevel (by rw [heq]; decide)
  operand := fun hle => absurd (Nat.lt_of_le_of_lt hle hlevel) (by decide)
  unary := fun hle => absurd hlevel (Nat.not_lt_of_le hle)
  climb := fun _ hle _ => h.of_le hle

/-- `ReadAt` holds of a phrase with prefix operators at every level up to theirs. -/
theorem UnaryRead.readAt (h : UnaryRead tokens tree) : ReadAt prefixLevel tokens tree where
  path := fun heq => absurd heq (by decide)
  operand := fun hle => absurd hle (by decide)
  unary := fun _ => h
  climb := fun _ _ hle => h.climb.of_le hle

/-- `ReadAt` holds of an operand at every level up to its own. -/
theorem OperandRead.readAt (h : OperandRead tokens tree)
    (hderives : Derives operandLevel tokens tree)
    (hspelled : ∀ token ∈ tokens, Lexicon.Spelled token) : ReadAt operandLevel tokens tree := by
  have hsign := hderives.first_not_sign (by decide) hspelled
  obtain ⟨first, rest, rfl, -⟩ := hderives.exists_first
  have hunary := h.unary hsign (List.cons_ne_nil _ _)
  exact ⟨fun heq => absurd heq (by decide), fun _ => h, fun _ => hunary,
    fun _ _ hle => hunary.climb.of_le hle⟩

/-- `ReadAt` holds at every level of a name with what follows it. -/
theorem PathRead.readAt (h : PathRead tokens tree) (hderives : Derives pathLevel tokens tree)
    (hspelled : ∀ token ∈ tokens, Lexicon.Spelled token) : ReadAt pathLevel tokens tree := by
  have hoperand := h.operand.readAt (hderives.of_le (by decide) (by decide)) hspelled
  exact ⟨fun _ => h, fun _ => h.operand, fun _ => hoperand.unary (by decide),
    fun looser _ hle => hoperand.climb looser (Nat.le_trans hle (by decide)) hle⟩

/-- A phrase of the loosest level is read by `expressionWithin`. -/
theorem ReadAt.takes (h : ReadAt 1 tokens tree) (hne : tokens ≠ []) :
    (expressionWithin bound).Takes bound tokens tree := by
  intro start stop hread hbound hsettled
  have hlength := hread.length_ahead
  have hpos := List.length_pos_iff.mpr hne
  obtain ⟨bound, rfl⟩ : ∃ n, bound = n + 1 := ⟨bound - 1, by omega⟩
  have hloose : Loose 1 stop := hsettled.loose
  have hloose' : Loose 2 stop := fun token htoken precedence hprecedence =>
    Nat.lt_succ_of_lt (hloose token htoken precedence hprecedence)
  obtain ⟨climbs, -, heq⟩ := h.climb 1 (Nat.le_refl _) (by decide) bound (bound + 1) 1 start stop
    hread hbound hbound hsettled.detached hloose' (Nat.le_refl _)
  exact heq.trans (climb_of_loose hloose)

/-! ## Every phrase is read -/

/-- `ClimbRead` holds of two phrases with a binary operator between them. -/
theorem climbRead_binary {level : Nat} {operator : Token} {leftTokens rightTokens : List Token}
    {left right : Node} (hprecedence : precedence? operator.lexeme = some level)
    (hleft : ClimbRead level leftTokens left) (hright : ClimbRead (level + 1) rightTokens right) :
    ClimbRead level (leftTokens ++ operator :: rightTokens)
      (operation operator.lexeme left right) := by
  intro bound count least start stop hread hbound hcount hdetached hloose hleast reader
  obtain ⟨middle, hbefore, hafter⟩ := hread.exists_middle
  obtain ⟨afterOperator, hoperator, hafter⟩ := hafter.exists_after_first
  have hlength := hbefore.length_ahead
  have hlength' := hoperator.length_ahead_token
  -- What stands between the operands is a binary operator of this level, so the left one ends
  -- there.
  have hdetached' : middle.Detached := by
    intro found hfound
    obtain rfl := hoperator.eq_of_mem_head? hfound
    have hall : ∀ entry ∈ precedences, (entry.1 == "(" || entry.1 == ".") = false := by decide
    obtain ⟨before, after, hentries, -⟩ := List.lookup_eq_some_iff.mp hprecedence
    exact hall (operator.lexeme, level) (by rw [hentries]; simp)
  have hloose' : Loose (level + 1) middle := by
    intro found hfound precedence hfoundPrecedence
    obtain rfl := hoperator.eq_of_mem_head? hfound
    rw [hprecedence] at hfoundPrecedence
    obtain rfl := Option.some.inj hfoundPrecedence
    exact Nat.lt_succ_self level
  obtain ⟨climbs, hclimbs, hstart⟩ := hleft bound count least start middle hbefore hbound hcount
    hdetached' hloose' hleast
  obtain ⟨climbs, rfl⟩ : ∃ n, climbs = n + 1 := ⟨climbs - 1, by omega⟩
  -- The right operand is read by climbing from its first operand, up to where this level goes on.
  have hwhole : binary climbs reader (level + 1) afterOperator = .ok (right, stop) := by
    obtain ⟨more, -, heq⟩ := hright bound climbs (level + 1) afterOperator stop hafter (by omega)
      (by omega) hdetached (fun token htoken precedence h =>
        Nat.lt_succ_of_lt (hloose token htoken precedence h)) (Nat.le_refl _)
    exact heq.trans (climb_of_loose hloose)
  obtain ⟨first, afterFirst, hfirst, hrest⟩ := Rule.bind_eq_ok_iff.mp hwhole
  have hlength'' := hafter.length_ahead
  -- What is left to climb over starts behind the right operand.
  refine ⟨climbs, by omega, ?_⟩
  rw [hstart]
  have hbinds : bindsFrom least operator = true :=
    bindsFrom_eq_true_iff.mpr ⟨level, hprecedence, hleast⟩
  show climb reader (climbs + 1) least left middle = _
  rw [climb, Rule.bind_of_eq_ok (Rule.accept_of_wanted hbinds hoperator)]
  simp only [hprecedence, Option.getD_some]
  rw [Rule.bind_of_eq_ok hfirst, Rule.bind_of_eq_ok hrest]

/-- `UnaryRead` holds of a phrase with a prefix operator before it. -/
theorem unaryRead_sign {sign : Token} (hsign : prefixOperators.contains sign.lexeme = true)
    (h : UnaryRead tokens tree) :
    UnaryRead (sign :: tokens) (.unary (.between sign.start tree.span.stop) sign.lexeme tree) := by
  intro bound count start stop hread hbound hcount hdetached
  obtain ⟨middle, hfirst, hread⟩ := hread.exists_after_first
  have hlength := hfirst.length_ahead_token
  obtain ⟨count, rfl⟩ : ∃ n, count = n + 1 := ⟨count - 1, by omega⟩
  rw [unary, Rule.bind_of_eq_ok (Rule.accept_of_wanted hsign hfirst)]
  simp only
  rw [Rule.bind_of_eq_ok (h bound count middle stop hread (by omega) (by omega) hdetached)]
  rfl

/-- `OperandRead` holds of a literal. -/
theorem operandRead_literal {token : Token} {node : Node} (h : literal? token = some node) :
    OperandRead [token] node := by
  intro bound start stop hread _ _
  rw [operand_of_reads hread]
  simp only [h]

/-- A symbol is no literal and names nothing. -/
theorem not_literal_of_isSymbol {token : Token} {lexeme : String}
    (h : isSymbol lexeme token = true) :
    literal? token = none ∧ isOperandName token = false ∧
      ∀ other, other ≠ lexeme → isSymbol other token = false := by
  obtain ⟨hkind, hlexeme⟩ : token.kind = .symbol ∧ token.lexeme = lexeme := by
    simpa [isSymbol] using h
  refine ⟨by simp [literal?, hkind], by simp [isOperandName, Token.isIdentifier, Token.isKeyword,
    hkind], fun other hother => ?_⟩
  simp [isSymbol, hlexeme, Ne.symm hother]

/-- A name is no literal. -/
theorem not_literal_of_isOperandName {token : Token} (h : isOperandName token = true) :
    literal? token = none := by
  rcases Bool.or_eq_true_iff.mp h with hidentifier | hthis
  · have hkind : token.kind = .identifier := by simpa [Token.isIdentifier] using hidentifier
    simp [literal?, hkind]
  · obtain ⟨hkind, hlexeme⟩ : token.kind = .keyword ∧ token.lexeme = "this" := by
      simpa [Token.isKeyword] using hthis
    simp [literal?, hkind, hlexeme]

/-- `OperandRead` holds of an expression in parentheses. -/
theorem operandRead_parenthesised {opening closing : Token}
    (hopening : isSymbol "(" opening = true) (hclosing : closing.lexeme = ")")
    (h : ∀ bound, (expressionWithin bound).Takes bound tokens tree) :
    OperandRead (opening :: (tokens ++ [closing])) tree := by
  intro bound start stop hread hbound _
  obtain ⟨next, hfirst, hread⟩ := hread.exists_after_first
  obtain ⟨middle, htokens, hlast⟩ := hread.exists_middle
  obtain ⟨hliteral, hname, -⟩ := not_literal_of_isSymbol hopening
  have hlength := hfirst.length_ahead_token
  have hsettled : middle.Settled :=
    settled_of_lexeme hlast (by rw [hclosing]; decide)
  rw [operand_of_reads hfirst]
  simp only [hliteral, hname, hopening, if_true, Bool.false_eq_true, if_false]
  rw [Rule.bind_of_eq_ok (h bound next middle htokens (by omega) hsettled),
    Rule.bind_of_eq_ok (Rule.expect_eq_ok_iff.mpr ⟨hclosing, hlast⟩)]
  rfl

/-- `OperandRead` holds of an array. -/
theorem operandRead_array {opening closing : Token} {elements : List (List Token × Node)}
    (hopening : isSymbol "[" opening = true) (hclosing : closing.lexeme = "]")
    (h : ∀ element ∈ elements, ∀ bound, (expressionWithin bound).Takes bound element.1 element.2)
    (hfirst : ∀ element ∈ elements,
      ∃ first rest, element.1 = first :: rest ∧ first.lexeme ∉ closingTexts)
    (hseparated : Separated (elements.map (·.1)) tokens) :
    OperandRead (opening :: (tokens ++ [closing]))
      (.array (.between opening.start closing.stop) (elements.map (·.2))) := by
  intro bound start stop hread hbound _
  obtain ⟨next, hopen, hread⟩ := hread.exists_after_first
  obtain ⟨hliteral, hname, hother⟩ := not_literal_of_isSymbol hopening
  have hlength := hopen.length_ahead_token
  have hitems := items_of_separated .arrayEnd bound
    (fun element helement => h element helement bound) hfirst hseparated hclosing (by decide) hread
    (by omega) (by omega)
  rw [operand_of_reads hopen]
  simp only [hliteral, hname, hother "(" (by decide), hopening, if_true, Bool.false_eq_true,
    if_false]
  unfold arrayRest
  rw [Rule.bind_of_eq_ok hitems]
  rfl

/-- `property` reads the parts of a property. -/
theorem property_takes {parts : PropertyParts} (hkey : parts.key.kind = .string)
    (hcolon : parts.colon.lexeme = ":") {expression : Rule Node}
    (h : expression.Takes bound parts.valueTokens parts.value) :
    (property expression).Takes bound parts.tokens parts.node := by
  intro start stop hread hbound hsettled
  obtain ⟨afterKey, hfirst, hread⟩ := hread.exists_after_first
  obtain ⟨afterColon, hsecond, hread⟩ := hread.exists_after_first
  have hlength := hfirst.length_ahead
  have hlength' := hsecond.length_ahead
  have hvalue := h afterColon stop hread (by omega) hsettled
  have hstring : Rule.require (·.kind == .string) .propertyKey start = .ok (parts.key, afterKey) :=
    Rule.require_eq_ok_iff.mpr ⟨beq_iff_eq.mpr hkey, hfirst⟩
  unfold property
  rw [Rule.bind_of_eq_ok hstring,
    Rule.bind_of_eq_ok (Rule.expect_eq_ok_iff.mpr ⟨hcolon, hsecond⟩), Rule.bind_of_eq_ok hvalue]
  rfl

/-- `OperandRead` holds of an object. -/
theorem operandRead_object {opening closing : Token} {properties : List PropertyParts}
    (hopening : isSymbol "\x7b" opening = true) (hclosing : closing.lexeme = "\x7d")
    (hsigns : ∀ parts ∈ properties, parts.key.kind = .string ∧ parts.colon.lexeme = ":")
    (h : ∀ parts ∈ properties, ∀ bound,
      (expressionWithin bound).Takes bound parts.valueTokens parts.value)
    (hspelled : ∀ parts ∈ properties, Lexicon.Spelled parts.key)
    (hseparated : Separated (properties.map (·.tokens)) tokens) :
    OperandRead (opening :: (tokens ++ [closing]))
      (.object (.between opening.start closing.stop) (properties.map (·.node))) := by
  intro bound start stop hread hbound _
  obtain ⟨next, hopen, hread⟩ := hread.exists_after_first
  obtain ⟨hliteral, hname, hother⟩ := not_literal_of_isSymbol hopening
  have hlength := hopen.length_ahead_token
  -- As items of a list, properties are pairs of tokens and trees like all others.
  let phrases := properties.map fun parts => (parts.tokens, parts.node)
  have htakes : ∀ phrase ∈ phrases,
      (property (expressionWithin bound)).Takes bound phrase.1 phrase.2 := by
    intro phrase hphrase
    obtain ⟨parts, hparts, rfl⟩ := List.mem_map.mp hphrase
    obtain ⟨hkey, hcolon⟩ := hsigns parts hparts
    exact property_takes hkey hcolon (h parts hparts bound)
  have hfirst : ∀ phrase ∈ phrases,
      ∃ first rest, phrase.1 = first :: rest ∧ first.lexeme ∉ closingTexts := by
    intro phrase hphrase
    obtain ⟨parts, hparts, rfl⟩ := List.mem_map.mp hphrase
    refine ⟨parts.key, _, rfl, fun hmem => ?_⟩
    have hkey := hspelled parts hparts
    -- A property starts with its key, a string, which is not spelled as a closing token.
    have hall : ∀ lexeme ∈ closingTexts, Lexicon.spells .string lexeme = false := by decide
    unfold Lexicon.Spelled at hkey
    rw [(hsigns parts hparts).1, hall _ hmem] at hkey
    cases hkey
  have hitems := items_of_separated .objectEnd bound htakes hfirst
    (by simpa [phrases, Function.comp_def] using hseparated) hclosing (by decide) hread (by omega)
    (by omega)
  rw [operand_of_reads hopen]
  simp only [hliteral, hname, hother "(" (by decide), hother "[" (by decide), hopening, if_true,
    Bool.false_eq_true, if_false]
  unfold objectRest
  rw [Rule.bind_of_eq_ok hitems]
  simp [phrases, Function.comp_def]
  rfl

/-- `PathRead` holds of a name, which may go on. -/
theorem pathRead_name {token : Token} (h : isOperandName token = true) :
    PathRead [token] token.node := by
  intro bound start stop hread hbound
  have hlength := hread.length_ahead_token
  refine ⟨bound, by omega, ?_⟩
  rw [operand_of_reads hread]
  simp only [not_literal_of_isOperandName h, h, if_true]

/-- `PathRead` holds of a call with its arguments. -/
theorem pathRead_call {opening closing : Token} {callee : Node} {calleeTokens : List Token}
    {arguments : List (List Token × Node)} (hopening : opening.lexeme = "(")
    (hclosing : closing.lexeme = ")") (hcallee : PathRead calleeTokens callee)
    (h : ∀ argument ∈ arguments, ∀ bound,
      (expressionWithin bound).Takes bound argument.1 argument.2)
    (hfirst : ∀ argument ∈ arguments,
      ∃ first rest, argument.1 = first :: rest ∧ first.lexeme ∉ closingTexts)
    (hseparated : Separated (arguments.map (·.1)) tokens) :
    PathRead (calleeTokens ++ opening :: (tokens ++ [closing]))
      (.call (.between callee.span.start closing.stop) callee (arguments.map (·.2))) := by
  intro bound start stop hread hbound
  obtain ⟨middle, hbefore, hafter⟩ := hread.exists_middle
  obtain ⟨next, hopen, hafter⟩ := hafter.exists_after_first
  have hlength := hbefore.length_ahead
  have hlength' := hopen.length_ahead_token
  have hlength'' := hafter.length_ahead
  obtain ⟨count, hcount, heq⟩ := hcallee bound start middle hbefore hbound
  -- the parenthesis has been counted, so at least one suffix may follow
  obtain ⟨count, rfl⟩ : ∃ n, count = n + 1 := ⟨count - 1, by omega⟩
  have hitems := items_of_separated .callCloseParen bound
    (fun argument hargument => h argument hargument bound) hfirst hseparated hclosing (by decide)
    hafter (by omega) (by omega)
  refine ⟨count, by omega, ?_⟩
  rw [heq, suffixes, Rule.bind_of_eq_ok (Rule.accept_of_wanted (by simp [hopening]) hopen)]
  simp only [hopening, beq_self_eq_true, if_true]
  rw [Rule.bind_of_eq_ok hitems]

/-- `PathRead` holds of a member access. -/
theorem pathRead_member {dot name : Token} {owner : Node} {ownerTokens : List Token}
    (hdot : dot.lexeme = ".") (hname : name.isIdentifier = true)
    (howner : PathRead ownerTokens owner) :
    PathRead (ownerTokens ++ [dot, name])
      (.member (.between owner.span.start name.node.span.stop) owner name.node) := by
  intro bound start stop hread hbound
  obtain ⟨middle, hbefore, hafter⟩ := hread.exists_middle
  obtain ⟨next, hfirst, hsecond⟩ := hafter.exists_after_first
  have hlength := hfirst.length_ahead_token
  have hlength' := hsecond.length_ahead
  obtain ⟨count, hcount, heq⟩ := howner bound start middle hbefore hbound
  obtain ⟨count, rfl⟩ : ∃ n, count = n + 1 := ⟨count - 1, by omega⟩
  refine ⟨count, by omega, ?_⟩
  rw [heq, suffixes, Rule.bind_of_eq_ok (Rule.accept_of_wanted (by simp [hdot]) hfirst)]
  simp only [hdot, show ("." == "(") = false by decide, Bool.false_eq_true, if_false]
  rw [Rule.bind_of_eq_ok (Rule.name_eq_ok_iff.mpr ⟨name, hname, rfl, hsecond⟩)]

/-- The tokens of one of the `Separated` phrases are among them all. -/
theorem Separated.mem_of_mem {phrases : List (List Token)} (h : Separated phrases tokens)
    {phrase : List Token} (hphrase : phrase ∈ phrases) {token : Token} (htoken : token ∈ phrase) :
    token ∈ tokens := by
  induction h with
  | nil => cases hphrase
  | single =>
    obtain rfl := List.mem_singleton.mp hphrase
    exact htoken
  | cons _ _ ih =>
    rcases List.mem_cons.mp hphrase with rfl | hmem
    · exact List.mem_append_left _ htoken
    · exact List.mem_append_right _ (List.mem_cons_of_mem _ (ih hmem))

/-- `ReadAt` holds of every phrase at its level, if its tokens are spelled as the lexer spells
them. -/
theorem Derives.readAt {level : Nat} (h : Derives level tokens tree)
    (hspelled : ∀ token ∈ tokens, Lexicon.Spelled token) : ReadAt level tokens tree := by
  -- What the phrases inside lists need, once they are read at the loosest level.
  have htakes {tokens : List Token} {tree : Node} (hderives : Derives 1 tokens tree)
      (hread : ReadAt 1 tokens tree) (bound : Nat) :
      (expressionWithin bound).Takes bound tokens tree := by
    obtain ⟨first, rest, rfl, -⟩ := hderives.exists_first
    exact hread.takes (List.cons_ne_nil _ _)
  induction h with
  | loosen _ hlevel _ ih =>
    -- A phrase of a tighter level is read as one of this level, except that it need be no name.
    obtain ⟨-, hoperand, hunary, hclimb⟩ := ih hspelled
    exact ⟨fun heq => absurd hlevel (by omega), fun hle => hoperand (by omega),
      fun hle => hunary (by omega), fun looser hle => hclimb looser (by omega)⟩
  | binary hprecedence _ _ ihleft ihright =>
    have hlevel := (precedence_bounds hprecedence).2
    have hleft := ihleft fun token htoken => hspelled token (List.mem_append_left _ htoken)
    have hright := ihright fun token htoken =>
      hspelled token (List.mem_append_right _ (List.mem_cons_of_mem _ htoken))
    exact (climbRead_binary hprecedence (hleft.climb _ (Nat.le_refl _) (Nat.le_of_lt hlevel))
      (hright.climb _ (Nat.le_refl _) hlevel)).readAt hlevel
  | unary hsign _ ih =>
    have hread := ih fun token htoken => hspelled token (List.mem_cons_of_mem _ htoken)
    exact (unaryRead_sign hsign (hread.unary (Nat.le_refl _))).readAt
  | literal hliteral => exact (operandRead_literal hliteral).readAt (.literal hliteral) hspelled
  | parenthesised hopening hclosing hinner ih =>
    have hread := ih fun token htoken =>
      hspelled token (List.mem_cons_of_mem _ (List.mem_append_left _ htoken))
    exact (operandRead_parenthesised hopening hclosing (htakes hinner hread)).readAt
      (.parenthesised hopening hclosing hinner) hspelled
  | @array opening closing elements inner hopening hclosing hparts hseparated ih =>
    have hinner : ∀ element ∈ elements, ∀ token ∈ element.1, Lexicon.Spelled token :=
      fun element helement token htoken => hspelled token (List.mem_cons_of_mem _
        (List.mem_append_left _ (hseparated.mem_of_mem (List.mem_map_of_mem helement) htoken)))
    have htake : ∀ element ∈ elements, ∀ bound,
        (expressionWithin bound).Takes bound element.1 element.2 := fun element helement =>
      htakes (hparts element helement) (ih element helement (hinner element helement))
    have hfirst : ∀ element ∈ elements,
        ∃ first rest, element.1 = first :: rest ∧ first.lexeme ∉ closingTexts :=
      fun element helement => (hparts element helement).first_not_closing (hinner element helement)
    exact (operandRead_array hopening hclosing htake hfirst hseparated).readAt
      (.array hopening hclosing hparts hseparated) hspelled
  | @object opening closing properties inner hopening hclosing hsigns hvalues hseparated ih =>
    have hinner : ∀ parts ∈ properties, ∀ token ∈ parts.tokens, Lexicon.Spelled token :=
      fun parts hparts token htoken => hspelled token (List.mem_cons_of_mem _
        (List.mem_append_left _ (hseparated.mem_of_mem (List.mem_map_of_mem hparts) htoken)))
    have htake : ∀ parts ∈ properties, ∀ bound,
        (expressionWithin bound).Takes bound parts.valueTokens parts.value := by
      intro parts hparts
      refine htakes (hvalues parts hparts) (ih parts hparts fun token htoken => ?_)
      exact hinner parts hparts token (List.mem_cons_of_mem _ (List.mem_cons_of_mem _ htoken))
    have hkeys : ∀ parts ∈ properties, Lexicon.Spelled parts.key := fun parts hparts =>
      hinner parts hparts parts.key List.mem_cons_self
    exact (operandRead_object hopening hclosing hsigns htake hkeys hseparated).readAt
      (.object hopening hclosing hsigns hvalues hseparated) hspelled
  | name hname => exact (pathRead_name hname).readAt (.name hname) hspelled
  | @call opening closing callee before inner arguments hopening hclosing hcallee hparts hseparated
      ihcallee ih =>
    have hread := ihcallee fun token htoken => hspelled token (List.mem_append_left _ htoken)
    have hinner : ∀ argument ∈ arguments, ∀ token ∈ argument.1, Lexicon.Spelled token :=
      fun argument hargument token htoken => hspelled token (List.mem_append_right _
        (List.mem_cons_of_mem _ (List.mem_append_left _
          (hseparated.mem_of_mem (List.mem_map_of_mem hargument) htoken))))
    have htake : ∀ argument ∈ arguments, ∀ bound,
        (expressionWithin bound).Takes bound argument.1 argument.2 := fun argument hargument =>
      htakes (hparts argument hargument) (ih argument hargument (hinner argument hargument))
    have hfirst : ∀ argument ∈ arguments,
        ∃ first rest, argument.1 = first :: rest ∧ first.lexeme ∉ closingTexts :=
      fun argument hargument =>
        (hparts argument hargument).first_not_closing (hinner argument hargument)
    exact (pathRead_call hopening hclosing (hread.path rfl) htake hfirst hseparated).readAt
      (.call hopening hclosing hcallee hparts hseparated) hspelled
  | member hdot hname howner ih =>
    have hread := ih fun token htoken => hspelled token (List.mem_append_left _ htoken)
    exact (pathRead_member hdot hname (hread.path rfl)).readAt (.member hdot hname howner) hspelled

/-- `expressionWithin` reads a phrase of the loosest level, unless an expression goes on. -/
theorem Derives.takes (h : Derives 1 tokens tree)
    (hspelled : ∀ token ∈ tokens, Lexicon.Spelled token) (bound : Nat) :
    (expressionWithin bound).Takes bound tokens tree := by
  obtain ⟨first, rest, rfl, -⟩ := h.exists_first
  exact (h.readAt hspelled).takes (List.cons_ne_nil _ _)

/-- `expressionOrAssignment` reads an expression if no equals sign follows it. -/
theorem expressionOrAssignment_of_expression {tree : Node}
    (h : expression start = .ok (tree, stop))
    (hnext : ∀ token ∈ stop.ahead.head?, token.lexeme ≠ "=") :
    expressionOrAssignment start = .ok (tree, stop) := by
  unfold expressionOrAssignment
  rw [Rule.bind_of_eq_ok h]
  cases tree with
  | identifier span name =>
    simp only
    rw [Rule.bind_of_eq_ok (Rule.acceptText_of_ne hnext)]
    rfl
  | _ => rfl

end Grammar

end NeutronLang
