import NeutronLang.Grammar.Expression
import NeutronLang.Proofs.Spelling

/-!
# The grammar of expressions

`Derives` says which token lists are phrases of which level, and which tree each derivation has.
The levels are numbered by how tightly their phrases hold together: 1 to 6 are those of the binary
operators, from `or` to `*`, then come prefix operators, operands and names with what follows them.
A phrase of one level is one of every looser level. Parentheses stand in the tokens and not in the
tree.

The grammar does not mention the reader. Which tokens can open a phrase (`Derives.exists_first`) is
all that the reader has to decide by one token ahead.
-/

namespace NeutronLang.Grammar

/-- The level of phrases with prefix operators before an operand. `Derives` counts the levels of
binary operators below. -/
abbrev prefixLevel : Nat := 7

/-- The level of operands in `Derives`: literals, lists, objects, phrases in parentheses and
paths. -/
abbrev operandLevel : Nat := 8

/-- The level of names with calls and member accesses after them, the tightest in `Derives`. -/
abbrev pathLevel : Nat := 9

/-- The tokens of phrases with commas between them: `phrases` one by one, and all their tokens. -/
inductive Separated : List (List Token) → List Token → Prop where
  | nil : Separated [] []
  | single {phrase : List Token} : Separated [phrase] phrase
  | cons {phrase next rest : List Token} {phrases : List (List Token)} {comma : Token} :
      comma.lexeme = "," → Separated (next :: phrases) rest →
      Separated (phrase :: next :: phrases) (phrase ++ comma :: rest)

/-- The parts of a property: its `key`, a `colon`, and the tokens and the tree of its `value`. -/
structure PropertyParts where
  key : Token
  colon : Token
  valueTokens : List Token
  value : Node

/-- The tokens of a property. -/
def PropertyParts.tokens (parts : PropertyParts) : List Token :=
  parts.key :: parts.colon :: parts.valueTokens

/-- The tree of a property. -/
def PropertyParts.node (parts : PropertyParts) : Node :=
  .property (.between parts.key.start parts.value.span.stop)
    (.literal parts.key.span (.ofQuoted parts.key.lexeme) parts.key.lexeme "string") parts.value

/-- The phrases of the grammar: at a level, the tokens of a phrase and its tree. Binary operators
have the levels of `precedence?`, and tighter phrases follow from `prefixLevel` on. -/
inductive Derives : Nat → List Token → Node → Prop where
  /-- A phrase is also one of the next looser level. -/
  | loosen {level : Nat} {tokens : List Token} {tree : Node} : 1 ≤ level → level < pathLevel →
      Derives (level + 1) tokens tree → Derives level tokens tree
  /-- A binary operator has operands of its own level before it, and tighter ones after it. -/
  | binary {level : Nat} {operator : Token} {leftTokens rightTokens : List Token}
      {left right : Node} : precedence? operator.lexeme = some level →
      Derives level leftTokens left → Derives (level + 1) rightTokens right →
      Derives level (leftTokens ++ operator :: rightTokens) (operation operator.lexeme left right)
  | unary {sign : Token} {tokens : List Token} {tree : Node} :
      prefixOperators.contains sign.lexeme = true → Derives prefixLevel tokens tree →
      Derives prefixLevel (sign :: tokens)
        (.unary (.between sign.start tree.span.stop) sign.lexeme tree)
  | literal {token : Token} {node : Node} : literal? token = some node →
      Derives operandLevel [token] node
  | parenthesised {opening closing : Token} {tokens : List Token} {tree : Node} :
      isSymbol "(" opening = true → closing.lexeme = ")" → Derives 1 tokens tree →
      Derives operandLevel (opening :: (tokens ++ [closing])) tree
  | array {opening closing : Token} {elements : List (List Token × Node)} {tokens : List Token} :
      isSymbol "[" opening = true → closing.lexeme = "]" →
      (∀ element ∈ elements, Derives 1 element.1 element.2) →
      Separated (elements.map (·.1)) tokens →
      Derives operandLevel (opening :: (tokens ++ [closing]))
        (.array (.between opening.start closing.stop) (elements.map (·.2)))
  | object {opening closing : Token} {properties : List PropertyParts} {tokens : List Token} :
      isSymbol "\x7b" opening = true → closing.lexeme = "\x7d" →
      (∀ parts ∈ properties, parts.key.kind = .string ∧ parts.colon.lexeme = ":") →
      (∀ parts ∈ properties, Derives 1 parts.valueTokens parts.value) →
      Separated (properties.map (·.tokens)) tokens →
      Derives operandLevel (opening :: (tokens ++ [closing]))
        (.object (.between opening.start closing.stop) (properties.map (·.node)))
  | name {token : Token} : isOperandName token = true → Derives pathLevel [token] token.node
  | call {opening closing : Token} {callee : Node} {calleeTokens tokens : List Token}
      {arguments : List (List Token × Node)} : opening.lexeme = "(" → closing.lexeme = ")" →
      Derives pathLevel calleeTokens callee →
      (∀ argument ∈ arguments, Derives 1 argument.1 argument.2) →
      Separated (arguments.map (·.1)) tokens →
      Derives pathLevel (calleeTokens ++ opening :: (tokens ++ [closing]))
        (.call (.between callee.span.start closing.stop) callee (arguments.map (·.2)))
  | member {dot name : Token} {owner : Node} {ownerTokens : List Token} : dot.lexeme = "." →
      name.isIdentifier = true → Derives pathLevel ownerTokens owner →
      Derives pathLevel (ownerTokens ++ [dot, name])
        (.member (.between owner.span.start name.node.span.stop) owner name.node)

/-- Whether a token opens an operand. -/
def opensOperand (token : Token) : Bool :=
  (literal? token).isSome || isOperandName token || isSymbol "(" token || isSymbol "[" token ||
    isSymbol "\x7b" token

/-- Whether a token goes on with an expression: a binary operator (`precedence?`), a call or a
member access. -/
def continuesExpression (token : Token) : Bool :=
  (precedence? token.lexeme).isSome || token.lexeme == "(" || token.lexeme == "."

/-- `precedence?` gives the binary operators the levels from 1 to 6. -/
theorem precedence_bounds {lexeme : String} {level : Nat} (h : precedence? lexeme = some level) :
    1 ≤ level ∧ level < prefixLevel := by
  have hall : ∀ entry ∈ precedences, 1 ≤ entry.2 ∧ entry.2 < prefixLevel := by decide
  obtain ⟨before, after, hentries, -⟩ := List.lookup_eq_some_iff.mp h
  exact hall (lexeme, level) (by rw [hentries]; simp)

/-- `literal?` gives a node that is written as its token is, at the same place. -/
theorem exists_eq_of_literal? {token : Token} {node : Node} (h : literal? token = some node) :
    ∃ value type, node = .literal token.span value token.lexeme type := by
  unfold literal? at h
  split at h
  · exact ⟨_, _, (Option.some.inj h).symm⟩
  · exact ⟨_, _, (Option.some.inj h).symm⟩
  · split at h
    · exact ⟨_, _, (Option.some.inj h).symm⟩
    · exact ⟨_, _, (Option.some.inj h).symm⟩
    · exact ⟨_, _, (Option.some.inj h).symm⟩
    · cases h
  · cases h

/-- `literal?` gives a node with the span of its token. -/
theorem span_of_literal? {token : Token} {node : Node} (h : literal? token = some node) :
    node.span = token.span := by
  obtain ⟨value, type, rfl⟩ := exists_eq_of_literal? h
  rfl

/-- `Derives` has no phrase that holds together more tightly than names do. -/
theorem Derives.level_le {level : Nat} {tokens : List Token} {tree : Node}
    (h : Derives level tokens tree) : level ≤ pathLevel := by
  cases h with
  | loosen _ hlevel _ => exact Nat.le_of_lt hlevel
  | binary hprecedence _ _ =>
    exact Nat.le_of_lt (Nat.lt_trans (precedence_bounds hprecedence).2 (by decide))
  | unary | literal | parenthesised | array | object | name | call | member => decide

/-- `Derives` has a phrase at every looser level. -/
theorem Derives.of_le {level looser : Nat} {tokens : List Token} {tree : Node}
    (h : Derives level tokens tree) (hpos : 1 ≤ looser) (hle : looser ≤ level) :
    Derives looser tokens tree := by
  -- One level looser at a time.
  obtain ⟨steps, rfl⟩ := Nat.exists_eq_add_of_le hle
  induction steps with
  | zero => exact h
  | succ steps ih =>
    have hlevel := h.level_le
    exact ih (.loosen (by omega) (by omega) h) (by omega)

/-- A phrase starts with a token that opens an operand or, up to the level of prefix operators, with
one of those. -/
theorem Derives.exists_first {level : Nat} {tokens : List Token} {tree : Node}
    (h : Derives level tokens tree) :
    ∃ first rest, tokens = first :: rest ∧ (opensOperand first = true ∨
      level ≤ prefixLevel ∧ prefixOperators.contains first.lexeme = true) := by
  -- A phrase starts with its left operand, its callee or its owner, so the token is theirs.
  induction h with
  | loosen _ _ _ ih =>
    obtain ⟨first, rest, rfl, hopens | ⟨hle, hsign⟩⟩ := ih
    · exact ⟨first, rest, rfl, .inl hopens⟩
    · exact ⟨first, rest, rfl, .inr ⟨by omega, hsign⟩⟩
  | binary _ _ _ ih _ =>
    obtain ⟨first, rest, rfl, hfirst⟩ := ih
    exact ⟨first, _, rfl, hfirst⟩
  | unary hsign _ _ => exact ⟨_, _, rfl, .inr ⟨Nat.le_refl _, hsign⟩⟩
  | literal hliteral => exact ⟨_, _, rfl, .inl (by simp [opensOperand, hliteral])⟩
  | parenthesised hopening _ _ _ => exact ⟨_, _, rfl, .inl (by simp [opensOperand, hopening])⟩
  | array hopening _ _ _ _ => exact ⟨_, _, rfl, .inl (by simp [opensOperand, hopening])⟩
  | object hopening _ _ _ _ _ => exact ⟨_, _, rfl, .inl (by simp [opensOperand, hopening])⟩
  | name hname => exact ⟨_, _, rfl, .inl (by simp [opensOperand, hname])⟩
  | call _ _ _ _ _ ih _ =>
    obtain ⟨first, rest, rfl, hfirst⟩ := ih
    exact ⟨first, _, rfl, hfirst⟩
  | member _ _ _ ih =>
    obtain ⟨first, rest, rfl, hfirst⟩ := ih
    exact ⟨first, _, rfl, hfirst⟩

/-- The tree of a phrase starts where one of its tokens does, which need not be the first: the
parentheses around a tree are no part of it. -/
theorem Derives.exists_start {level : Nat} {tokens : List Token} {tree : Node}
    (h : Derives level tokens tree) : ∃ token ∈ tokens, tree.span.start = token.start := by
  induction h with
  | loosen _ _ _ ih => exact ih
  | @binary _ operator _ _ _ _ _ _ _ ih _ =>
    obtain ⟨token, htoken, hstart⟩ := ih
    refine ⟨token, List.mem_append_left _ htoken, ?_⟩
    unfold operation
    cases logicalOperators.contains operator.lexeme <;> exact hstart
  | unary => exact ⟨_, List.mem_cons_self, rfl⟩
  | literal hliteral => exact ⟨_, List.mem_cons_self, by rw [span_of_literal? hliteral]; rfl⟩
  | parenthesised _ _ _ ih =>
    obtain ⟨token, htoken, hstart⟩ := ih
    exact ⟨token, List.mem_cons_of_mem _ (List.mem_append_left _ htoken), hstart⟩
  | array | object | name => exact ⟨_, List.mem_cons_self, rfl⟩
  | call _ _ _ _ _ ih _ | member _ _ _ ih =>
    obtain ⟨token, htoken, hstart⟩ := ih
    exact ⟨token, List.mem_append_left _ htoken, hstart⟩

/-! ## What the texts of tokens tell -/

/-- `literal?` knows numbers, strings, and three reserved words. -/
theorem of_literal? {token : Token} {node : Node} (h : literal? token = some node) :
    token.kind = .number ∨ token.kind = .string ∨
      token.kind = .keyword ∧ token.lexeme ∈ ["true", "false", "nil"] := by
  unfold literal? at h
  split at h
  · next hkind => exact .inl hkind
  · next hkind => exact .inr (.inl hkind)
  · next hkind =>
    refine .inr (.inr ⟨hkind, ?_⟩)
    split at h <;> simp_all
  · cases h

/-- The texts of the tokens that close lists and parentheses. -/
def closingTexts : List String := [")", "]", "\x7d"]

/-- The texts of the tokens that close or divide phrases, or go on with a statement. -/
def dividingTexts : List String := closingTexts ++ [",", ";", ":", "=", "var", "else", "elif"]

/-- A token that `opensOperand` has none of the texts that divide phrases or stand before an
operand. -/
theorem lexeme_of_opensOperand {token : Token} (hspelled : Lexicon.Spelled token)
    (h : opensOperand token = true) : token.lexeme ∉ prefixOperators ++ dividingTexts := by
  -- A literal or a name is told by its kind: no token of that kind is spelled in one of the texts.
  have hkind (kind : TokenKind) (hkind : token.kind = kind)
      (hall : ∀ lexeme ∈ prefixOperators ++ dividingTexts, Lexicon.spells kind lexeme = false) :
      token.lexeme ∉ prefixOperators ++ dividingTexts := by
    intro hmem
    unfold Lexicon.Spelled at hspelled
    rw [hkind, hall _ hmem] at hspelled
    cases hspelled
  -- All other operands open with a text that is not among them.
  have htext (texts : List String) (htext : token.lexeme ∈ texts)
      (hall : ∀ lexeme ∈ texts, lexeme ∉ prefixOperators ++ dividingTexts) :
      token.lexeme ∉ prefixOperators ++ dividingTexts := hall _ htext
  simp only [opensOperand, isOperandName, Token.isIdentifier, isSymbol, Bool.or_eq_true,
    Bool.and_eq_true, beq_iff_eq] at h
  rcases h with (((hliteral | hname | ⟨-, hthis⟩) | hparen) | hbracket) | hbrace
  · obtain ⟨node, hnode⟩ := Option.isSome_iff_exists.mp hliteral
    rcases of_literal? hnode with hnumber | hstring | ⟨-, hword⟩
    · exact hkind .number hnumber (by decide)
    · exact hkind .string hstring (by decide)
    · exact htext _ hword (by decide)
  · exact hkind .identifier hname (by decide)
  · exact htext ["this"] (by rw [hthis]; decide) (by decide)
  · exact htext ["("] (by rw [hparen.2]; decide) (by decide)
  · exact htext ["["] (by rw [hbracket.2]; decide) (by decide)
  · exact htext ["\x7b"] (by rw [hbrace.2]; decide) (by decide)

/-- The first token of a phrase has none of the `dividingTexts`. -/
theorem Derives.first_not_dividing {level : Nat} {tokens : List Token} {tree : Node}
    (h : Derives level tokens tree) (hspelled : ∀ token ∈ tokens, Lexicon.Spelled token) :
    ∃ first rest, tokens = first :: rest ∧ first.lexeme ∉ dividingTexts := by
  obtain ⟨first, rest, rfl, hopens | ⟨-, hsign⟩⟩ := h.exists_first
  · have hfirst := lexeme_of_opensOperand (hspelled first List.mem_cons_self) hopens
    exact ⟨first, rest, rfl, fun hmem => hfirst (List.mem_append_right _ hmem)⟩
  · have hnot : ∀ lexeme ∈ dividingTexts, prefixOperators.contains lexeme = false := by decide
    refine ⟨first, rest, rfl, fun hmem => ?_⟩
    rw [hnot _ hmem] at hsign
    cases hsign

/-- The first token of a phrase has none of the `closingTexts`. -/
theorem Derives.first_not_closing {level : Nat} {tokens : List Token} {tree : Node}
    (h : Derives level tokens tree) (hspelled : ∀ token ∈ tokens, Lexicon.Spelled token) :
    ∃ first rest, tokens = first :: rest ∧ first.lexeme ∉ closingTexts := by
  obtain ⟨first, rest, rfl, hfirst⟩ := h.first_not_dividing hspelled
  exact ⟨first, rest, rfl, fun hmem => hfirst (List.mem_append_left _ hmem)⟩

/-- The first token of a phrase above the level of prefix operators is none of these. -/
theorem Derives.first_not_sign {level : Nat} {tokens : List Token} {tree : Node}
    (h : Derives level tokens tree) (hlevel : prefixLevel < level)
    (hspelled : ∀ token ∈ tokens, Lexicon.Spelled token) :
    ∀ token ∈ tokens.head?, prefixOperators.contains token.lexeme = false := by
  obtain ⟨first, rest, rfl, hopens | ⟨hle, -⟩⟩ := h.exists_first
  · rintro _ ⟨rfl⟩
    have hfirst := lexeme_of_opensOperand (hspelled first List.mem_cons_self) hopens
    rw [Bool.eq_false_iff, ne_eq, List.contains_iff_mem]
    exact fun hmem => hfirst (List.mem_append_left _ hmem)
  · exact absurd hle (Nat.not_le_of_lt hlevel)

end NeutronLang.Grammar
