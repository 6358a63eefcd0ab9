import NeutronLang.Proofs.Completeness
import NeutronLang.Proofs.Relocation
import NeutronLang.Proofs.Rendering

/-!
# Rendered expressions are phrases

The tokens of a rendered expression are a phrase of the grammar, of the level that the tree has, and
the tree of the phrase is the rendered one with other spans (`IsExpression.exists_derives`). What a
rendering says about its tokens is stated place by place (`Writes`), so that the shape of a
rendering is taken apart by rewriting and the words of it are never counted.
-/

namespace NeutronLang.Rendering

open Grammar

/-! ## The tokens of a rendering -/

/-- Tokens are a choice (`Chosen`) for each of some places. -/
def Writes (places : List Place) (tokens : List Token) : Prop :=
  Chosen places (tokens.map Word.ofToken)

/-- `Writes` holds of no places and no tokens. -/
theorem writes_nil {tokens : List Token} : Writes [] tokens ↔ tokens = [] := by
  constructor
  · intro h
    unfold Writes at h
    -- The words are a variable, so that the choice for them can be split by how it was made.
    generalize hwords : tokens.map Word.ofToken = words at h
    cases h
    exact List.map_eq_nil_iff.mp hwords
  · rintro rfl
    exact .nil

/-- `Writes` holds of a first place and the first tokens, and of the rest. -/
theorem writes_cons {place : Place} {places : List Place} {tokens : List Token} :
    Writes (place :: places) tokens ↔ ∃ first rest, tokens = first ++ rest ∧
      first.map Word.ofToken ∈ place.choices ∧ Writes places rest := by
  constructor
  · intro h
    unfold Writes at h
    generalize hwords : tokens.map Word.ofToken = words at h
    cases h with
    | cons hmem hrest =>
      obtain ⟨first, rest, rfl, rfl, rfl⟩ := List.map_eq_append_iff.mp hwords
      exact ⟨first, rest, rfl, hmem, hrest⟩
  · rintro ⟨first, rest, rfl, hmem, hrest⟩
    unfold Writes
    rw [List.map_append]
    exact .cons hmem hrest

/-- `Writes` goes through places one after the other. -/
theorem writes_append {before after : List Place} {tokens : List Token} :
    Writes (before ++ after) tokens ↔ ∃ first rest, tokens = first ++ rest ∧
      Writes before first ∧ Writes after rest := by
  induction before generalizing tokens with
  | nil =>
    constructor
    · exact fun h => ⟨[], tokens, rfl, writes_nil.mpr rfl, h⟩
    · rintro ⟨first, rest, rfl, hfirst, hrest⟩
      obtain rfl := writes_nil.mp hfirst
      exact hrest
  | cons place places ih =>
    rw [List.cons_append, writes_cons]
    constructor
    · rintro ⟨first, rest, rfl, hmem, hrest⟩
      obtain ⟨middle, last, rfl, hmiddle, hlast⟩ := ih.mp hrest
      exact ⟨first ++ middle, last, (List.append_assoc _ _ _).symm,
        writes_cons.mpr ⟨first, middle, rfl, hmem, hmiddle⟩, hlast⟩
    · rintro ⟨first, rest, rfl, hfirst, hrest⟩
      obtain ⟨start, middle, rfl, hmem, hmiddle⟩ := writes_cons.mp hfirst
      exact ⟨start, middle ++ rest, List.append_assoc _ _ _, hmem,
        ih.mpr ⟨middle, rest, rfl, hmiddle, hrest⟩⟩

/-- `Writes` holds of one token for a place with one way of writing it. -/
theorem writes_word {kind : TokenKind} {lexeme : String} {places : List Place}
    {tokens : List Token} : Writes (.word kind lexeme :: places) tokens ↔
      ∃ token rest, tokens = token :: rest ∧ token.kind = kind ∧ token.lexeme = lexeme ∧
        Writes places rest := by
  rw [writes_cons]
  constructor
  · rintro ⟨first, rest, rfl, hmem, hrest⟩
    obtain ⟨token, rfl, hword⟩ := List.map_eq_singleton_iff.mp (List.mem_singleton.mp hmem)
    obtain ⟨hkind, hlexeme⟩ := Word.mk.injEq .. ▸ hword
    exact ⟨token, rest, rfl, hkind, hlexeme, hrest⟩
  · rintro ⟨token, rest, rfl, rfl, rfl, hrest⟩
    exact ⟨[token], rest, rfl, List.mem_singleton.mpr rfl, hrest⟩

/-- `Writes` holds of one token and no more for one place with one way of writing it. -/
theorem writes_single {kind : TokenKind} {lexeme : String} {tokens : List Token} :
    Writes [.word kind lexeme] tokens ↔
      ∃ token, tokens = [token] ∧ token.kind = kind ∧ token.lexeme = lexeme := by
  rw [writes_word]
  constructor
  · rintro ⟨token, rest, rfl, hkind, hlexeme, hrest⟩
    obtain rfl := writes_nil.mp hrest
    exact ⟨token, rfl, hkind, hlexeme⟩
  · rintro ⟨token, rfl, hkind, hlexeme⟩
    exact ⟨token, [], rfl, hkind, hlexeme, writes_nil.mpr rfl⟩

/-- `Writes` holds of one token for a logical operator, which carries its text. -/
theorem exists_of_writes_logical {operator : String} {places : List Place} {tokens : List Token}
    (h : Writes (.logical operator :: places) tokens) :
    ∃ token rest, tokens = token :: rest ∧ token.lexeme = operator ∧ Writes places rest := by
  obtain ⟨first, rest, rfl, hmem, hrest⟩ := writes_cons.mp h
  simp only [Place.choices, List.mem_cons, List.not_mem_nil, or_false] at hmem
  rcases hmem with hwords | hwords <;>
  · obtain ⟨token, rfl, hword⟩ := List.map_eq_singleton_iff.mp hwords
    have hlexeme : (Word.ofToken token).lexeme = operator := by rw [hword]
    exact ⟨token, rest, rfl, hlexeme, hrest⟩

/-- `Writes` holds of one token for a name, which names an operand and carries it. -/
theorem writes_name {name : String} {tokens : List Token} (h : Writes [namePlace name] tokens) :
    ∃ token, tokens = [token] ∧ isOperandName token = true ∧ token.lexeme = name := by
  obtain ⟨token, rfl, hkind, hlexeme⟩ := writes_single.mp h
  refine ⟨token, rfl, ?_, hlexeme⟩
  -- Only one reserved word names an operand.
  by_cases hthis : name = "this"
  · rw [if_pos hthis] at hkind
    simp [isOperandName, Token.isIdentifier, Token.isKeyword, hkind, hlexeme, hthis]
  · rw [if_neg hthis] at hkind
    simp [isOperandName, Token.isIdentifier, hkind]

/-- `Writes` holds of an identifier for a name that is not reserved. -/
theorem writes_identifier {name : String} (hname : IsName name) {places : List Place}
    {tokens : List Token} : Writes (namePlace name :: places) tokens ↔
      ∃ token rest, tokens = token :: rest ∧ token.kind = .identifier ∧ token.lexeme = name ∧
        Writes places rest := by
  have hthis : name ≠ "this" := by
    rintro rfl
    exact hname.1 (by decide)
  unfold namePlace
  rw [if_neg hthis, writes_word]

/-- Items with commas between them are written as `Separated` phrases. -/
theorem exists_parts {α β γ : Type} {items : List α} {render : α → List Place}
    {phrase : β → List Token} {valid : β → Prop} {seen : β → γ} {wanted : α → γ}
    (h : ∀ item ∈ items, ∀ tokens, Writes (render item) tokens →
      ∃ part, phrase part = tokens ∧ valid part ∧ seen part = wanted item)
    {tokens : List Token} (hwrites : Writes (listPlaces (items.map render)) tokens) :
    ∃ parts : List β, Separated (parts.map phrase) tokens ∧ (∀ part ∈ parts, valid part) ∧
      parts.map seen = items.map wanted := by
  induction items generalizing tokens with
  | nil =>
    obtain rfl := writes_nil.mp hwrites
    exact ⟨[], .nil, by simp, rfl⟩
  | cons item items ih =>
    cases items with
    | nil =>
      obtain ⟨part, rfl, hvalid, hseen⟩ := h item List.mem_cons_self tokens hwrites
      exact ⟨[part], .single, by simpa using hvalid, by simp [hseen]⟩
    | cons next items =>
      obtain ⟨first, rest, rfl, hfirst, hrest⟩ := writes_append.mp hwrites
      obtain ⟨comma, rest, rfl, -, hcomma, hrest⟩ := writes_word.mp hrest
      obtain ⟨part, rfl, hvalid, hseen⟩ := h item List.mem_cons_self first hfirst
      obtain ⟨parts, hseparated, hparts, hmap⟩ :=
        ih (fun i hi => h i (List.mem_cons_of_mem _ hi)) hrest
      cases parts with
      -- There is an item left, so there is a part for it.
      | nil => cases hmap
      | cons second parts =>
        refine ⟨part :: second :: parts, .cons hcomma hseparated, ?_, ?_⟩
        · exact List.forall_mem_cons.mpr ⟨hvalid, hparts⟩
        · rw [List.map_cons, hmap, hseen]
          rfl

/-! ## Phrases -/

/-- The tokens of a tree's rendering (`places`) are a phrase of its level, with the same tree but
for spans. -/
def Phrased (node : Node) : Prop :=
  ∀ tokens, Writes (places node) tokens →
    ∃ tree, Derives (level node) tokens tree ∧ tree.withoutSpans = node.withoutSpans

/-- The `level` of an expression is one of the grammar. -/
theorem IsExpression.level_pos {node : Node} (h : IsExpression node) : 1 ≤ level node := by
  have hprecedence {operator : String} (h : (precedence? operator).isSome) :
      1 ≤ (precedence? operator).getD 0 := by
    obtain ⟨least, hleast⟩ := Option.isSome_iff_exists.mp h
    rw [hleast]
    exact (precedence_bounds hleast).1
  cases h with
  | binary h _ _ _ => exact hprecedence h
  | logical h _ _ =>
    have hall : ∀ operator ∈ logicalOperators, (precedence? operator).isSome := by decide
    exact hprecedence (hall _ h)
  | number | string | true | false | nil | name | unary | call | member | array | object =>
    simp [level, operandLevel, prefixLevel, pathLevel]

/-- `Phrased` operands are phrases of the level that their place asks for. -/
theorem Phrased.operand {node : Node} (h : Phrased node) (hlevel : 1 ≤ level node) {least : Nat}
    (hpos : 1 ≤ least) (hle : least ≤ operandLevel) {tokens : List Token}
    (hwrites : Writes (operandPlaces least node (places node)) tokens) :
    ∃ tree, Derives least tokens tree ∧ tree.withoutSpans = node.withoutSpans := by
  unfold operandPlaces at hwrites
  -- Parentheses stand around an operand that does not hold together tightly enough by itself.
  split at hwrites
  · obtain ⟨opening, rest, rfl, hkind, hopening, hrest⟩ := writes_word.mp hwrites
    obtain ⟨inner, last, rfl, hinner, hlast⟩ := writes_append.mp hrest
    obtain ⟨closing, rfl, -, hclosing⟩ := writes_single.mp hlast
    obtain ⟨tree, hderives, hsame⟩ := h inner hinner
    have hparenthesis : isSymbol "(" opening = true := by simp [isSymbol, hkind, hopening]
    exact ⟨tree, (Derives.parenthesised hparenthesis hclosing
      (hderives.of_le (Nat.le_refl _) hlevel)).of_le hpos hle, hsame⟩
  · next hnot =>
    obtain ⟨tree, hderives, hsame⟩ := h tokens hwrites
    exact ⟨tree, hderives.of_le hpos (Nat.le_of_not_lt hnot), hsame⟩

/-- A binary operator between `Phrased` operands is written as a phrase of its level. -/
theorem exists_derives_operation {operator : String} {least : Nat} {left right : Node}
    (hleast : precedence? operator = some least) (hleft : Phrased left) (hright : Phrased right)
    (hleftLevel : 1 ≤ level left) (hrightLevel : 1 ≤ level right) {before after : List Token}
    {sign : Token} (hsign : sign.lexeme = operator)
    (hbefore : Writes (operandPlaces least left (places left)) before)
    (hafter : Writes (operandPlaces (least + 1) right (places right)) after) :
    ∃ tree, Derives least (before ++ sign :: after) tree ∧
      tree.withoutSpans = (operation operator left right).withoutSpans := by
  obtain ⟨hpos, hlt⟩ := precedence_bounds hleast
  -- The operand on the right binds more tightly by one level, which is still one of the grammar's.
  have hbound : least + 1 ≤ operandLevel := Nat.le_succ_of_le hlt
  obtain ⟨leftTree, hleftDerives, hleftSame⟩ :=
    hleft.operand hleftLevel hpos (Nat.le_of_succ_le hbound) hbefore
  obtain ⟨rightTree, hrightDerives, hrightSame⟩ :=
    hright.operand hrightLevel (Nat.le_succ_of_le hpos) hbound hafter
  subst hsign
  refine ⟨_, .binary hleast hleftDerives hrightDerives, ?_⟩
  unfold Node.withoutSpans at hleftSame hrightSame ⊢
  unfold operation
  split <;> simp only [Node.mapSpans, hleftSame, hrightSame]

/-- `Phrased` trees in a list are written as phrases of the loosest level with commas between
them. -/
theorem exists_derives_list {nodes : List Node} (h : ∀ node ∈ nodes, Phrased node)
    (hlevel : ∀ node ∈ nodes, 1 ≤ level node) {tokens : List Token}
    (hwrites : Writes (listPlaces (placesOfAll nodes)) tokens) :
    ∃ parts : List (List Token × Node), Separated (parts.map (·.1)) tokens ∧
      (∀ part ∈ parts, Derives 1 part.1 part.2) ∧
      (parts.map (·.2)).map Node.withoutSpans = nodes.map Node.withoutSpans := by
  rw [placesOfAll_eq_map] at hwrites
  have hparts : ∀ node ∈ nodes, ∀ tokens, Writes (places node) tokens →
      ∃ part : List Token × Node, part.1 = tokens ∧ Derives 1 part.1 part.2 ∧
        part.2.withoutSpans = node.withoutSpans := by
    intro node hnode tokens hwrites
    obtain ⟨tree, hderives, hsame⟩ := h node hnode tokens hwrites
    exact ⟨(tokens, tree), rfl, hderives.of_le (Nat.le_refl _) (hlevel node hnode), hsame⟩
  obtain ⟨parts, hseparated, hderives, hsame⟩ := exists_parts hparts hwrites
  exact ⟨parts, hseparated, hderives, by rw [List.map_map]; exact hsame⟩

/-- `Phrased` holds of a literal: it is written by one token. -/
theorem phrased_literal {kind : TokenKind} {span : Span} {value : LiteralValue} {raw type : String}
    (hplace : literalPlace type raw = .word kind raw)
    (h : ∀ token : Token, token.kind = kind → token.lexeme = raw →
      literal? token = some (.literal token.span value raw type)) :
    Phrased (.literal span value raw type) := by
  intro tokens hwrites
  unfold places at hwrites
  rw [hplace] at hwrites
  obtain ⟨token, rfl, hkind, hlexeme⟩ := writes_single.mp hwrites
  exact ⟨_, .literal (h token hkind hlexeme), rfl⟩

/-- `Phrased` holds of a call: its callee, an opening parenthesis, its arguments and a closing
one. -/
theorem phrased_call {span : Span} {callee : Node} {arguments : List Node}
    (hpath : level callee = pathLevel) (hcallee : Phrased callee)
    (harguments : ∀ argument ∈ arguments, Phrased argument)
    (hlevel : ∀ argument ∈ arguments, 1 ≤ level argument) :
    Phrased (.call span callee arguments) := by
  intro tokens hwrites
  unfold places at hwrites
  obtain ⟨before, rest, rfl, hbefore, hrest⟩ := writes_append.mp hwrites
  obtain ⟨opening, rest, rfl, -, hopening, hrest⟩ := writes_word.mp hrest
  obtain ⟨inner, last, rfl, hinner, hlast⟩ := writes_append.mp hrest
  obtain ⟨closing, rfl, -, hclosing⟩ := writes_single.mp hlast
  obtain ⟨calleeTree, hcalleeDerives, hcalleeSame⟩ := hcallee before hbefore
  obtain ⟨parts, hseparated, hderives, hsame⟩ := exists_derives_list harguments hlevel hinner
  rw [hpath] at hcalleeDerives
  refine ⟨_, .call hopening hclosing hcalleeDerives hderives hseparated, ?_⟩
  unfold Node.withoutSpans at hcalleeSame hsame ⊢
  simp only [Node.mapSpans, Node.mapSpansOfAll_eq_map, hcalleeSame, hsame]

/-- `Phrased` holds of a member access: its owner, a point and a name. -/
theorem phrased_member {span nameSpan : Span} {owner : Node} {name : String}
    (hpath : level owner = pathLevel) (hname : IsName name) (howner : Phrased owner) :
    Phrased (.member span owner (.identifier nameSpan name)) := by
  intro tokens hwrites
  unfold places at hwrites
  rw [places] at hwrites
  obtain ⟨before, rest, rfl, hbefore, hrest⟩ := writes_append.mp hwrites
  obtain ⟨dot, rest, rfl, -, hdot, hrest⟩ := writes_word.mp hrest
  obtain ⟨token, last, rfl, hkind, rfl, hlast⟩ := (writes_identifier hname).mp hrest
  obtain rfl := writes_nil.mp hlast
  obtain ⟨ownerTree, hderives, hsame⟩ := howner before hbefore
  rw [hpath] at hderives
  refine ⟨_, .member hdot (beq_iff_eq.mpr hkind) hderives, ?_⟩
  unfold Node.withoutSpans at hsame ⊢
  simp only [Node.mapSpans, hsame, Token.node]

/-- `Phrased` holds of an array: its elements in brackets. -/
theorem phrased_array {span : Span} {elements : List Node}
    (helements : ∀ element ∈ elements, Phrased element)
    (hlevel : ∀ element ∈ elements, 1 ≤ level element) : Phrased (.array span elements) := by
  intro tokens hwrites
  unfold places at hwrites
  obtain ⟨opening, rest, rfl, hkind, hopening, hrest⟩ := writes_word.mp hwrites
  obtain ⟨inner, last, rfl, hinner, hlast⟩ := writes_append.mp hrest
  obtain ⟨closing, rfl, -, hclosing⟩ := writes_single.mp hlast
  obtain ⟨parts, hseparated, hderives, hsame⟩ := exists_derives_list helements hlevel hinner
  refine ⟨_, .array (by simp [isSymbol, hkind, hopening]) hclosing hderives hseparated, ?_⟩
  unfold Node.withoutSpans at hsame ⊢
  simp only [Node.mapSpans, Node.mapSpansOfAll_eq_map, hsame]

/-- `Phrased` holds of an object: its properties in braces, each with a colon after its key. -/
theorem phrased_object {span : Span} {entries : List Entry}
    (hvalues : ∀ entry ∈ entries, Phrased entry.value)
    (hlevel : ∀ entry ∈ entries, 1 ≤ level entry.value) :
    Phrased (.object span (entries.map Entry.node)) := by
  intro tokens hwrites
  unfold places at hwrites
  rw [placesOfAll_eq_map, List.map_map] at hwrites
  obtain ⟨opening, rest, rfl, hkind, hopening, hrest⟩ := writes_word.mp hwrites
  obtain ⟨inner, last, rfl, hinner, hlast⟩ := writes_append.mp hrest
  obtain ⟨closing, rfl, -, hclosing⟩ := writes_single.mp hlast
  -- Each property is written as its parts.
  have hentries : ∀ entry ∈ entries, ∀ tokens, Writes ((places ∘ Entry.node) entry) tokens →
      ∃ parts : PropertyParts, parts.tokens = tokens ∧
        (parts.key.kind = .string ∧ parts.colon.lexeme = ":" ∧
          Derives 1 parts.valueTokens parts.value) ∧
        parts.node.withoutSpans = entry.node.withoutSpans := by
    intro entry hentry tokens hwrites
    rw [Function.comp_apply, Entry.node, places, places] at hwrites
    obtain ⟨key, rest, rfl, hkeyKind, hkey, hrest⟩ := writes_word.mp hwrites
    obtain ⟨colon, rest, rfl, -, hcolon, hrest⟩ := writes_word.mp hrest
    obtain ⟨tree, hderives, hsame⟩ := hvalues entry hentry rest hrest
    have hvalue := hderives.of_le (Nat.le_refl _) (hlevel entry hentry)
    refine ⟨⟨key, colon, rest, tree⟩, rfl, ⟨hkeyKind, hcolon, hvalue⟩, ?_⟩
    unfold Node.withoutSpans at hsame ⊢
    simp only [PropertyParts.node, Entry.node, Node.mapSpans, hkey, hsame]
  obtain ⟨parts, hseparated, hvalid, hsame⟩ := exists_parts hentries hinner
  refine ⟨_, .object (by simp [isSymbol, hkind, hopening]) hclosing
    (fun part hpart => ⟨(hvalid part hpart).1, (hvalid part hpart).2.1⟩)
    (fun part hpart => (hvalid part hpart).2.2) hseparated, ?_⟩
  have hnodes : (parts.map PropertyParts.node).map Node.withoutSpans =
      (entries.map Entry.node).map Node.withoutSpans := by
    rw [List.map_map, List.map_map]
    exact hsame
  unfold Node.withoutSpans at hnodes ⊢
  simp only [Node.mapSpans, Node.mapSpansOfAll_eq_map, hnodes]

/-- `Phrased` holds of every expression. -/
theorem IsExpression.phrased {node : Node} (h : IsExpression node) : Phrased node := by
  induction h with
  | number _ =>
    refine phrased_literal rfl fun token hkind hlexeme => ?_
    simp [literal?, hkind, hlexeme]
  | string _ =>
    refine phrased_literal rfl fun token hkind hlexeme => ?_
    simp [literal?, hkind, hlexeme]
  | true | false | nil =>
    refine phrased_literal rfl fun token hkind hlexeme => ?_
    simp [literal?, hkind, hlexeme]
  | name _ =>
    intro tokens hwrites
    unfold places at hwrites
    obtain ⟨token, rfl, hoperand, rfl⟩ := writes_name hwrites
    exact ⟨_, .name hoperand, rfl⟩
  | @binary span operator left right hprecedence hlogical hleft hright ihleft ihright =>
    intro tokens hwrites
    obtain ⟨least, hleast⟩ := Option.isSome_iff_exists.mp hprecedence
    unfold places at hwrites
    rw [hleast] at hwrites
    obtain ⟨before, rest, rfl, hbefore, hrest⟩ := writes_append.mp hwrites
    obtain ⟨sign, after, rfl, -, hsign, hafter⟩ := writes_word.mp hrest
    obtain ⟨tree, hderives, hsame⟩ := exists_derives_operation hleast ihleft ihright
      hleft.level_pos hright.level_pos hsign hbefore hafter
    -- The operator decides which of the two trees an operation has.
    refine ⟨tree, by rwa [level, hleast], ?_⟩
    rw [hsame, operation, if_neg (by rwa [List.contains_iff_mem])]
    rfl
  | @logical span operator left right hlogical hleft hright ihleft ihright =>
    intro tokens hwrites
    have hall : ∀ operator ∈ logicalOperators, (precedence? operator).isSome := by decide
    obtain ⟨least, hleast⟩ := Option.isSome_iff_exists.mp (hall operator hlogical)
    unfold places at hwrites
    rw [hleast] at hwrites
    obtain ⟨before, rest, rfl, hbefore, hrest⟩ := writes_append.mp hwrites
    obtain ⟨sign, after, rfl, hsign, hafter⟩ := exists_of_writes_logical hrest
    obtain ⟨tree, hderives, hsame⟩ := exists_derives_operation hleast ihleft ihright
      hleft.level_pos hright.level_pos hsign hbefore hafter
    refine ⟨tree, by rwa [level, hleast], ?_⟩
    rw [hsame, operation, if_pos (by rwa [List.contains_iff_mem])]
    rfl
  | @unary span operator operand hoperator hoperand ih =>
    intro tokens hwrites
    unfold places at hwrites
    obtain ⟨sign, rest, rfl, -, rfl, hrest⟩ := writes_word.mp hwrites
    obtain ⟨tree, hderives, hsame⟩ :=
      ih.operand hoperand.level_pos (by decide) (by decide) hrest
    refine ⟨_, .unary (List.contains_iff_mem.mpr hoperator) hderives, ?_⟩
    unfold Node.withoutSpans at hsame ⊢
    simp only [Node.mapSpans, hsame]
  | call hpath _ harguments ih iharguments =>
    exact phrased_call hpath ih iharguments fun argument hargument =>
      (harguments argument hargument).level_pos
  | member hpath _ hname ih => exact phrased_member hpath hname ih
  | array helements ih =>
    exact phrased_array ih fun element helement => (helements element helement).level_pos
  | object _ hvalues ih =>
    exact phrased_object ih fun entry hentry => (hvalues entry hentry).level_pos

end NeutronLang.Rendering
