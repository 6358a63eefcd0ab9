import NeutronLang.Proofs.Rendering
import NeutronLang.Proofs.Tokenization

/-!
# The words of a rendering are tokens

Before a blank character, or at the end of a text, a word of a rendering is cut off by the lexer as
the token that it stands for (`Word.IsToken`); so words with blank characters between them are read
as these tokens, one for each word (`exists_tokens_of_spaced`). That every word of the rendering of
a program is such a word follows from the conditions on names, numerals and strings in its tree.
-/

namespace NeutronLang.Rendering

open Grammar Lexicon

/-! ## Words and their tokens -/

/-- A word is cut off by the lexer (`Scans`) where a blank character or nothing follows it. -/
structure Word.IsToken (word : Word) : Prop where
  scans : ∀ rest : List Char, (∀ c ∈ rest.head?, Text.isBlank c = true) →
    Scans (some word.kind) word.spelling rest
  lexeme_eq : Lexer.lexeme word.kind word.spelling = word.lexeme

/-- `Spaced` words that are tokens are cut out as these, whatever blank characters stand between
them. -/
theorem exists_cut_of_spaced {words : List Word} {text : List Char} (h : Spaced words text)
    (hwords : ∀ word ∈ words, word.IsToken) :
    ∃ pieces, Cut text pieces [] ∧
      ∀ offset, (Lexer.tokensFrom offset pieces).map Word.ofToken = words := by
  induction h with
  | nil => exact ⟨[], .nil, fun _ => rfl⟩
  -- A blank character in front is a piece without a kind, which adds no token.
  | blank hblank _ ih =>
    obtain ⟨pieces, hcut, htokens⟩ := ih hwords
    exact ⟨_, .cons (.blank hblank) hcut, fun offset => htokens _⟩
  | @last word =>
    obtain ⟨hscans, hlexeme⟩ := hwords word List.mem_cons_self
    refine ⟨[⟨some word.kind, word.spelling⟩], ?_, fun offset => ?_⟩
    -- The last word ends with the text.
    · have hcut := Cut.cons (hscans [] (by simp)) .nil
      rwa [List.append_nil] at hcut
    · simp only [Lexer.tokensFrom, List.map_cons, List.map_nil, Word.ofToken, hlexeme]
  | @word word c words text hblank _ ih =>
    obtain ⟨pieces, hcut, htokens⟩ := ih fun w hw => hwords w (List.mem_cons_of_mem _ hw)
    obtain ⟨hscans, hlexeme⟩ := hwords word List.mem_cons_self
    have hnext : ∀ d ∈ (c :: text).head?, Text.isBlank d = true := by
      rintro _ ⟨rfl⟩
      exact hblank
    refine ⟨⟨some word.kind, word.spelling⟩ :: ⟨none, [c]⟩ :: pieces,
      .cons (hscans _ hnext) (.cons (.blank hblank) hcut), fun offset => ?_⟩
    simp only [Lexer.tokensFrom, List.map_cons, Word.ofToken, hlexeme, htokens]

/-- `tokenize` cuts a text of `Spaced` words into the tokens that these stand for. -/
theorem exists_tokens_of_spaced {words : List Word} {text : List Char} (h : Spaced words text)
    (hwords : ∀ word ∈ words, word.IsToken) :
    ∃ tokens, tokenize text = .ok tokens ∧ tokens.map Word.ofToken = words := by
  obtain ⟨pieces, hcut, htokens⟩ := exists_cut_of_spaced h hwords
  refine ⟨Lexer.tokensFrom 0 pieces, ?_, htokens 0⟩
  unfold tokenize
  rw [pieces_eq_iff.mpr ⟨hcut, .inl rfl⟩]

/-! ## Fixed words -/

/-- `isWordChar` is false for a blank character. -/
theorem not_isWordChar_of_isBlank {c : Char} (h : Text.isBlank c = true) :
    isWordChar c = false := by
  rw [Bool.eq_false_iff, ne_eq, isWordChar, Bool.or_eq_true, isWordStart_iff, isDigit_iff]
  rw [isBlank_iff] at h
  omega

/-- `isNumberChar` is false for a blank character. -/
theorem not_isNumberChar_of_isBlank {c : Char} (h : Text.isBlank c = true) :
    isNumberChar c = false := by
  rw [Bool.eq_false_iff, ne_eq, isNumberChar, Bool.or_eq_true, isDigit_iff, beq_iff_eq]
  -- Neither a digit nor the point is blank.
  rintro (hdigit | rfl)
  · rw [isBlank_iff] at h
    omega
  · exact absurd h (by decide)

/-- What no other rule takes `Scans` as a symbol before a blank character: a comment or an operator
would need a certain second character. -/
theorem scans_symbol_before_blank {c : Char} {rest : List Char} (hblank : Text.isBlank c = false)
    (hquote : isQuote c = false) (hdigit : c.isDigit = false) (hstart : isWordStart c = false)
    (hrest : ∀ d ∈ rest.head?, Text.isBlank d = true) : Scans (some .symbol) [c] rest := by
  refine .symbol hblank hquote hdigit hstart ?_ ?_
  · rintro ⟨-, hslash | hstar⟩
    · exact absurd (hrest '/' hslash) (by decide)
    · exact absurd (hrest '*' hstar) (by decide)
  · rintro ⟨d, hd, carried, hmem⟩
    have hblank : Text.isBlank d = true := hrest d hd
    simp only [operators, List.mem_cons, Prod.mk.injEq, List.cons.injEq, and_true,
      List.not_mem_nil, or_false] at hmem
    rcases hmem with ⟨⟨-, rfl⟩, -⟩ | ⟨⟨-, rfl⟩, -⟩ | ⟨⟨-, rfl⟩, -⟩ | ⟨⟨-, rfl⟩, -⟩ |
      ⟨⟨-, rfl⟩, -⟩ | ⟨⟨-, rfl⟩, -⟩ <;> exact absurd hblank (by decide)

/-- The symbols of the grammar. -/
def symbols : List String :=
  ["(", ")", "[", "]", "\x7b", "\x7d", ",", ":", ";", ".", "=", "<", ">", "+", "-", "*", "/", "%"]

/-- `IsToken` holds of the symbols of the grammar. -/
theorem isToken_symbol {lexeme : String} (h : lexeme ∈ symbols) :
    (Word.mk .symbol lexeme).IsToken := by
  have hall : ∀ lexeme ∈ symbols, ∃ c, lexeme.toList = [c] ∧ Text.isBlank c = false ∧
      isQuote c = false ∧ c.isDigit = false ∧ isWordStart c = false := by
    intro lexeme hlexeme
    simp only [symbols, List.mem_cons, List.not_mem_nil, or_false] at hlexeme
    rcases hlexeme with rfl | rfl | rfl | rfl | rfl | rfl | rfl | rfl | rfl | rfl | rfl | rfl |
      rfl | rfl | rfl | rfl | rfl | rfl <;> exact ⟨_, rfl, by decide⟩
  obtain ⟨c, hc, hblank, hquote, hdigit, hstart⟩ := hall lexeme h
  refine ⟨fun rest hrest => ?_, ?_⟩
  · show Scans (some .symbol) lexeme.toList rest
    rw [hc]
    exact scans_symbol_before_blank hblank hquote hdigit hstart hrest
  · exact String.ofList_toList

/-- `IsToken` holds of a word of letters, reserved or not, with the kind that it has. -/
theorem isToken_word {kind : TokenKind} {lexeme : String}
    (hword : ∃ c tail, lexeme.toList = c :: tail ∧ isWordStart c = true ∧
      ∀ d ∈ tail, isWordChar d = true)
    (hkind : kind = .keyword ∧ lexeme ∈ keywords ∨ kind = .identifier ∧ lexeme ∉ keywords) :
    (Word.mk kind lexeme).IsToken := by
  obtain ⟨c, tail, hlist, hstart, htail⟩ := hword
  have htext : String.ofList (c :: tail) = lexeme := by rw [← hlist, String.ofList_toList]
  have hrest {rest : List Char} (h : ∀ d ∈ rest.head?, Text.isBlank d = true) :
      ∀ d ∈ rest.head?, isWordChar d = false := fun d hd => not_isWordChar_of_isBlank (h d hd)
  rcases hkind with ⟨rfl, hmem⟩ | ⟨rfl, hmem⟩
  · refine ⟨fun rest h => ?_, ?_⟩
    · show Scans (some .keyword) lexeme.toList rest
      rw [hlist]
      exact .keyword hstart htail (hrest h) (htext ▸ hmem)
    · exact String.ofList_toList
  · refine ⟨fun rest h => ?_, ?_⟩
    · show Scans (some .identifier) lexeme.toList rest
      rw [hlist]
      exact .identifier hstart htail (hrest h) (htext ▸ hmem)
    · exact String.ofList_toList

/-- `IsToken` holds of the reserved words. -/
theorem isToken_keyword {lexeme : String} (h : lexeme ∈ keywords) :
    (Word.mk .keyword lexeme).IsToken := by
  -- The reserved words are spelled as words are, which is checked for the whole list.
  have hall : (keywords.all fun lexeme =>
      lexeme.toList.head?.any isWordStart && lexeme.toList.tail.all isWordChar) = true := by decide
  obtain ⟨hhead, htail⟩ := Bool.and_eq_true_iff.mp (List.all_eq_true.mp hall lexeme h)
  obtain ⟨c, hc, hstart⟩ := (Option.any_eq_true _ _).mp hhead
  refine isToken_word ?_ (.inl ⟨rfl, h⟩)
  obtain ⟨tail, hlist⟩ := List.head?_eq_some_iff.mp hc
  refine ⟨c, tail, hlist, hstart, List.all_eq_true.mp ?_⟩
  rwa [hlist] at htail

/-- `IsToken` holds of the operators of two characters. -/
theorem isToken_operator {lexeme : String} (h : lexeme ∈ operators.map (·.2)) :
    (Word.mk .operator lexeme).IsToken := by
  obtain ⟨⟨signs, carried⟩, hmem, rfl⟩ := List.mem_map.mp h
  have hall : ∀ entry ∈ operators,
      (Word.mk .operator entry.2).spelling = entry.1 ∧ entry.1.length = 2 := by decide
  obtain ⟨hspelling, hlength⟩ := hall _ hmem
  obtain ⟨c, d, rfl⟩ := List.length_eq_two.mp hlength
  refine ⟨fun rest _ => ?_, ?_⟩
  · rw [hspelling]
    exact .operator hmem
  · rw [hspelling, Lexer.lexeme, operatorText?_eq_some_iff.mpr hmem]
    rfl

/-! ## The words of trees -/

/-- Whatever is chosen at a place is made of tokens (`Word.IsToken`). -/
def Place.IsLexical (place : Place) : Prop :=
  ∀ words ∈ place.choices, ∀ word ∈ words, word.IsToken

/-- `IsLexical` holds of a place with one way of writing it if its word is a token. -/
theorem isLexical_word {kind : TokenKind} {lexeme : String} (h : (Word.mk kind lexeme).IsToken) :
    (Place.word kind lexeme).IsLexical := by
  intro words hwords word hword
  obtain rfl := List.mem_singleton.mp hwords
  obtain rfl := List.mem_singleton.mp hword
  exact h

/-- Places at each of which whatever is chosen is made of tokens (`Place.IsLexical`). -/
def Lexical (places : List Place) : Prop := ∀ place ∈ places, place.IsLexical

@[simp] theorem lexical_nil : Lexical [] := by simp [Lexical]

@[simp] theorem lexical_cons {place : Place} {places : List Place} :
    Lexical (place :: places) ↔ place.IsLexical ∧ Lexical places := List.forall_mem_cons

@[simp] theorem lexical_append {first second : List Place} :
    Lexical (first ++ second) ↔ Lexical first ∧ Lexical second := List.forall_mem_append

/-- The words `Chosen` for lexical places are tokens. -/
theorem Chosen.isToken {places : List Place} {words : List Word} (h : Chosen places words)
    (hplaces : Lexical places) : ∀ word ∈ words, word.IsToken := by
  induction h with
  | nil => simp
  | @cons place places words rest hmem _ ih =>
    obtain ⟨hplace, hrest⟩ := lexical_cons.mp hplaces
    intro word hword
    rcases List.mem_append.mp hword with hfirst | hlater
    · exact hplace words hmem word hfirst
    · exact ih hrest word hlater

/-- Each place has a choice. -/
theorem exists_chosen (places : List Place) : ∃ words, Chosen places words := by
  induction places with
  | nil => exact ⟨[], .nil⟩
  | cons place places ih =>
    obtain ⟨rest, hrest⟩ := ih
    obtain ⟨words, hwords⟩ : ∃ words, words ∈ place.choices := by
      cases place <;> exact ⟨_, List.mem_cons_self⟩
    exact ⟨words ++ rest, .cons hwords hrest⟩

/-- Words can be put on a line with one blank between them. -/
theorem exists_spaced (words : List Word) : ∃ text, Spaced words text := by
  induction words with
  | nil => exact ⟨[], .nil⟩
  | cons word words ih =>
    obtain ⟨text, htext⟩ := ih
    exact ⟨word.spelling ++ ' ' :: text, .word rfl htext⟩

/-- `IsLexical` holds of the places of symbols. -/
theorem isLexical_symbol {lexeme : String} (h : lexeme ∈ symbols) : (symbol lexeme).IsLexical :=
  isLexical_word (isToken_symbol h)

/-- `IsLexical` holds of the places of reserved words. -/
theorem isLexical_keyword {lexeme : String} (h : lexeme ∈ keywords) :
    (keyword lexeme).IsLexical := isLexical_word (isToken_keyword h)

/-- `IsLexical` holds of the place of a name. -/
theorem isLexical_name {name : String} (h : IsName name ∨ name = "this") :
    (namePlace name).IsLexical := by
  rcases h with ⟨hnot, hword⟩ | rfl
  · have hthis : name ≠ "this" := by
      rintro rfl
      exact hnot (by decide)
    unfold namePlace
    rw [if_neg hthis]
    exact isLexical_word (isToken_word hword (.inr ⟨rfl, hnot⟩))
  · exact isLexical_keyword (by decide)

/-- `IsLexical` holds of the place of a binary operator. -/
theorem isLexical_operator {operator : String} (h : (precedence? operator).isSome)
    (hlogical : operator ∉ logicalOperators) : (operatorPlace operator).IsLexical := by
  obtain ⟨least, hleast⟩ := Option.isSome_iff_exists.mp h
  obtain ⟨before, after, hentries, -⟩ := List.lookup_eq_some_iff.mp hleast
  -- Apart from the logical ones, the binary operators of two characters are those of the lexer, and
  -- the others are symbols.
  have hall : ∀ entry ∈ precedences, entry.1 ∉ logicalOperators →
      if entry.1.length = 2 then entry.1 ∈ operators.map (·.2) else entry.1 ∈ symbols := by decide
  have hentry := hall (operator, least) (by rw [hentries]; simp) hlogical
  unfold operatorPlace
  split at hentry
  · next htwo =>
    rw [if_pos htwo]
    exact isLexical_word (isToken_operator hentry)
  · next hone =>
    rw [if_neg hone]
    exact isLexical_symbol hentry

/-- `IsLexical` holds of the place of a logical operator, whichever way it is written. -/
theorem isLexical_logical {operator : String} (h : operator ∈ logicalOperators) :
    (Place.logical operator).IsLexical := by
  have hkeyword : ∀ operator ∈ logicalOperators, operator ∈ keywords := by decide
  have hsigns : ∀ operator ∈ logicalOperators, operator ∈ operators.map (·.2) := by decide
  intro words hwords word hword
  simp only [Place.choices, List.mem_cons, List.not_mem_nil, or_false] at hwords
  -- The word itself, and the two signs that are read as it.
  rcases hwords with rfl | rfl <;> obtain rfl := List.mem_singleton.mp hword
  · exact isToken_keyword (hkeyword operator h)
  · exact isToken_operator (hsigns operator h)

/-- `IsLexical` holds of the place that opens the next conditional of a chain. -/
theorem isLexical_elseIf : Place.elseIf.IsLexical := by
  have hall : ∀ words ∈ Place.elseIf.choices, ∀ word ∈ words,
      word.kind = .keyword ∧ word.lexeme ∈ keywords := by decide
  intro words hwords word hword
  obtain ⟨hkind, hlexeme⟩ := hall words hwords word hword
  obtain ⟨kind, lexeme⟩ := word
  obtain rfl : kind = .keyword := hkind
  exact isToken_keyword hlexeme

/-- `IsLexical` holds of the place of a numeral. -/
theorem isLexical_number {raw : String} (h : IsNumeral raw) :
    (Place.word .number raw).IsLexical := by
  obtain ⟨c, tail, hlist, hdigit, htail⟩ := h
  refine isLexical_word ⟨fun rest hrest => ?_, String.ofList_toList⟩
  show Scans (some .number) raw.toList rest
  rw [hlist]
  exact .number hdigit htail fun d hd => not_isNumberChar_of_isBlank (hrest d hd)

/-- `IsLexical` holds of the place of a string. -/
theorem isLexical_string {raw : String} (h : IsQuoted raw) :
    (Place.word .string raw).IsLexical := by
  obtain ⟨quote, body, hquote, hbody, hlist⟩ := h
  refine isLexical_word ⟨fun rest _ => ?_, String.ofList_toList⟩
  show Scans (some .string) raw.toList rest
  rw [hlist]
  exact .string hquote hbody

/-- `operandPlaces` are lexical if those of the operand are, in parentheses or not. -/
theorem Lexical.operandPlaces {inner : List Place} (h : Lexical inner) (least : Nat)
    (operand : Node) : Lexical (operandPlaces least operand inner) := by
  unfold Rendering.operandPlaces
  split
  · simp only [lexical_cons, lexical_append, lexical_nil, and_true]
    exact ⟨isLexical_symbol (by decide), h, isLexical_symbol (by decide)⟩
  · exact h

/-- `listPlaces` are lexical if those of each item are. -/
theorem lexical_listPlaces {items : List (List Place)} (h : ∀ item ∈ items, Lexical item) :
    Lexical (listPlaces items) := by
  -- None, one, or a first one with a comma after it.
  fun_induction listPlaces items with
  | case1 => exact lexical_nil
  | case2 item => exact h item List.mem_cons_self
  | case3 item next items ih =>
    rw [lexical_append, lexical_cons]
    exact ⟨h item List.mem_cons_self, isLexical_symbol (by decide),
      ih fun i hi => h i (List.mem_cons_of_mem _ hi)⟩

/-- The `places` of an expression are lexical. -/
theorem IsExpression.lexical {node : Node} (h : IsExpression node) : Lexical (places node) := by
  induction h with
  | number hraw => exact lexical_cons.mpr ⟨isLexical_number hraw, lexical_nil⟩
  | string hraw => exact lexical_cons.mpr ⟨isLexical_string hraw, lexical_nil⟩
  | true | false | nil => exact lexical_cons.mpr ⟨isLexical_keyword (by decide), lexical_nil⟩
  | name hname => exact lexical_cons.mpr ⟨isLexical_name hname, lexical_nil⟩
  | binary hprecedence hlogical _ _ ihleft ihright =>
    unfold places
    rw [lexical_append, lexical_cons]
    exact ⟨ihleft.operandPlaces _ _, isLexical_operator hprecedence hlogical,
      ihright.operandPlaces _ _⟩
  | logical hlogical _ _ ihleft ihright =>
    unfold places
    rw [lexical_append, lexical_cons]
    exact ⟨ihleft.operandPlaces _ _, isLexical_logical hlogical, ihright.operandPlaces _ _⟩
  | unary hoperator _ ih =>
    unfold places
    rw [lexical_cons]
    refine ⟨?_, ih.operandPlaces _ _⟩
    -- One prefix operator is a reserved word and the other one a symbol.
    simp only [prefixOperators, List.mem_cons, List.not_mem_nil, or_false] at hoperator
    rcases hoperator with rfl | rfl
    · exact isLexical_keyword (by decide)
    · exact isLexical_symbol (by decide)
  | call _ _ _ ih iharguments =>
    unfold places
    rw [placesOfAll_eq_map]
    simp only [lexical_append, lexical_cons, lexical_nil, and_true]
    exact ⟨ih, isLexical_symbol (by decide),
      lexical_listPlaces (List.forall_mem_map.mpr iharguments), isLexical_symbol (by decide)⟩
  | member _ _ hname ih =>
    unfold places
    rw [lexical_append, lexical_cons]
    exact ⟨ih, isLexical_symbol (by decide),
      lexical_cons.mpr ⟨isLexical_name (.inl hname), lexical_nil⟩⟩
  | array _ ih =>
    unfold places
    rw [placesOfAll_eq_map]
    simp only [lexical_append, lexical_cons, lexical_nil, and_true]
    exact ⟨isLexical_symbol (by decide), lexical_listPlaces (List.forall_mem_map.mpr ih),
      isLexical_symbol (by decide)⟩
  | object hkeys _ ih =>
    unfold places
    rw [placesOfAll_eq_map]
    simp only [lexical_append, lexical_cons, lexical_nil, and_true]
    refine ⟨isLexical_symbol (by decide), lexical_listPlaces ?_, isLexical_symbol (by decide)⟩
    rw [List.map_map, List.forall_mem_map]
    intro entry hentry
    show Lexical (places entry.node)
    unfold Entry.node
    rw [places, lexical_append, lexical_cons]
    exact ⟨lexical_cons.mpr ⟨isLexical_string (hkeys entry hentry), lexical_nil⟩,
      isLexical_symbol (by decide), ih entry hentry⟩

/-- The `places` of a declaration are lexical. -/
theorem IsDeclaration.lexical {node : Node} (h : IsDeclaration node) : Lexical (places node) := by
  obtain ⟨htype, hname, hinit⟩ := h
  have hkeyword : ∀ typeName ∈ typeKeywords, typeName ∈ keywords := by decide
  unfold places
  simp only [lexical_cons, lexical_append]
  refine ⟨isLexical_keyword (by decide), ⟨?_, lexical_cons.mpr ⟨isLexical_name (.inl hname),
    lexical_nil⟩⟩, ?_⟩
  · intro place hplace
    obtain ⟨typeName, hmem, rfl⟩ := List.mem_map.mp hplace
    exact isLexical_keyword (hkeyword typeName (htype typeName (Option.mem_toList.mp hmem)))
  · unfold initPlaces
    split
    · exact lexical_nil
    · rcases hinit with rfl | hinit
      · exact lexical_cons.mpr ⟨isLexical_symbol (by decide), lexical_nil⟩
      · exact lexical_cons.mpr ⟨isLexical_symbol (by decide), hinit.lexical⟩

/-- The `places` of an assignment are lexical. -/
theorem IsAssignment.lexical {node : Node} (h : IsAssignment node) : Lexical (places node) := by
  obtain ⟨hname, hvalue⟩ := h
  unfold places
  rw [lexical_append, lexical_cons]
  exact ⟨lexical_cons.mpr ⟨isLexical_name hname, lexical_nil⟩, isLexical_symbol (by decide),
    hvalue.lexical⟩

/-- `endPlaces` are lexical: at most a semicolon. -/
theorem lexical_endPlaces (node : Node) : Lexical (endPlaces node) := by
  have hsemicolon : Lexical [symbol ";"] :=
    lexical_cons.mpr ⟨isLexical_symbol (by decide), lexical_nil⟩
  cases node <;> first | exact hsemicolon | exact lexical_nil

/-- `statementPlaces` are lexical if the places of each statement are. -/
theorem lexical_statementPlaces {statements : List Node}
    (h : ∀ statement ∈ statements, Lexical (places statement)) :
    Lexical (statementPlaces statements) := by
  induction statements with
  | nil => exact lexical_nil
  | cons statement statements ih =>
    unfold statementPlaces
    rw [lexical_append, lexical_append]
    exact ⟨⟨h statement List.mem_cons_self, lexical_endPlaces statement⟩,
      ih fun s hs => h s (List.mem_cons_of_mem _ hs)⟩

/-- The `places` of a block are lexical if those of each statement are. -/
theorem lexical_block {span : Span} {statements : List Node}
    (h : ∀ statement ∈ statements, Lexical (places statement)) :
    Lexical (places (.block span statements)) := by
  unfold places
  simp only [lexical_cons, lexical_append, lexical_nil, and_true]
  exact ⟨isLexical_symbol (by decide), lexical_statementPlaces h, isLexical_symbol (by decide)⟩

/-- The `places` of an optional clause are lexical if those of each clause are. -/
theorem lexical_optional {clause : Node} {allowed : Prop} (h : clause = .absent ∨ allowed)
    (hallowed : allowed → Lexical (places clause)) : Lexical (places clause) := by
  rcases h with rfl | hclause
  · exact lexical_nil
  · exact hallowed hclause

/-- The `places` of a statement are lexical. -/
theorem IsStatement.lexical {node : Node} (h : IsStatement node) : Lexical (places node) := by
  have hkeyword {lexeme : String} (h : lexeme ∈ statementKeywords) :
      (keyword lexeme).IsLexical := by
    have hall : ∀ lexeme ∈ statementKeywords, lexeme ∈ keywords := by decide
    exact isLexical_keyword (hall lexeme h)
  have hopen : (symbol "(").IsLexical := isLexical_symbol (by decide)
  have hclose : (symbol ")").IsLexical := isLexical_symbol (by decide)
  have hsemicolon : (symbol ";").IsLexical := isLexical_symbol (by decide)
  induction h with
  | declaration hdeclaration => exact hdeclaration.lexical
  | assignment hassignment _ => exact hassignment.lexical
  | expression hexpression _ => exact hexpression.lexical
  | returns hargument =>
    unfold places
    rw [lexical_cons]
    exact ⟨hkeyword (by decide), lexical_optional hargument IsExpression.lexical⟩
  | conditional htest _ ih =>
    unfold places
    simp only [lexical_cons, lexical_append]
    exact ⟨hkeyword (by decide), hopen, htest.lexical, hclose, lexical_block ih, lexical_nil⟩
  | conditionalElse htest _ _ ih ihother =>
    unfold places
    simp only [lexical_cons, lexical_append]
    exact ⟨hkeyword (by decide), hopen, htest.lexical, hclose, lexical_block ih,
      lexical_cons.mpr ⟨isLexical_keyword (by decide), lexical_block ihother⟩⟩
  | conditionalChain htest _ _ ih ihnext =>
    unfold places
    simp only [lexical_cons, lexical_append]
    exact ⟨hkeyword (by decide), hopen, htest.lexical, hclose, lexical_block ih,
      lexical_cons.mpr ⟨isLexical_elseIf, fun place hplace =>
        ihnext place (List.mem_of_mem_tail hplace)⟩⟩
  | loop htest _ ih =>
    unfold places
    simp only [lexical_cons, lexical_append]
    exact ⟨hkeyword (by decide), hopen, htest.lexical, hclose, lexical_block ih⟩
  | forLoop hinit htest hupdate _ ih =>
    unfold places
    simp only [lexical_cons, lexical_append]
    refine ⟨hkeyword (by decide), hopen, lexical_optional hinit fun h => ?_, hsemicolon,
      lexical_optional htest IsExpression.lexical, hsemicolon, lexical_optional hupdate fun h => ?_,
      hclose, lexical_block ih⟩
    -- What the loop starts with.
    · exact h.elim IsDeclaration.lexical fun h => h.elim IsExpression.lexical IsAssignment.lexical
    -- What it goes on with.
    · exact h.elim IsExpression.lexical IsAssignment.lexical
  | function hname hparams _ ih =>
    unfold places
    rw [placesOfAll_eq_map, List.map_map]
    simp only [lexical_cons, lexical_append]
    refine ⟨hkeyword (by decide), lexical_cons.mpr ⟨isLexical_name (.inl hname), lexical_nil⟩,
      hopen, lexical_listPlaces (List.forall_mem_map.mpr fun param hparam => ?_), hclose,
      lexical_block ih⟩
    exact lexical_cons.mpr ⟨isLexical_name (.inl (hparams param hparam)), lexical_nil⟩
  | declaredClass hname _ ih =>
    unfold places
    rw [lexical_cons, lexical_append]
    exact ⟨hkeyword (by decide), lexical_cons.mpr ⟨isLexical_name (.inl hname), lexical_nil⟩,
      lexical_block ih⟩

end NeutronLang.Rendering
