import NeutronLang.Proofs.Tokenization

/-!
# The spelling of tokens

A token of a text does not carry any text whatever with its kind: a number starts with a digit, a
string with a quote, a word is reserved or not. The grammar tells most tokens by their texts alone,
and a text determines the kind as far as the grammar cares. That is what these facts are for.
-/

namespace NeutronLang.Lexicon

/-- Whether tokens of a kind can carry the text `lexeme`. -/
def spells (kind : TokenKind) (lexeme : String) : Bool :=
  match kind, lexeme.toList with
  | .number, c :: _ => c.isDigit
  | .string, c :: _ => isQuote c
  | .keyword, _ => keywords.contains lexeme
  | .identifier, c :: _ => isWordStart c && !keywords.contains lexeme
  | .operator, _ => (operators.map (·.2)).contains lexeme
  | .symbol, [c] => !isQuote c && !c.isDigit && !isWordStart c
  | _, _ => false

/-- The tokens that a text can have, by what `spells` says. -/
def Spelled (token : Token) : Prop := spells token.kind token.lexeme = true

/-- `spells` holds of what a rule allows for a kind. -/
theorem spells_of_scans {kind : TokenKind} {body rest : List Char}
    (h : Scans (some kind) body rest) : spells kind (carriedText body) = true := by
  rw [← lexeme_eq_carriedText h]
  cases h with
  | string hquote _ => simp [Lexer.lexeme, spells, hquote]
  | number hdigit _ _ => simp [Lexer.lexeme, spells, hdigit]
  | keyword _ _ _ hword => exact List.contains_iff_mem.mpr hword
  | identifier hstart htail hrest hword =>
    have hnot := Bool.eq_false_iff.mpr fun h => hword (List.contains_iff_mem.mp h)
    simp only [Lexer.lexeme, spells, String.toList_ofList, hstart, hnot]
    rfl
  | operator hmem =>
    rename_i c d carried
    rw [Lexer.lexeme, operatorText?_eq_some_iff.mpr hmem, Option.getD_some]
    exact List.contains_iff_mem.mpr (List.mem_map.mpr ⟨_, hmem, rfl⟩)
  | symbol _ hquote hdigit hstart _ _ => simp [Lexer.lexeme, spells, hquote, hdigit, hstart]

/-- What holds of each token that carries the `carriedText` of a scanned piece holds of all tokens
of a text. -/
theorem forall_of_tokenize {text : List Char} {tokens : List Token} {said : Token → Prop}
    (h : tokenize text = .ok tokens)
    (hsaid : ∀ token body after, Scans (some token.kind) body after →
      token.lexeme = carriedText body → said token) : ∀ token ∈ tokens, said token := by
  intro token htoken
  obtain ⟨before, body, after, -, -, -, hscans, hlexeme⟩ :=
    (tokenize_eq_ok_iff.mp h).read token htoken
  exact hsaid token body after hscans hlexeme

/-- `Spelled` holds of the tokens of a text. -/
theorem spelled_of_tokenize {text : List Char} {tokens : List Token}
    (h : tokenize text = .ok tokens) : ∀ token ∈ tokens, Spelled token := by
  refine forall_of_tokenize h fun token body after hscans hlexeme => ?_
  unfold Spelled
  rw [hlexeme]
  exact spells_of_scans hscans

/-- A `Spelled` token carries no text that `spells` forbids for its kind. -/
theorem lexeme_ne_of_spells {token : Token} {lexeme : String} (hspelled : Spelled token)
    (h : spells token.kind lexeme = false) : token.lexeme ≠ lexeme := by
  rintro rfl
  unfold Spelled at hspelled
  rw [h] at hspelled
  cases hspelled

end NeutronLang.Lexicon
