import Mathlib.Data.List.Forall2
import NeutronLang.Token.Lexer

/-!
# The lexical grammar

Which stretches of a text are tokens and which are gaps, rule by rule and without the lexer. A rule
says what a stretch consists of and, where it has to go on as far as it can, what may not follow
it. `firstPiece?_eq_some_iff` is the link to the lexer: the next piece that it cuts off is the one
stretch at the start of the text that a rule allows.

The classes of characters are kept apart by the ranges of their code points, so that the rules
exclude each other by arithmetic.
-/

namespace NeutronLang.Lexicon

/-! ## Classes of characters -/

/-- `isDigit` holds of the code points from 48 to 57. -/
theorem isDigit_iff (c : Char) : c.isDigit = true ↔ 48 ≤ c.toNat ∧ c.toNat ≤ 57 := by
  have h0 : ('0' : Char).val.toNat = 48 := rfl
  have h9 : ('9' : Char).val.toNat = 57 := rfl
  simp only [Char.isDigit, Bool.and_eq_true, decide_eq_true_eq, ge_iff_le, UInt32.le_iff_toNat_le,
    h0, h9]
  exact Iff.rfl

/-- `isBlank` holds of ten ranges of code points. -/
theorem isBlank_iff (c : Char) : Text.isBlank c = true ↔
    (9 ≤ c.toNat ∧ c.toNat ≤ 13) ∨ (28 ≤ c.toNat ∧ c.toNat ≤ 32) ∨ c.toNat = 133 ∨
      c.toNat = 160 ∨ c.toNat = 5760 ∨ (8192 ≤ c.toNat ∧ c.toNat ≤ 8202) ∨
      (8232 ≤ c.toNat ∧ c.toNat ≤ 8233) ∨ c.toNat = 8239 ∨ c.toNat = 8287 ∨ c.toNat = 12288 := by
  simp only [Text.isBlank, Text.blankRanges, List.any_cons, List.any_nil, Bool.or_eq_true,
    Bool.and_eq_true, decide_eq_true_eq, Bool.or_false]
  omega

/-- `isWordStart` holds of the letters from A to Z in either case, the underscore and the dollar
sign. -/
theorem isWordStart_iff (c : Char) : isWordStart c = true ↔
    (65 ≤ c.toNat ∧ c.toNat ≤ 90) ∨ (97 ≤ c.toNat ∧ c.toNat ≤ 122) ∨ c.toNat = 95 ∨
      c.toNat = 36 := by
  have hupper : c.isUpper = true ↔ 65 ≤ c.toNat ∧ c.toNat ≤ 90 := by
    unfold Char.isUpper
    simp only [decide_eq_true_eq, ge_iff_le, UInt32.le_iff_toNat_le]
    exact Iff.rfl
  have hlower : c.isLower = true ↔ 97 ≤ c.toNat ∧ c.toNat ≤ 122 := by
    unfold Char.isLower
    simp only [Bool.and_eq_true, decide_eq_true_eq, ge_iff_le, UInt32.le_iff_toNat_le]
    exact Iff.rfl
  have hchar (d : Char) : c = d ↔ c.toNat = d.toNat := Char.toNat_inj.symm
  unfold isWordStart Char.isAlpha
  simp only [Bool.or_eq_true, hupper, hlower, beq_iff_eq, hchar]
  have hu : ('_' : Char).toNat = 95 := rfl
  have hd : ('$' : Char).toNat = 36 := rfl
  omega

/-- `isQuote` holds of the code points 34 and 39. -/
theorem isQuote_iff (c : Char) : isQuote c = true ↔ c.toNat = 34 ∨ c.toNat = 39 := by
  have hchar (d : Char) : c = d ↔ c.toNat = d.toNat := Char.toNat_inj.symm
  simp only [isQuote, Text.doubleQuote, Text.singleQuote, Bool.or_eq_true, beq_iff_eq, hchar]
  exact Iff.rfl

/-! ## Rules -/

/-- The two signs that close a block comment. -/
def commentEnd : List Char := ['*', '/']

/-- The inside of a string in the quotes `quote`: every such quote in it has a backslash before it
that is not itself behind one. -/
inductive Enclosed (quote : Char) : List Char → Prop where
  | nil : Enclosed quote []
  | plain {c : Char} {rest : List Char} : c ≠ quote → c ≠ '\\' → Enclosed quote rest →
      Enclosed quote (c :: rest)
  | escaped {c : Char} {rest : List Char} : Enclosed quote rest → Enclosed quote ('\\' :: c :: rest)

/-- What follows an opening `quote` of a string that is never closed: the inside of a string
(`Enclosed`), or one with a single backslash after it. -/
def Unclosed (quote : Char) (text : List Char) : Prop :=
  Enclosed quote text ∨ ∃ body, Enclosed quote body ∧ text = body ++ ['\\']

/-- The operators of two characters with the texts that their tokens carry, as `operatorText?` gives
them. -/
def operators : List (List Char × String) :=
  [(['=', '='], "=="), (['!', '='], "!="), (['>', '='], ">="), (['<', '='], "<="),
   (['&', '&'], "and"), (['|', '|'], "or")]

/-- Whether an operator of two characters starts with `c` before the given text. -/
def StartsOperator (c : Char) (rest : List Char) : Prop :=
  ∃ d ∈ rest.head?, ∃ carried, ([c, d], carried) ∈ operators

/-- Whether a comment starts with `c` before the given text. -/
def StartsComment (c : Char) (rest : List Char) : Prop :=
  c = '/' ∧ (rest.head? = some '/' ∨ rest.head? = some '*')

/-- The stretches of text that are tokens of a kind or, where there is none, pieces of a gap. The
last argument is the text that follows: it has to be such that the stretch does not go on. -/
inductive Scans : Option TokenKind → List Char → List Char → Prop where
  | blank {c : Char} {rest : List Char} : Text.isBlank c = true → Scans none [c] rest
  | lineComment {body rest : List Char} : '\n' ∉ body → (∀ d ∈ rest.head?, d = '\n') →
      Scans none ('/' :: '/' :: body) rest
  /-- The comment ends with the first closing signs that stand wholly after the opening ones. -/
  | blockComment {body rest : List Char} : ¬ commentEnd <:+: body ++ ['*'] →
      Scans none ('/' :: '*' :: (body ++ commentEnd)) rest
  | openComment {body : List Char} : ¬ commentEnd <:+: body → Scans none ('/' :: '*' :: body) []
  | string {quote : Char} {body rest : List Char} : isQuote quote = true → Enclosed quote body →
      Scans (some .string) (quote :: (body ++ [quote])) rest
  | number {c : Char} {tail rest : List Char} : c.isDigit = true →
      (∀ d ∈ tail, isNumberChar d = true) → (∀ d ∈ rest.head?, isNumberChar d = false) →
      Scans (some .number) (c :: tail) rest
  | keyword {c : Char} {tail rest : List Char} : isWordStart c = true →
      (∀ d ∈ tail, isWordChar d = true) → (∀ d ∈ rest.head?, isWordChar d = false) →
      String.ofList (c :: tail) ∈ keywords → Scans (some .keyword) (c :: tail) rest
  | identifier {c : Char} {tail rest : List Char} : isWordStart c = true →
      (∀ d ∈ tail, isWordChar d = true) → (∀ d ∈ rest.head?, isWordChar d = false) →
      String.ofList (c :: tail) ∉ keywords → Scans (some .identifier) (c :: tail) rest
  | operator {c d : Char} {carried : String} {rest : List Char} :
      ([c, d], carried) ∈ operators → Scans (some .operator) [c, d] rest
  | symbol {c : Char} {rest : List Char} : Text.isBlank c = false → isQuote c = false →
      c.isDigit = false → isWordStart c = false → ¬ StartsComment c rest →
      ¬ StartsOperator c rest → Scans (some .symbol) [c] rest

/-! ## Comments -/

/-- A text with closing signs in it falls into what stands before the first of them and what
follows. -/
theorem exists_commentEnd {text : List Char} (h : commentEnd <:+: text) :
    ∃ body rest, text = body ++ commentEnd ++ rest ∧ ¬ commentEnd <:+: body ++ ['*'] := by
  induction text with
  | nil => simp [commentEnd] at h
  | cons c text ih =>
    by_cases hfirst : commentEnd <+: c :: text
    · obtain ⟨rest, hrest⟩ := hfirst
      exact ⟨[], rest, by simpa using hrest.symm, by simp [commentEnd, List.infix_cons_iff]⟩
    · have hlater : commentEnd <:+: text := (List.infix_cons_iff.mp h).resolve_left hfirst
      obtain ⟨body, rest, rfl, hbody⟩ := ih hlater
      refine ⟨c :: body, rest, by simp, ?_⟩
      rw [List.cons_append, List.infix_cons_iff]
      rintro (hhere | hthere)
      · -- Closing signs at the start would also be there with the rest of the text after them.
        refine hfirst (hhere.trans ?_)
        exact ⟨'/' :: rest, by simp [commentEnd]⟩
      · exact hbody hthere

/-- `commentLength` of a closed comment goes up to the first closing signs. -/
theorem commentLength_closed {body : List Char} (rest : List Char)
    (h : ¬ commentEnd <:+: body ++ ['*']) :
    Lexer.commentLength (body ++ commentEnd ++ rest) = body.length + 2 := by
  induction body with
  | nil => simp [commentEnd, Lexer.commentLength]
  | cons c body ih =>
    rw [List.cons_append, List.infix_cons_iff, not_or] at h
    have ih := ih h.2
    rw [List.cons_append, List.cons_append, Lexer.commentLength, ih]
    · simp
    · rintro following rfl htail
      cases body with
      | nil => simp [commentEnd] at htail
      | cons d body =>
        obtain ⟨rfl, -⟩ := List.cons.inj htail
        exact h.1 ⟨body ++ ['*'], by simp [commentEnd]⟩

/-- `commentLength` without closing signs is all that remains. -/
theorem commentLength_open {text : List Char} (h : ¬ commentEnd <:+: text) :
    Lexer.commentLength text = text.length := by
  induction text with
  | nil => rfl
  | cons c text ih =>
    rw [List.infix_cons_iff, not_or] at h
    rw [Lexer.commentLength, ih h.2]
    · simp
    · rintro following rfl rfl
      exact h.1 ⟨following, rfl⟩

/-! ## Strings -/

/-- `stringLength?` counts one for a character that is neither its quote nor a backslash. -/
theorem stringLength?_plain {quote c : Char} (rest : List Char) (hquote : c ≠ quote)
    (hback : c ≠ '\\') :
    Lexer.stringLength? quote (c :: rest) = (Lexer.stringLength? quote rest).map (· + 1) := by
  rw [Lexer.stringLength?.eq_def]
  simp [hquote, hback]

/-- `stringLength?` counts two for a backslash and the character behind it. -/
theorem stringLength?_escaped {quote : Char} (c : Char) (rest : List Char) (hquote : quote ≠ '\\') :
    Lexer.stringLength? quote ('\\' :: c :: rest) =
      (Lexer.stringLength? quote rest).map (· + 2) := by
  rw [Lexer.stringLength?.eq_def]
  simp [hquote.symm]

/-- `stringLength?` ends at the quote after the inside. -/
theorem stringLength?_enclosed {quote : Char} {body : List Char} (rest : List Char)
    (hquote : quote ≠ '\\') (h : Enclosed quote body) :
    Lexer.stringLength? quote (body ++ quote :: rest) = some (body.length + 1) := by
  induction h with
  | nil => rw [List.nil_append, Lexer.stringLength?.eq_def]; simp
  | plain hne hback _ ih => rw [List.cons_append, stringLength?_plain _ hne hback, ih]; rfl
  | escaped _ ih =>
    rw [List.cons_append, List.cons_append, stringLength?_escaped _ _ hquote, ih]
    rfl

/-- `stringLength?` gives the length of an inside and of the quote after it. -/
theorem exists_enclosed_of_stringLength? {quote : Char} {text : List Char} {length : Nat}
    (h : Lexer.stringLength? quote text = some length) :
    ∃ body rest, text = body ++ quote :: rest ∧ Enclosed quote body ∧
      length = body.length + 1 := by
  fun_induction Lexer.stringLength? quote text generalizing length with
  | case1 => simp at h
  | case2 rest => exact ⟨[], rest, by simp, .nil, by simpa using h.symm⟩
  | case3 => simp at h
  | case4 c rest hquote ih =>
    obtain ⟨inner, hinner, rfl⟩ := Option.map_eq_some_iff.mp h
    obtain ⟨body, after, rfl, hbody, rfl⟩ := ih hinner
    exact ⟨'\\' :: c :: body, after, by simp, .escaped hbody, by simp⟩
  | case5 c rest hquote hback ih =>
    obtain ⟨inner, hinner, rfl⟩ := Option.map_eq_some_iff.mp h
    obtain ⟨body, after, rfl, hbody, rfl⟩ := ih hinner
    exact ⟨c :: body, after, by simp, .plain hquote hback hbody, by simp⟩

/-- `stringLength?` gives nothing exactly when the string is never closed. -/
theorem stringLength?_eq_none_iff {quote : Char} {text : List Char} (hquote : quote ≠ '\\') :
    Lexer.stringLength? quote text = none ↔ Unclosed quote text := by
  constructor
  · intro h
    fun_induction Lexer.stringLength? quote text with
    | case1 => exact .inl .nil
    | case2 => simp at h
    | case3 => exact .inr ⟨[], .nil, rfl⟩
    | case4 c rest hne ih =>
      rcases ih (Option.map_eq_none_iff.mp h) with hbody | ⟨body, hbody, rfl⟩
      · exact .inl (.escaped hbody)
      · exact .inr ⟨'\\' :: c :: body, .escaped hbody, rfl⟩
    | case5 c rest hne hback ih =>
      rcases ih (Option.map_eq_none_iff.mp h) with hbody | ⟨body, hbody, rfl⟩
      · exact .inl (.plain hne hback hbody)
      · exact .inr ⟨c :: body, .plain hne hback hbody, rfl⟩
  · -- what is enclosed adds to the length and closes nothing, so all depends on the tail
    have hopen {body : List Char} (hbody : Enclosed quote body) (tail : List Char)
        (htail : Lexer.stringLength? quote tail = none) :
        Lexer.stringLength? quote (body ++ tail) = none := by
      induction hbody with
      | nil => exact htail
      | plain hne hback _ ih => rw [List.cons_append, stringLength?_plain _ hne hback, ih]; rfl
      | escaped _ ih =>
        rw [List.cons_append, List.cons_append, stringLength?_escaped _ _ hquote, ih]
        rfl
    rintro (hbody | ⟨body, hbody, rfl⟩)
    · simpa using hopen hbody [] (by simp [Lexer.stringLength?])
    · exact hopen hbody ['\\'] (by simp [Lexer.stringLength?, hquote.symm])

/-! ## The next piece of a text -/

/-- A quote is neither blank nor a slash nor a backslash. -/
theorem of_isQuote {c : Char} (h : isQuote c = true) :
    Text.isBlank c = false ∧ c ≠ '/' ∧ c ≠ '\\' := by
  rw [isQuote_iff] at h
  refine ⟨?_, ?_, ?_⟩
  · rw [Bool.eq_false_iff, ne_eq, isBlank_iff]; omega
  · rintro rfl; rcases h with h | h <;> exact absurd h (by decide)
  · rintro rfl; rcases h with h | h <;> exact absurd h (by decide)

/-- A digit is neither blank nor a slash nor a quote. -/
theorem of_isDigit {c : Char} (h : c.isDigit = true) :
    Text.isBlank c = false ∧ c ≠ '/' ∧ isQuote c = false := by
  rw [isDigit_iff] at h
  refine ⟨?_, ?_, ?_⟩
  · rw [Bool.eq_false_iff, ne_eq, isBlank_iff]; omega
  · rintro rfl; exact absurd h (by decide)
  · rw [Bool.eq_false_iff, ne_eq, isQuote_iff]; omega

/-- What a word starts with is neither blank nor a slash, a quote or a digit. -/
theorem of_isWordStart {c : Char} (h : isWordStart c = true) :
    Text.isBlank c = false ∧ c ≠ '/' ∧ isQuote c = false ∧ c.isDigit = false := by
  rw [isWordStart_iff] at h
  refine ⟨?_, ?_, ?_, ?_⟩
  · rw [Bool.eq_false_iff, ne_eq, isBlank_iff]; omega
  · rintro rfl; exact absurd h (by decide)
  · rw [Bool.eq_false_iff, ne_eq, isQuote_iff]; omega
  · rw [Bool.eq_false_iff, ne_eq, isDigit_iff]; omega

/-- `operatorText?` knows exactly the two characters that are among the `operators`. -/
theorem operatorText?_eq_some_iff {c d : Char} {carried : String} :
    operatorText? c d = some carried ↔ ([c, d], carried) ∈ operators := by
  unfold operatorText? operators
  split <;> simp_all [eq_comm]

/-- `takeWhile` ends where the class does. -/
theorem takeWhile_append {p : Char → Bool} {tail rest : List Char} (htail : ∀ d ∈ tail, p d = true)
    (hrest : ∀ d ∈ rest.head?, p d = false) : (tail ++ rest).takeWhile p = tail := by
  rw [List.takeWhile_append_of_pos htail]
  cases rest with
  | nil => simp
  | cons d rest => simp [hrest d rfl]

/-- `takeWhile` divides a text into its longest start within a class and a rest that does not start
in it. -/
theorem exists_takeWhile (p : Char → Bool) (text : List Char) :
    ∃ tail rest, text = tail ++ rest ∧ text.takeWhile p = tail ∧ (∀ d ∈ tail, p d = true) ∧
      ∀ d ∈ rest.head?, p d = false := by
  refine ⟨text.takeWhile p, text.dropWhile p, by simp, rfl, ?_, ?_⟩
  · exact fun d hd => List.all_eq_true.mp List.all_takeWhile d hd
  · intro d hd
    have h := List.head?_dropWhile_not p text
    rw [Option.mem_def.mp hd] at h
    exact h

/-- `firstPiece?` cuts off the stretch that `Scans` at the start of the text. -/
theorem firstPiece?_eq_of_scans {kind : Option TokenKind} {c : Char} {tail rest : List Char}
    (h : Scans kind (c :: tail) rest) :
    Lexer.firstPiece? c (tail ++ rest) = some (kind, tail.length) := by
  have hslash : Text.isBlank '/' = false := by decide
  cases h with
  | blank hc => simp [Lexer.firstPiece?, hc]
  | lineComment hbody hrest =>
    rename_i body
    have htake : (body ++ rest).takeWhile (· ≠ '\n') = body :=
      takeWhile_append (fun d hd => by simpa using ne_of_mem_of_not_mem hd hbody)
        (fun d hd => by simpa using hrest d hd)
    simp only [Lexer.firstPiece?, hslash, List.cons_append, List.head?_cons]
    rw [List.takeWhile_cons_of_pos (by decide), htake]
    simp
  | blockComment hbody =>
    rename_i body
    have hlength : Lexer.commentLength (body ++ '*' :: '/' :: rest) = body.length + 2 := by
      simpa [commentEnd] using commentLength_closed rest hbody
    simp [Lexer.firstPiece?, hslash, hlength, commentEnd]
    omega
  | openComment hbody =>
    rename_i body
    simp [Lexer.firstPiece?, hslash, commentLength_open hbody]
    omega
  | string hquote hbody =>
    rename_i body
    obtain ⟨hblank, hne, hback⟩ := of_isQuote hquote
    have hlength := stringLength?_enclosed rest hback hbody
    simp [Lexer.firstPiece?, hblank, hne, hquote, hlength]
  | number hc htail hrest =>
    obtain ⟨hblank, hne, hquote⟩ := of_isDigit hc
    simp [Lexer.firstPiece?, hblank, hne, hquote, hc, takeWhile_append htail hrest]
  | keyword hc htail hrest hword =>
    obtain ⟨hblank, hne, hquote, hdigit⟩ := of_isWordStart hc
    have hkind : Lexer.wordKind (c :: tail) = .keyword :=
      if_pos (List.contains_iff_mem.mpr hword)
    simp [Lexer.firstPiece?, hblank, hne, hquote, hdigit, hc, takeWhile_append htail hrest, hkind]
  | identifier hc htail hrest hword =>
    obtain ⟨hblank, hne, hquote, hdigit⟩ := of_isWordStart hc
    have hkind : Lexer.wordKind (c :: tail) = .identifier :=
      if_neg fun h => hword (List.contains_iff_mem.mp h)
    simp [Lexer.firstPiece?, hblank, hne, hquote, hdigit, hc, takeWhile_append htail hrest, hkind]
  | operator hmem =>
    rename_i d carried
    have htext := operatorText?_eq_some_iff.mpr hmem
    -- The six operators start with `=`, `!`, `<`, `>`, `&` and `|`, which no rule before theirs
    -- takes.
    have hclass : Text.isBlank c = false ∧ c ≠ '/' ∧ isQuote c = false ∧ c.isDigit = false ∧
        isWordStart c = false := by
      simp only [operators, List.mem_cons, Prod.mk.injEq, List.cons.injEq, List.not_mem_nil,
        or_false] at hmem
      rcases hmem with h | h | h | h | h | h <;> rw [h.1.1] <;> decide
    obtain ⟨hblank, hne, hquote, hdigit, hstart⟩ := hclass
    simp [Lexer.firstPiece?, hblank, hne, hquote, hdigit, hstart, htext]
  | symbol hblank hquote hdigit hstart hcomment hoperator =>
    -- A symbol is what all rules before it refuse, the one for operators last.
    have htext : rest.head?.bind (operatorText? c) = none := by
      rw [Option.bind_eq_none_iff]
      intro d hd
      rw [Option.eq_none_iff_forall_ne_some]
      exact fun carried hcarried =>
        hoperator ⟨d, hd, carried, operatorText?_eq_some_iff.mp hcarried⟩
    have hline : ¬ (c = '/' ∧ rest.head? = some '/') := fun h => hcomment ⟨h.1, .inl h.2⟩
    have hblock : ¬ (c = '/' ∧ rest.head? = some '*') := fun h => hcomment ⟨h.1, .inr h.2⟩
    simp only [Lexer.firstPiece?, List.nil_append, hblank, hline, hblock, hquote, hdigit, hstart,
      htext]
    simp

/-- A comment up to the end of the line stands behind two slashes. -/
theorem exists_lineComment {text : List Char} (h : text.head? = some '/') :
    ∃ tail rest, text = tail ++ rest ∧ tail.length = (text.takeWhile (· ≠ '\n')).length ∧
      Scans none ('/' :: tail) rest := by
  obtain ⟨text, rfl⟩ := List.head?_eq_some_iff.mp h
  obtain ⟨body, rest, rfl, htake, hbody, hrest⟩ := exists_takeWhile (· ≠ '\n') text
  refine ⟨'/' :: body, rest, rfl, ?_, .lineComment (fun hmem => ?_) (fun d hd => ?_)⟩
  · rw [List.takeWhile_cons_of_pos (by decide), htake]
  · simpa using hbody '\n' hmem
  · simpa using hrest d hd

/-- A comment up to the next closing signs stands behind a slash and an asterisk. -/
theorem exists_blockComment {text : List Char} (h : text.head? = some '*') :
    ∃ tail rest, text = tail ++ rest ∧ tail.length = 1 + Lexer.commentLength (text.drop 1) ∧
      Scans none ('/' :: tail) rest := by
  obtain ⟨inner, rfl⟩ := List.head?_eq_some_iff.mp h
  rw [List.drop_succ_cons, List.drop_zero]
  by_cases hclosed : commentEnd <:+: inner
  · obtain ⟨body, rest, rfl, hbody⟩ := exists_commentEnd hclosed
    refine ⟨'*' :: (body ++ commentEnd), rest, by simp, ?_, .blockComment hbody⟩
    rw [commentLength_closed rest hbody, List.length_cons, List.length_append]
    simp only [commentEnd, List.length_cons, List.length_nil]
    omega
  · refine ⟨'*' :: inner, [], by simp, ?_, .openComment hclosed⟩
    rw [commentLength_open hclosed, List.length_cons]
    omega

/-- The rest of a word stands behind its first character. -/
theorem exists_word {c : Char} (text : List Char) (hc : isWordStart c = true) :
    ∃ tail rest, text = tail ++ rest ∧ text.takeWhile isWordChar = tail ∧
      Scans (some (Lexer.wordKind (c :: tail))) (c :: tail) rest := by
  obtain ⟨tail, rest, rfl, htake, htail, hrest⟩ := exists_takeWhile isWordChar text
  refine ⟨tail, rest, rfl, htake, ?_⟩
  unfold Lexer.wordKind
  split
  · next hword => exact .keyword hc htail hrest (List.contains_iff_mem.mp hword)
  · next hword =>
    exact .identifier hc htail hrest fun hmem => hword (List.contains_iff_mem.mpr hmem)

/-- What `firstPiece?` cuts off `Scans` at the start of the text. -/
theorem exists_scans_of_firstPiece? {c : Char} {text : List Char} {kind : Option TokenKind}
    {length : Nat} (h : Lexer.firstPiece? c text = some (kind, length)) :
    ∃ tail rest, text = tail ++ rest ∧ tail.length = length ∧ Scans kind (c :: tail) rest := by
  unfold Lexer.firstPiece? at h
  split_ifs at h with hblank hline hblock hquote hdigit hstart
  · cases h
    exact ⟨[], text, rfl, rfl, .blank hblank⟩
  · cases h
    obtain ⟨rfl, hhead⟩ := hline
    exact exists_lineComment hhead
  · cases h
    obtain ⟨rfl, hhead⟩ := hblock
    exact exists_blockComment hhead
  · obtain ⟨n, hn, hpair⟩ := Option.map_eq_some_iff.mp h
    cases hpair
    obtain ⟨body, rest, rfl, hbody, rfl⟩ := exists_enclosed_of_stringLength? hn
    exact ⟨body ++ [c], rest, by simp, by simp, .string hquote hbody⟩
  · cases h
    obtain ⟨tail, rest, rfl, htake, htail, hrest⟩ := exists_takeWhile isNumberChar text
    exact ⟨tail, rest, rfl, by rw [htake], .number hdigit htail hrest⟩
  · cases h
    -- Keywords and identifiers share a branch and differ in the kind that it gives them.
    obtain ⟨tail, rest, rfl, htake, hscans⟩ := exists_word text hstart
    exact ⟨tail, rest, rfl, by rw [htake], by rw [htake]; exact hscans⟩
  · rw [Bool.not_eq_true] at hblank hquote hdigit hstart
    split at h
    · next carried htext =>
      cases h
      obtain ⟨d, hhead, hcarried⟩ := Option.bind_eq_some_iff.mp htext
      obtain ⟨rest, rfl⟩ := List.head?_eq_some_iff.mp hhead
      exact ⟨[d], rest, rfl, rfl, .operator (operatorText?_eq_some_iff.mp hcarried)⟩
    · next htext =>
      cases h
      refine ⟨[], text, rfl, rfl, .symbol hblank hquote hdigit hstart ?_ ?_⟩
      · rintro ⟨hc, hhead | hhead⟩
        · exact hline ⟨hc, hhead⟩
        · exact hblock ⟨hc, hhead⟩
      · rintro ⟨d, hd, carried, hmem⟩
        rw [Option.mem_def.mp hd, Option.bind_some, operatorText?_eq_some_iff.mpr hmem] at htext
        simp at htext

/-- `firstPiece?` cuts nothing off exactly where a string starts that is never closed. -/
theorem firstPiece?_eq_none_iff {c : Char} {text : List Char} :
    Lexer.firstPiece? c text = none ↔ isQuote c = true ∧ Unclosed c text := by
  constructor
  · intro h
    -- Only the branch for strings can answer that there is no piece.
    have hquote : isQuote c = true := by
      by_contra hquote
      simp only [Lexer.firstPiece?, hquote, if_false] at h
      split_ifs at h
      split at h <;> simp at h
    obtain ⟨hblank, hne, hback⟩ := of_isQuote hquote
    simp only [Lexer.firstPiece?, hblank, hne, hquote, false_and, if_false, if_true,
      Option.map_eq_none_iff, Bool.false_eq_true] at h
    exact ⟨hquote, (stringLength?_eq_none_iff hback).mp h⟩
  · rintro ⟨hquote, hopen⟩
    obtain ⟨hblank, hne, hback⟩ := of_isQuote hquote
    have hnone := (stringLength?_eq_none_iff hback).mpr hopen
    simp [Lexer.firstPiece?, hblank, hne, hquote, hnone]

end NeutronLang.Lexicon
