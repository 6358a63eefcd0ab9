import NeutronLang.Proofs.Advances
import NeutronLang.Proofs.Words

/-!
# Failures of rules have plain messages

A text is plain if it has no blank character but the space, so that it never breaks a line. All
tokens of a document are plain but its strings (`isPlain_of_tokenize`). A rule fails with a fixed
message, or with the text of a token with which no expression starts; a string is none of these,
since it is an expression by itself. So the messages of all failures are plain.

Only of no tokens does `expressionWithin` fail without a look at the next one, so where a rule reads
expressions from at most a number of tokens, no more may be ahead. That number is part of the
invariant of rules (`Rule.IsPlain`), and an operand hands it down by one.
-/

namespace NeutronLang

/-! ## Plain texts and tokens -/

namespace Text

/-- Whether a text has no blank character but the space. -/
def isPlain (text : String) : Bool := text.toList.all fun c => !isBlank c || c == ' '

/-- `isPlain` holds of two texts one after the other if it does of each. -/
@[simp] theorem isPlain_append (first second : String) :
    isPlain (first ++ second) = (isPlain first && isPlain second) := by
  simp [isPlain]

/-- `isPlain` holds of a text without blank characters. -/
theorem isPlain_of_not_isBlank {text : String} (h : ∀ c ∈ text.toList, isBlank c = false) :
    isPlain text = true :=
  List.all_eq_true.mpr fun c hc => by simp [h c hc]

end Text

open Text Lexicon Rendering

/-- A token is plain if its text is (`Text.isPlain`), and strings may have any text. -/
def Token.IsPlain (token : Token) : Prop := token.kind = .string ∨ isPlain token.lexeme = true

/-- `isPlain` holds of words and numerals, which have no blank characters. -/
theorem isPlain_word {c : Char} {tail : List Char} {text : String} (htext : text.toList = c :: tail)
    (hstart : isWordStart c = true) (htail : ∀ d ∈ tail, isWordChar d = true) :
    isPlain text = true := by
  refine isPlain_of_not_isBlank fun d hd => ?_
  rw [htext] at hd
  have hword : isWordChar d = true := by
    rcases List.mem_cons.mp hd with rfl | hd
    · simp [isWordChar, hstart]
    · exact htail d hd
  refine Bool.eq_false_iff.mpr fun hblank => ?_
  rw [not_isWordChar_of_isBlank hblank] at hword
  cases hword

/-- `isPlain` holds of names. -/
theorem Rendering.IsName.isPlain {name : String} (h : IsName name) : isPlain name = true := by
  obtain ⟨-, c, tail, hname, hstart, htail⟩ := h
  exact isPlain_word hname hstart htail

/-- What `Scans` as a token is plain, unless it is a string. -/
theorem isPlain_of_scans {kind : TokenKind} {body rest : List Char}
    (h : Scans (some kind) body rest) : kind = .string ∨ isPlain (carriedText body) = true := by
  rw [← lexeme_eq_carriedText h]
  cases h with
  | string => exact .inl rfl
  | number hdigit htail _ =>
    refine .inr (isPlain_of_not_isBlank fun d hd => Bool.eq_false_iff.mpr fun hblank => ?_)
    have hnumber := not_isNumberChar_of_isBlank hblank
    simp only [Lexer.lexeme, String.toList_ofList] at hd
    rcases List.mem_cons.mp hd with rfl | hd
    · simp [isNumberChar, hdigit] at hnumber
    · simp [htail d hd] at hnumber
  | keyword hstart htail | identifier hstart htail =>
    exact .inr (isPlain_word String.toList_ofList hstart htail)
  | operator hmem =>
    rename_i c d carried
    have hcarried : ∀ entry ∈ operators, isPlain entry.2 = true := by decide
    rw [Lexer.lexeme, operatorText?_eq_some_iff.mpr hmem]
    exact .inr (hcarried _ hmem)
  | symbol hblank =>
    refine .inr (isPlain_of_not_isBlank fun d hd => ?_)
    simp only [Lexer.lexeme, String.toList_ofList, List.mem_singleton] at hd
    rw [hd]
    exact hblank

/-- The tokens of a text are plain. -/
theorem isPlain_of_tokenize {text : List Char} {tokens : List Token}
    (h : tokenize text = .ok tokens) : ∀ token ∈ tokens, token.IsPlain := by
  refine forall_of_tokenize h fun token body after hscans hlexeme => ?_
  unfold Token.IsPlain
  rw [hlexeme]
  exact isPlain_of_scans hscans

/-- The tokens ahead are plain (`Token.IsPlain`). -/
def Cursor.IsPlain (cursor : Cursor) : Prop := ∀ token ∈ cursor.ahead, token.IsPlain

/-- `Reads` leaves plain tokens ahead. -/
theorem Cursor.IsPlain.of_reads {start stop : Cursor} {read : List Token} (h : start.IsPlain)
    (hread : start.Reads read stop) : stop.IsPlain :=
  fun token htoken => h token (hread.ahead ▸ List.mem_append_right _ htoken)

/-! ## Rules -/

/-- `unexpectedEnd` has a plain message. -/
theorem Fault.isPlain_unexpectedEnd : isPlain unexpectedEnd.message = true := by decide

/-- `unexpectedToken` has a plain message if its text is plain. -/
theorem Fault.isPlain_unexpectedToken {lexeme : String} (h : isPlain lexeme = true) :
    isPlain (unexpectedToken lexeme).message = true := by
  have hbefore : isPlain "Unexpected token '" = true := by decide
  have hafter : isPlain "'" = true := by decide
  show isPlain ("Unexpected token '" ++ lexeme ++ "'") = true
  simp [h, hbefore, hafter]

/-- The failure of a rule has a message that `Text.isPlain`. -/
def Failure.IsPlain (failure : Failure) : Prop := isPlain failure.fault.message = true

/-- A rule advances and, where no more tokens than `bound` are ahead and they are plain, all its
failures are. -/
structure Rule.IsPlain {α : Type} (bound : Nat) (rule : Rule α) : Prop where
  advances : rule.Advances
  failure : ∀ start failure, start.IsPlain → start.ahead.length ≤ bound →
    rule start = .error failure → failure.IsPlain

namespace Rule

variable {α β : Type} {bound : Nat}

/-- A rule that never fails is plain. -/
theorem isPlain_of_ok {rule : Rule α} (h : rule.Advances)
    (hok : ∀ start, ∃ outcome, rule start = .ok outcome) : rule.IsPlain bound where
  advances := h
  failure start failure _ _ herror := by
    obtain ⟨outcome, houtcome⟩ := hok start
    rw [houtcome] at herror
    cases herror

/-- `pure` is plain, since it never fails. -/
theorem isPlain_pure (x : α) : (pure x : Rule α).IsPlain bound :=
  isPlain_of_ok (advances_pure x) fun _ => ⟨_, rfl⟩

/-- `get` is plain, since it never fails. -/
theorem isPlain_get : (get : Rule Cursor).IsPlain bound :=
  isPlain_of_ok advances_get fun _ => ⟨_, rfl⟩

/-- `sees` is plain, since it never fails. -/
theorem isPlain_sees (lexeme : String) : IsPlain bound (sees lexeme : Rule Bool) :=
  isPlain_of_ok (advances_sees lexeme) fun _ => ⟨_, rfl⟩

/-- `accept` is plain, since it never fails. -/
theorem isPlain_accept (wanted : Token → Bool) :
    IsPlain bound (accept wanted : Rule (Option Token)) :=
  isPlain_of_ok (advances_accept wanted) fun _ => ⟨_, rfl⟩

/-- `missing` is plain if it says in plain words what is wanted. -/
theorem isPlain_missing {wanted : Wanted} (h : Text.isPlain wanted.message = true) :
    (missing wanted : Rule α).IsPlain bound where
  advances := advances_missing wanted
  failure start failure _ _ herror := by
    cases herror
    unfold Failure.IsPlain Cursor.missing
    dsimp only
    split <;> exact h

/-- `>>=` is plain if both of its rules are. -/
theorem IsPlain.bind {rule : Rule α} {next : α → Rule β} (h : rule.IsPlain bound)
    (hnext : ∀ x, (next x).IsPlain bound) : (rule >>= next).IsPlain bound where
  advances := h.advances.bind fun x => (hnext x).advances
  failure start failure hstart hbound herror := by
    have hadvances := h.advances start
    have hfailure := h.failure start
    replace herror : (rule start >>= fun found => next found.1 found.2) = .error failure := herror
    generalize rule start = outcome at hadvances hfailure herror
    cases hadvances with
    | error =>
      cases herror
      exact hfailure _ hstart hbound rfl
    | ok hread =>
      have hlength := hread.length_ahead
      exact (hnext _).failure _ failure (hstart.of_reads hread) (by omega) herror

/-- `require` is plain if it says in plain words what is wanted. -/
theorem isPlain_require (accepted : Token → Bool) {wanted : Wanted}
    (h : Text.isPlain wanted.message = true) : (require accepted wanted).IsPlain bound := by
  refine (isPlain_accept accepted).bind fun token? => ?_
  cases token? with
  | some token => exact isPlain_pure token
  | none => exact isPlain_missing h

/-- `name` is plain if it says in plain words what is wanted. -/
theorem isPlain_name {wanted : Wanted} (h : Text.isPlain wanted.message = true) :
    (name wanted).IsPlain bound :=
  (isPlain_require _ h).bind fun token => isPlain_pure token.node

/-- `moreItems` is plain if its item is. -/
theorem isPlain_moreItems {item : Rule α} (h : item.IsPlain bound) (limit : Nat) :
    (moreItems item limit).IsPlain bound := by
  induction limit with
  | zero => exact isPlain_pure []
  | succ limit ih =>
    refine (isPlain_accept _).bind fun comma? => ?_
    cases comma? with
    | none => exact isPlain_pure []
    | some comma => exact h.bind fun first => ih.bind fun more => isPlain_pure (first :: more)

/-- `items` is plain if its item is, and if it says in plain words what closes them. -/
theorem isPlain_items {item : Rule α} (h : item.IsPlain bound) (limit : Nat) (close : String)
    {wanted : Wanted} (hwanted : Text.isPlain wanted.message = true) :
    (items limit item close wanted).IsPlain bound := by
  have hitems : (itemsBefore limit item close).IsPlain bound := by
    refine (isPlain_sees close).bind fun seen => ?_
    cases seen with
    | true => exact isPlain_pure []
    | false =>
      exact h.bind fun first => (isPlain_moreItems h limit).bind fun more =>
        isPlain_pure (first :: more)
  exact hitems.bind fun found => (isPlain_require _ hwanted).bind fun closing =>
    isPlain_pure (found, closing)

/-- `withTokensAhead` is plain if its rule is for each number of tokens ahead. -/
theorem isPlain_withTokensAhead {rule : Nat → Rule α} (h : ∀ limit, (rule limit).IsPlain limit) :
    (Grammar.withTokensAhead rule).IsPlain bound where
  advances := .withTokensAhead fun limit => (h limit).advances
  failure start failure hstart _ herror :=
    (h start.ahead.length).failure start failure hstart (Nat.le_refl _) herror

end Rule

namespace Grammar

open Rule

variable {bound : Nat} {expression : Rule Node}

/-! ## Expressions -/

/-- `climb` is plain if its operands are. -/
theorem isPlain_climb {operand : Rule Node} (h : operand.IsPlain bound) (limit : Nat) :
    ∀ least left, (climb operand limit least left).IsPlain bound := by
  induction limit with
  | zero => exact fun _ left => isPlain_pure left
  | succ limit ih =>
    intro least left
    refine (isPlain_accept _).bind fun token? => ?_
    cases token? with
    | none => exact isPlain_pure left
    | some token => exact h.bind fun first => (ih _ first).bind fun right => ih least _

/-- `unary` is plain if its operand is. -/
theorem isPlain_unary {operand : Rule Node} (h : operand.IsPlain bound) (limit : Nat) :
    (unary operand limit).IsPlain bound := by
  induction limit with
  | zero => exact h
  | succ limit ih =>
    refine (isPlain_accept _).bind fun token? => ?_
    cases token? with
    | none => exact h
    | some token => exact ih.bind fun argument => isPlain_pure _

/-- `suffixes` is plain if its arguments are. -/
theorem isPlain_suffixes {arguments : Rule (List Node × Token)} (h : arguments.IsPlain bound)
    (limit : Nat) : ∀ owner, (suffixes arguments limit owner).IsPlain bound := by
  induction limit with
  | zero => exact fun owner => isPlain_pure owner
  | succ limit ih =>
    intro owner
    refine (isPlain_accept _).bind fun token? => ?_
    cases token? with
    | none => exact isPlain_pure owner
    | some token =>
      dsimp only
      split
      · exact h.bind fun found => ih _
      · exact (isPlain_name (by decide)).bind fun member => ih _

/-- `property` is plain if its value is. -/
theorem isPlain_property (h : expression.IsPlain bound) : (property expression).IsPlain bound :=
  (isPlain_require _ (by decide)).bind fun _ => (isPlain_require _ (by decide)).bind fun _ =>
    h.bind fun _ => isPlain_pure _

/-- `unexpected` is plain where no expression starts, since the next token is no string there. -/
theorem isPlain_unexpected {start : Cursor} (hstart : start.IsPlain)
    (h : ∀ token ∈ start.ahead.head?, literal? token = none) : start.unexpected.IsPlain := by
  unfold Failure.IsPlain Cursor.unexpected Cursor.next?
  cases hahead : start.ahead with
  | nil => exact Fault.isPlain_unexpectedEnd
  | cons token ahead =>
    have hliteral := h token (by rw [hahead]; rfl)
    have hkind : token.kind ≠ .string := fun hkind => by
      unfold literal? at hliteral
      rw [hkind] at hliteral
      cases hliteral
    have htoken := (hstart token (by rw [hahead]; exact List.mem_cons_self)).resolve_left hkind
    exact Fault.isPlain_unexpectedToken htoken

/-- `operand` is plain if the expressions inside are, which have fewer tokens ahead. -/
theorem isPlain_operand (h : expression.IsPlain bound) (limit : Nat) :
    (operand limit expression).IsPlain (bound + 1) where
  advances := advances_operand h.advances limit
  failure start failure hstart hbound herror := by
    cases hahead : start.ahead with
    | nil =>
      rw [operand_of_nil hahead] at herror
      cases herror
      exact isPlain_unexpected hstart (by simp [hahead])
    | cons token ahead =>
      have hread : start.Reads [token] ⟨token :: start.behind, ahead⟩ := ⟨hahead, rfl⟩
      have hnext := hstart.of_reads hread
      have hlength : ahead.length ≤ bound := by
        rw [hahead, List.length_cons] at hbound
        omega
      rw [operand_of_reads hread] at herror
      -- past its first token an operand is put together from plain rules
      have hrest {rule : Rule Node} (hrule : rule.IsPlain bound)
          (hrun : rule ⟨token :: start.behind, ahead⟩ = .error failure) : failure.IsPlain :=
        hrule.failure _ failure hnext hlength hrun
      split at herror
      · cases herror
      · next hliteral =>
        split at herror
        · have hitems : (Rule.items limit expression ")" .callCloseParen).IsPlain bound :=
            isPlain_items h limit _ (by decide)
          exact hrest (isPlain_suffixes hitems limit _) herror
        split at herror
        · refine hrest (h.bind fun inner => ?_) herror
          exact (isPlain_require _ (by decide)).bind fun _ => isPlain_pure inner
        split at herror
        · exact hrest ((isPlain_items h limit _ (by decide)).bind fun _ => isPlain_pure _) herror
        split at herror
        · have hitems : (Rule.items limit (property expression) "\x7d" .objectEnd).IsPlain bound :=
            isPlain_items (isPlain_property h) limit _ (by decide)
          exact hrest (hitems.bind fun _ => isPlain_pure _) herror
        · cases herror
          refine isPlain_unexpected hstart fun first hfirst => ?_
          rw [hread.eq_of_mem_head? hfirst] at hliteral
          exact hliteral

/-- `expressionWithin` is plain where no more tokens are ahead than its bound. -/
theorem isPlain_expressionWithin (bound : Nat) : (expressionWithin bound).IsPlain bound := by
  induction bound with
  | zero =>
    refine ⟨advances_unexpected, fun start failure hstart hbound herror => ?_⟩
    cases herror
    refine isPlain_unexpected hstart fun token htoken => ?_
    rw [List.eq_nil_of_length_eq_zero (Nat.le_zero.mp hbound)] at htoken
    cases htoken
  | succ bound ih =>
    have hunary := isPlain_unary (isPlain_operand ih bound) (bound + 1)
    exact hunary.bind fun left => isPlain_climb hunary (bound + 1) 1 left

/-- `expression` is plain. -/
theorem isPlain_expression : Grammar.expression.IsPlain bound :=
  isPlain_withTokensAhead isPlain_expressionWithin

/-- `expressionOrAssignment` is plain. -/
theorem isPlain_expressionOrAssignment : expressionOrAssignment.IsPlain bound := by
  refine isPlain_expression.bind fun tree => ?_
  split
  · refine (isPlain_accept _).bind fun equals? => ?_
    cases equals? with
    | none => exact isPlain_pure _
    | some equals => exact isPlain_expression.bind fun value => isPlain_pure _
  · exact isPlain_pure _

/-! ## Parts of statements -/

/-- `binding` is plain. -/
theorem isPlain_binding (keyword : Token) : (binding keyword).IsPlain bound := by
  have hinitial : initialValue.IsPlain bound := by
    refine (isPlain_accept _).bind fun equals? => ?_
    cases equals? with
    | none => exact isPlain_pure _
    | some equals => exact isPlain_expression
  exact (isPlain_accept _).bind fun type => (isPlain_name (by decide)).bind fun name =>
    hinitial.bind fun init => isPlain_pure _

/-- `parameters` are plain. -/
theorem isPlain_parameters (limit : Nat) : (parameters limit).IsPlain bound := by
  have hparameter : parameter.IsPlain bound :=
    (isPlain_accept _).bind fun token => isPlain_pure _
  have hmore (limit : Nat) : (moreParameters limit).IsPlain bound := by
    induction limit with
    | zero => exact isPlain_pure []
    | succ limit ih =>
      refine (isPlain_accept _).bind fun comma? => ?_
      cases comma? with
      | none => exact isPlain_pure []
      | some comma => exact hparameter.bind fun first => ih.bind fun more => isPlain_pure _
  refine (isPlain_sees _).bind fun seen => ?_
  cases seen with
  | true => exact isPlain_pure []
  | false => exact hparameter.bind fun first => (hmore limit).bind fun more => isPlain_pure _

/-- `classBodyAhead` is plain. -/
theorem isPlain_classBodyAhead : classBodyAhead.IsPlain bound := by
  refine (isPlain_sees _).bind fun seen => ?_
  cases seen with
  | true => exact isPlain_pure ()
  | false => exact isPlain_missing (by decide)

/-- `optionalClause` is plain if its clause is. -/
theorem isPlain_optionalClause {clause : Rule Node} (h : clause.IsPlain bound) (close : String) :
    (optionalClause close clause).IsPlain bound := by
  refine (isPlain_sees _).bind fun seen => ?_
  cases seen with
  | true => exact isPlain_pure _
  | false => exact h

/-- `loopInit` is plain. -/
theorem isPlain_loopInit : loopInit.IsPlain bound := by
  refine (isPlain_accept _).bind fun keyword? => ?_
  cases keyword? with
  | none => exact isPlain_expressionOrAssignment
  | some keyword => exact (isPlain_binding keyword).bind fun found => isPlain_pure _

/-- `returnStatement` is plain. -/
theorem isPlain_returnStatement (start : Cursor) : (returnStatement start).IsPlain bound := by
  refine isPlain_get.bind fun place => ?_
  have hrest (argument : Node) : IsPlain bound (do
      let _ ← Rule.acceptText ";"
      return .returnStatement (start.spanTo (← get)) argument : Rule Node) :=
    (isPlain_accept _).bind fun _ => isPlain_get.bind fun stop => isPlain_pure _
  dsimp only
  split
  · exact (isPlain_pure _).bind hrest
  · exact isPlain_expression.bind hrest

end Grammar

end NeutronLang
