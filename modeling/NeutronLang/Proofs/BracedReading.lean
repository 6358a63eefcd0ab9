import NeutronLang.Proofs.Braces
import NeutronLang.Proofs.Spelling

/-!
# Reading by its braces

Whatever the reader of statements does is `Braced`, from any tokens among which braces are symbols.
This is kept by everything that readers are put together with, so each reader has a lemma here that
is little more than its definition read aloud. Rules read balanced phrases or fail with nothing on
the record; where an attempt fails, recovery gives up all that it has read.
-/

namespace NeutronLang

open Grammar

/-- Tokens with the text of a brace are of the kind `symbol`, as they are where a lexer has read
them. -/
def BracesAreSymbols (tokens : List Token) : Prop :=
  ∀ token ∈ tokens, token.lexeme ∈ ["\x7b", "\x7d"] → token.kind = .symbol

instance (tokens : List Token) : Decidable (BracesAreSymbols tokens) :=
  inferInstanceAs (Decidable (∀ token ∈ tokens, _))

/-- `BracesAreSymbols` holds of the tokens of a text: braces spell no token of another kind. -/
theorem BracesAreSymbols.of_tokenize {text : List Char} {tokens : List Token}
    (h : tokenize text = .ok tokens) : BracesAreSymbols tokens := by
  intro token htoken hbrace
  have hspelled : Lexicon.spells token.kind token.lexeme = true :=
    Lexicon.spelled_of_tokenize h token htoken
  have hkinds : ∀ kind, ∀ brace ∈ ["\x7b", "\x7d"], Lexicon.spells kind brace = true →
      kind = .symbol := by
    intro kind
    cases kind <;> decide
  exact hkinds _ _ hbrace hspelled

namespace Balanced

variable {token : Token}

/-- `Balanced` holds of a token with another text than that of a brace. -/
theorem of_lexeme (h : token.lexeme ∉ ["\x7b", "\x7d"]) : Balanced [token] := by
  simp only [List.mem_cons, List.not_mem_nil, or_false, not_or] at h
  exact single (by simp [isSymbol, h.1]) (by simp [isSymbol, h.2])

/-- `Balanced` holds of a token of another kind than symbols. -/
theorem of_kind (h : token.kind ≠ .symbol) : Balanced [token] :=
  single (by simp [isSymbol, h]) (by simp [isSymbol, h])

/-- `Balanced` holds of a name. -/
theorem of_isIdentifier (h : token.isIdentifier = true) : Balanced [token] :=
  of_kind (by rw [beq_iff_eq.mp h]; decide)

/-- `Balanced` holds of a reserved word. -/
theorem of_isKeyword (h : token.isKeyword = true) : Balanced [token] :=
  of_kind (by rw [beq_iff_eq.mp h]; decide)

end Balanced

/-- A token with the text of a brace is that symbol. -/
theorem BracesAreSymbols.isSymbol_eq {tokens : List Token} (h : BracesAreSymbols tokens)
    {token : Token} (htoken : token ∈ tokens) {lexeme : String} (hlexeme : token.lexeme = lexeme)
    (hbrace : lexeme ∈ ["\x7b", "\x7d"]) : isSymbol lexeme token = true := by
  subst hlexeme
  simp [isSymbol, h token htoken hbrace]

namespace Grammar

variable {tokens : List Token} {tree : Node}

/-! ## Expressions -/

/-- `Separated` phrases are balanced if each of them is. -/
theorem Separated.balanced {phrases : List (List Token)} (h : Separated phrases tokens)
    (hphrases : ∀ phrase ∈ phrases, Balanced phrase) : Balanced tokens := by
  induction h with
  | nil => exact .nil
  | single => exact hphrases _ (List.mem_singleton_self _)
  | cons hcomma _ ih =>
    obtain ⟨hphrase, hrest⟩ := List.forall_mem_cons.mp hphrases
    have hcomma : Balanced [_] := .of_lexeme (by rw [hcomma]; decide)
    exact hphrase.append (hcomma.append (ih hrest))

/-- The tokens of `Separated` phrases are among the tokens that they are put together to. -/
theorem Separated.subset {phrases : List (List Token)} (h : Separated phrases tokens) :
    ∀ phrase ∈ phrases, ∀ token ∈ phrase, token ∈ tokens := by
  induction h with
  | nil => simp
  | single => simp
  | cons _ _ ih =>
    refine List.forall_mem_cons.mpr ⟨fun token htoken => List.mem_append_left _ htoken, ?_⟩
    exact fun phrase hphrase token htoken =>
      List.mem_append_right _ (List.mem_cons_of_mem _ (ih phrase hphrase token htoken))

/-- The tokens of an expression, as `Derives` gives them, are balanced. -/
theorem Derives.balanced {level : Nat} (h : Derives level tokens tree)
    (hsymbols : BracesAreSymbols tokens) : Balanced tokens := by
  have hparenthesised {opening closing : Token} {inner : List Token}
      (hopens : opening.lexeme ∉ ["\x7b", "\x7d"]) (hcloses : closing.lexeme ∉ ["\x7b", "\x7d"])
      (hinner : Balanced inner) : Balanced (opening :: (inner ++ [closing])) :=
    (Balanced.of_lexeme hopens).append (hinner.append (.of_lexeme hcloses))
  induction h with
  | loosen _ _ _ ih => exact ih hsymbols
  | @binary _ operator _ _ _ _ hprecedence _ _ ihleft ihright =>
    obtain ⟨hleft, hright⟩ := List.forall_mem_append.mp hsymbols
    have hoperator : operator.lexeme ∉ ["\x7b", "\x7d"] := by
      intro hmem
      have hall : ∀ lexeme ∈ ["\x7b", "\x7d"], precedence? lexeme = none := by decide
      rw [hall _ hmem] at hprecedence
      cases hprecedence
    exact (ihleft hleft).append ((Balanced.of_lexeme hoperator).append
      (ihright (List.forall_mem_cons.mp hright).2))
  | @unary sign _ _ hsign _ ih =>
    have hsign : sign.lexeme ∉ ["\x7b", "\x7d"] := by
      intro hmem
      have hall : ∀ lexeme ∈ ["\x7b", "\x7d"], prefixOperators.contains lexeme = false := by decide
      rw [hall _ hmem] at hsign
      cases hsign
    exact (Balanced.of_lexeme hsign).append (ih (List.forall_mem_cons.mp hsymbols).2)
  | literal hliteral =>
    refine .of_kind ?_
    rcases of_literal? hliteral with hkind | hkind | ⟨hkind, -⟩ <;> (rw [hkind]; decide)
  | parenthesised hopens hcloses _ ih =>
    simp only [isSymbol, Bool.and_eq_true, beq_iff_eq] at hopens
    refine hparenthesised (by rw [hopens.2]; decide) (by rw [hcloses]; decide) (ih ?_)
    exact (List.forall_mem_append.mp (List.forall_mem_cons.mp hsymbols).2).1
  | array hopens hcloses _ hseparated ih =>
    simp only [isSymbol, Bool.and_eq_true, beq_iff_eq] at hopens
    have hinner := (List.forall_mem_append.mp (List.forall_mem_cons.mp hsymbols).2).1
    refine hparenthesised (by rw [hopens.2]; decide) (by rw [hcloses]; decide)
      (hseparated.balanced (List.forall_mem_map.mpr fun element helement => ih element helement ?_))
    exact fun token htoken =>
      hinner token (hseparated.subset _ (List.mem_map_of_mem helement) token htoken)
  | object hopens hcloses hparts _ hseparated ih =>
    obtain ⟨hopening, hrest⟩ := List.forall_mem_cons.mp hsymbols
    obtain ⟨hinner, hclosing⟩ := List.forall_mem_append.mp hrest
    -- the braces of objects are the only ones in expressions
    refine .braced hopens (hsymbols.isSymbol_eq (by simp) hcloses (by decide))
      (hseparated.balanced (List.forall_mem_map.mpr fun parts hmem => ?_))
    obtain ⟨hkey, hcolon⟩ := hparts parts hmem
    have hkey : Balanced [parts.key] := .of_kind (by rw [hkey]; decide)
    have hcolon : Balanced [parts.colon] := .of_lexeme (by rw [hcolon]; decide)
    refine hkey.append (hcolon.append (ih parts hmem fun token htoken => hinner token ?_))
    exact hseparated.subset _ (List.mem_map_of_mem hmem) token
      (List.mem_cons_of_mem _ (List.mem_cons_of_mem _ htoken))
  | name hname =>
    simp only [isOperandName, Bool.or_eq_true, Bool.and_eq_true] at hname
    rcases hname with hname | hname
    · exact .of_isIdentifier hname
    · exact .of_isKeyword hname.1
  | call hopens hcloses _ _ hseparated ih iharguments =>
    obtain ⟨hcallee, hrest⟩ := List.forall_mem_append.mp hsymbols
    have hinner := (List.forall_mem_append.mp (List.forall_mem_cons.mp hrest).2).1
    refine (ih hcallee).append (hparenthesised (by rw [hopens]; decide) (by rw [hcloses]; decide)
      (hseparated.balanced (List.forall_mem_map.mpr fun argument hmem => ?_)))
    exact iharguments argument hmem fun token htoken =>
      hinner token (hseparated.subset _ (List.mem_map_of_mem hmem) token htoken)
  | member hdot hname _ ih =>
    have hdot : Balanced [_] := .of_lexeme (by rw [hdot]; decide)
    exact (ih (List.forall_mem_append.mp hsymbols).1).append
      (hdot.append (.of_isIdentifier hname))

end Grammar

/-! ## Rules -/

/-- A rule reads `Balanced` tokens wherever it succeeds. -/
def Rule.KeepsBraces {α : Type} (rule : Rule α) : Prop := ∀ start x stop,
  BracesAreSymbols start.tokens → rule start = .ok (x, stop) →
    ∃ read, start.Reads read stop ∧ Balanced read

namespace Rule

variable {α β : Type}

/-- `>>=` keeps braces if both of its rules do. -/
theorem KeepsBraces.bind {rule : Rule α} {next : α → Rule β} (h : rule.KeepsBraces)
    (hnext : ∀ x, (next x).KeepsBraces) : (rule >>= next).KeepsBraces := by
  intro start y stop hsymbols hrun
  obtain ⟨x, middle, hfirst, hrest⟩ := bind_eq_ok_iff.mp hrun
  obtain ⟨read, hread, hbalanced⟩ := h start x middle hsymbols hfirst
  obtain ⟨more, hmore, hbalanced'⟩ := hnext x middle y stop (hread.tokens_eq ▸ hsymbols) hrest
  exact ⟨_, hread.trans hmore, hbalanced.append hbalanced'⟩

/-- A rule that reads nothing keeps braces. -/
theorem keepsBraces_of_stays {rule : Rule α}
    (h : ∀ start x stop, rule start = .ok (x, stop) → stop = start) : rule.KeepsBraces := by
  intro start x stop _ hrun
  rw [h start x stop hrun]
  exact ⟨[], .refl start, .nil⟩

/-- `pure` keeps braces. -/
theorem keepsBraces_pure (x : α) : (pure x : Rule α).KeepsBraces :=
  keepsBraces_of_stays fun _ _ _ h => (pure_eq_ok_iff.mp h).2

/-- `get` keeps braces. -/
theorem keepsBraces_get : (get : Rule Cursor).KeepsBraces :=
  keepsBraces_of_stays fun _ _ _ h => by cases h; rfl

/-- `sees` keeps braces. -/
theorem keepsBraces_sees (lexeme : String) : KeepsBraces (sees lexeme : Rule Bool) :=
  keepsBraces_of_stays fun _ _ _ h => (sees_eq_ok_iff.mp h).2

/-- `missing` keeps braces, since it never succeeds. -/
theorem keepsBraces_missing (wanted : Wanted) : (missing wanted : Rule α).KeepsBraces :=
  keepsBraces_of_stays fun _ _ _ h => by cases h

/-- `accept` keeps braces if it takes no brace. -/
theorem keepsBraces_accept {wanted : Token → Bool}
    (h : ∀ token, wanted token = true → Balanced [token]) :
    KeepsBraces (accept wanted : Rule (Option Token)) := by
  intro start token? stop _ hrun
  rcases accept_eq_ok hrun with ⟨token, -, hwanted, hread⟩ | ⟨-, -, rfl⟩
  · exact ⟨[token], hread, h token hwanted⟩
  · exact ⟨[], .refl _, .nil⟩

/-- `acceptText` keeps braces if its text is not that of a brace. -/
theorem keepsBraces_acceptText {lexeme : String} (h : lexeme ∉ ["\x7b", "\x7d"]) :
    KeepsBraces (acceptText lexeme : Rule (Option Token)) :=
  keepsBraces_accept fun _ hwanted => .of_lexeme (beq_iff_eq.mp hwanted ▸ h)

/-- `expect` keeps braces if its text is not that of a brace. -/
theorem keepsBraces_expect {lexeme : String} (wanted : Wanted) (h : lexeme ∉ ["\x7b", "\x7d"]) :
    (expect lexeme wanted).KeepsBraces := by
  refine (keepsBraces_acceptText h).bind fun token? => ?_
  cases token? with
  | none => exact keepsBraces_missing wanted
  | some token => exact keepsBraces_pure token

/-- `name` keeps braces. -/
theorem keepsBraces_name (wanted : Wanted) : (name wanted).KeepsBraces := by
  refine KeepsBraces.bind ?_ fun token => keepsBraces_pure token.node
  refine (keepsBraces_accept fun _ => Balanced.of_isIdentifier).bind fun token? => ?_
  cases token? with
  | none => exact keepsBraces_missing wanted
  | some token => exact keepsBraces_pure token

end Rule

namespace Grammar

open Rule

/-- `expression` keeps braces. -/
theorem keepsBraces_expression : expression.KeepsBraces := by
  intro start tree stop hsymbols hrun
  obtain ⟨read, hread, hderives⟩ := expression_sound hrun
  exact ⟨read, hread, hderives.balanced (hread.forall_tokens hsymbols).2⟩

/-- `expressionOrAssignment` keeps braces. -/
theorem keepsBraces_expressionOrAssignment : expressionOrAssignment.KeepsBraces := by
  refine keepsBraces_expression.bind fun tree => ?_
  split
  · refine (keepsBraces_acceptText (by decide)).bind fun equals? => ?_
    cases equals? with
    | none => exact keepsBraces_pure _
    | some equals => exact keepsBraces_expression.bind fun value => keepsBraces_pure _
  · exact keepsBraces_pure _

/-- `binding` keeps braces. -/
theorem keepsBraces_binding (keyword : Token) : (binding keyword).KeepsBraces := by
  have htype : KeepsBraces (accept isTypeName : Rule (Option Token)) :=
    keepsBraces_accept fun token hwanted =>
      .of_isKeyword (Bool.and_eq_true_iff.mp hwanted).1
  have hinitial : initialValue.KeepsBraces := by
    refine (keepsBraces_acceptText (by decide)).bind fun equals? => ?_
    cases equals? with
    | none => exact keepsBraces_pure _
    | some equals => exact keepsBraces_expression
  exact htype.bind fun type => (keepsBraces_name _).bind fun name =>
    hinitial.bind fun init => keepsBraces_pure _

/-- `parameters` keep braces. -/
theorem keepsBraces_parameters (bound : Nat) : (parameters bound).KeepsBraces := by
  have hparameter : parameter.KeepsBraces :=
    (keepsBraces_accept fun _ => Balanced.of_isIdentifier).bind fun token => keepsBraces_pure _
  have hmore (bound : Nat) : (moreParameters bound).KeepsBraces := by
    induction bound with
    | zero => exact keepsBraces_pure []
    | succ bound ih =>
      refine (keepsBraces_acceptText (by decide)).bind fun comma? => ?_
      cases comma? with
      | none => exact keepsBraces_pure []
      | some comma => exact hparameter.bind fun first => ih.bind fun more => keepsBraces_pure _
  refine (keepsBraces_sees _).bind fun seen => ?_
  cases seen with
  | true => exact keepsBraces_pure []
  | false => exact hparameter.bind fun first => (hmore bound).bind fun more => keepsBraces_pure _

/-- `classBodyAhead` keeps braces: the opening brace of a class is left where it is. -/
theorem keepsBraces_classBodyAhead : classBodyAhead.KeepsBraces := by
  refine (keepsBraces_sees _).bind fun seen => ?_
  cases seen with
  | true => exact keepsBraces_pure ()
  | false => exact keepsBraces_missing _

/-- `optionalClause` keeps braces if its clause does. -/
theorem keepsBraces_optionalClause {clause : Rule Node} (h : clause.KeepsBraces) (close : String) :
    (optionalClause close clause).KeepsBraces := by
  refine (keepsBraces_sees _).bind fun seen => ?_
  cases seen with
  | true => exact keepsBraces_pure _
  | false => exact h

/-- `loopInit` keeps braces. -/
theorem keepsBraces_loopInit : loopInit.KeepsBraces := by
  refine (keepsBraces_acceptText (by decide)).bind fun keyword? => ?_
  cases keyword? with
  | none => exact keepsBraces_expressionOrAssignment
  | some keyword => exact (keepsBraces_binding keyword).bind fun found => keepsBraces_pure _

/-- `returnStatement` keeps braces. -/
theorem keepsBraces_returnStatement (start : Cursor) : (returnStatement start).KeepsBraces := by
  refine keepsBraces_get.bind fun place => ?_
  have hrest (argument : Node) : KeepsBraces (do
      let _ ← Rule.acceptText ";"
      return .returnStatement (start.spanTo (← get)) argument : Rule Node) :=
    (keepsBraces_acceptText (by decide)).bind fun _ =>
      keepsBraces_get.bind fun stop => keepsBraces_pure _
  dsimp only
  split
  · exact (keepsBraces_pure _).bind hrest
  · exact keepsBraces_expression.bind hrest

end Grammar

/-! ## Readers and attempts -/

/-- From no more tokens than the bound, a reader keeps account of braces: what it reads is `Braced`
with its events. -/
def Recovering.KeepsBraces {α : Type} (bound : Nat) (reader : Recovering α) : Prop :=
  ∀ start, start.ahead.length ≤ bound → BracesAreSymbols start.tokens →
    reader.Follows start fun _ stop events => Braced start stop events

/-- An attempt keeps account of braces (`Braced`) up to where it ends or, if it fails, up to
somewhere before that. -/
def BracedOutcome {α : Type} (start : Cursor) :
    Except Failure (α × Cursor) → List Event → Prop
  | .ok (_, stop), events => Braced start stop events
  | .error failure, events =>
    ∃ middle read, Braced start middle events ∧ middle.Reads read failure.cursor

/-- From no more tokens than the bound, an attempt keeps account of braces, as `BracedOutcome`
says. -/
def Attempt.KeepsBraces {α : Type} (bound : Nat) (attempt : Attempt α) : Prop :=
  ∀ start, start.ahead.length ≤ bound → BracesAreSymbols start.tokens →
    attempt.Follows start (BracedOutcome start)

/-- `Braced` holds where nothing is read and there is nothing on the record. -/
theorem Braced.nil (start : Cursor) : Braced start start [] := .phrase (.refl start) .nil

namespace Attempt

variable {α β : Type} {bound : Nat}

/-- `>>=` keeps account of braces if both of its attempts do. -/
theorem KeepsBraces.bind {attempt : Attempt α} {next : α → Attempt β}
    (h : attempt.KeepsBraces bound) (hnext : ∀ x, (next x).KeepsBraces bound) :
    (attempt >>= next).KeepsBraces bound := by
  intro start hbound hsymbols
  refine .bind ?_
  have hfirst := h start hbound hsymbols
  unfold Follows at hfirst ⊢
  generalize (attempt start).run = outcome at hfirst ⊢
  obtain ⟨value, events⟩ := outcome
  cases value with
  | error failure => exact hfirst
  | ok answer =>
    obtain ⟨x, place⟩ := answer
    have hbraced : Braced start place events := hfirst
    -- where the second attempt fails, what the first has read stays on the account
    obtain ⟨read, hread⟩ := hbraced.exists_reads
    have hrest := hnext x place (length_ahead_le hread hbound) (hread.tokens_eq ▸ hsymbols)
    show BracedOutcome start (next x place).run.value (events ++ (next x place).run.events)
    unfold Follows at hrest
    generalize (next x place).run = outcome at hrest ⊢
    obtain ⟨value, more⟩ := outcome
    cases value with
    | ok answer => exact hbraced.append hrest
    | error failure =>
      obtain ⟨middle, read, hmore, hread⟩ := hrest
      exact ⟨middle, read, hbraced.append hmore, hread⟩

/-- `pure` keeps account of braces. -/
theorem keepsBraces_pure (x : α) : (pure x : Attempt α).KeepsBraces bound :=
  fun start _ _ => .pure (.nil start)

/-- A rule that keeps braces and advances keeps account of them as part of an attempt. -/
theorem keepsBraces_rule {rule : Rule α} (h : rule.KeepsBraces) (hadvances : rule.Advances) :
    (liftM rule : Attempt α).KeepsBraces bound := by
  intro start _ hsymbols
  show BracedOutcome start (rule start) []
  cases hrun : rule start with
  | ok answer =>
    obtain ⟨read, hread, hbalanced⟩ := h start _ _ hsymbols hrun
    exact .phrase hread hbalanced
  | error failure =>
    have hreaches := hadvances start
    rw [hrun] at hreaches
    cases hreaches with
    | error hread _ => exact ⟨start, _, .nil start, hread⟩

/-- A reader that keeps account of braces does so as part of an attempt. -/
theorem keepsBraces_reader {reader : Recovering α} (h : reader.KeepsBraces bound) :
    (liftM reader : Attempt α).KeepsBraces bound := h

end Attempt

namespace Grammar

open Rule Attempt

variable {lineEnd : Int → Int} {bound count : Nat} {keyword : Token} {body : Recovering Body}

/-- `terminate` keeps account of braces. -/
theorem keepsBraces_terminate (after : Clause) (stop : Int) :
    (terminate lineEnd after stop).KeepsBraces bound := by
  intro start _ _
  refine .get (.acceptText (fun _ => ?_) fun token place hlexeme hread => ?_)
  · exact .record (.pure (.note (fun _ => rfl) rfl fun _ _ => by simp))
  · have hsemicolon : Braced start place [] := .phrase hread (.of_lexeme (by rw [hlexeme]; decide))
    exact .record (.pure (hsemicolon.append (.note (fun _ => rfl) rfl fun _ _ => by simp)))

/-- `declaration` keeps account of braces. -/
theorem keepsBraces_declaration : (declaration lineEnd keyword).KeepsBraces bound :=
  (keepsBraces_rule (keepsBraces_binding keyword) (advances_binding keyword)).bind fun _ =>
    (keepsBraces_reader (keepsBraces_terminate _ _)).bind fun _ => Attempt.keepsBraces_pure _

/-- `expect` keeps account of braces in an attempt if its text is not that of a brace. -/
theorem keepsBraces_expectText {lexeme : String} (wanted : Wanted)
    (h : lexeme ∉ ["\x7b", "\x7d"]) :
    (liftM (expect lexeme wanted) : Attempt Token).KeepsBraces bound :=
  keepsBraces_rule (keepsBraces_expect wanted h) (advances_require _ _)

/-- `functionStatement` keeps account of braces if its body does. -/
theorem keepsBraces_functionStatement (h : body.KeepsBraces bound) :
    (functionStatement count body keyword).KeepsBraces bound :=
  (keepsBraces_rule (keepsBraces_name _) (advances_name _)).bind fun _ =>
    (keepsBraces_expectText _ (by decide)).bind fun _ =>
      (keepsBraces_rule (keepsBraces_parameters count) (advances_parameters count)).bind fun _ =>
        (keepsBraces_expectText _ (by decide)).bind fun _ =>
          (keepsBraces_reader h).bind fun _ => Attempt.keepsBraces_pure _

/-- `classStatement` keeps account of braces if its body does. -/
theorem keepsBraces_classStatement (h : body.KeepsBraces bound) :
    (classStatement body keyword).KeepsBraces bound :=
  (keepsBraces_rule (keepsBraces_name _) (advances_name _)).bind fun _ =>
    (keepsBraces_rule keepsBraces_classBodyAhead advances_classBodyAhead).bind fun _ =>
      (keepsBraces_reader h).bind fun _ => Attempt.keepsBraces_pure _

/-- `whileStatement` keeps account of braces if its body does. -/
theorem keepsBraces_whileStatement (h : body.KeepsBraces bound) :
    (whileStatement body keyword).KeepsBraces bound :=
  (keepsBraces_expectText _ (by decide)).bind fun _ =>
    (keepsBraces_rule keepsBraces_expression advances_expression).bind fun _ =>
      (keepsBraces_expectText _ (by decide)).bind fun _ =>
        (keepsBraces_reader h).bind fun _ => Attempt.keepsBraces_pure _

/-- `forStatement` keeps account of braces if its body does. -/
theorem keepsBraces_forStatement (h : body.KeepsBraces bound) :
    (forStatement body keyword).KeepsBraces bound := by
  have hclause {clause : Rule Node} (close : String) (hclause : clause.KeepsBraces)
      (hadvances : clause.Advances) :
      (liftM (optionalClause close clause) : Attempt Node).KeepsBraces bound :=
    keepsBraces_rule (keepsBraces_optionalClause hclause close)
      (advances_optionalClause hadvances close)
  exact (keepsBraces_expectText _ (by decide)).bind fun _ =>
    (hclause _ keepsBraces_loopInit advances_loopInit).bind fun _ =>
      (keepsBraces_expectText _ (by decide)).bind fun _ =>
        (hclause _ keepsBraces_expression advances_expression).bind fun _ =>
          (keepsBraces_expectText _ (by decide)).bind fun _ =>
            (hclause _ keepsBraces_expressionOrAssignment advances_expressionOrAssignment).bind
              fun _ => (keepsBraces_expectText _ (by decide)).bind fun _ =>
                (keepsBraces_reader h).bind fun _ => Attempt.keepsBraces_pure _

/-- `conditional` keeps account of braces if its body and what follows it do. -/
theorem keepsBraces_conditional {alternate : Attempt Node}
    (halternate : alternate.KeepsBraces bound) (h : body.KeepsBraces bound) :
    (conditional alternate body keyword).KeepsBraces bound :=
  (keepsBraces_expectText _ (by decide)).bind fun _ =>
    (keepsBraces_rule keepsBraces_expression advances_expression).bind fun _ =>
      (keepsBraces_expectText _ (by decide)).bind fun _ =>
        (keepsBraces_reader h).bind fun _ => halternate.bind fun _ => Attempt.keepsBraces_pure _

/-- `alternate` keeps account of braces if the bodies do. -/
theorem keepsBraces_alternate (h : body.KeepsBraces bound) :
    (alternate body count).KeepsBraces bound := by
  have hword {lexeme : String} (hlexeme : lexeme ∉ ["\x7b", "\x7d"]) :
      Attempt.KeepsBraces bound (Rule.acceptText lexeme : Attempt (Option Token)) :=
    keepsBraces_rule (keepsBraces_acceptText hlexeme) (advances_accept _)
  have helse := hword (show "else" ∉ ["\x7b", "\x7d"] by decide)
  have hif := hword (show "if" ∉ ["\x7b", "\x7d"] by decide)
  have helif := hword (show "elif" ∉ ["\x7b", "\x7d"] by decide)
  induction count with
  | zero => exact Attempt.keepsBraces_pure _
  | succ count ih =>
    refine helse.bind fun word? => ?_
    cases word? with
    | some word =>
      refine hif.bind fun keyword? => ?_
      cases keyword? with
      | some keyword => exact keepsBraces_conditional ih h
      | none => exact (keepsBraces_reader h).bind fun _ => Attempt.keepsBraces_pure _
    | none =>
      refine helif.bind fun keyword? => ?_
      cases keyword? with
      | some keyword => exact keepsBraces_conditional ih h
      | none => exact Attempt.keepsBraces_pure _

/-- `expressionStatement` keeps account of braces. -/
theorem keepsBraces_expressionStatement : (expressionStatement lineEnd).KeepsBraces bound := by
  refine (keepsBraces_rule keepsBraces_expressionOrAssignment
    advances_expressionOrAssignment).bind fun tree => ?_
  split <;> exact (keepsBraces_reader (keepsBraces_terminate _ _)).bind fun _ =>
    Attempt.keepsBraces_pure _

/-- `keywordStatement?` keeps account of braces if the bodies do. -/
theorem keepsBraces_keywordStatement? (h : body.KeepsBraces bound) {start : Cursor}
    {rest : Attempt Node} (hrest : keywordStatement? lineEnd count body start keyword = some rest) :
    rest.KeepsBraces bound := by
  unfold keywordStatement? at hrest
  split at hrest
  · split at hrest <;> cases hrest
    · exact keepsBraces_declaration
    · exact keepsBraces_conditional (keepsBraces_alternate h) h
    · exact keepsBraces_whileStatement h
    · exact keepsBraces_forStatement h
    · exact keepsBraces_functionStatement h
    · exact keepsBraces_classStatement h
    · exact keepsBraces_rule (keepsBraces_returnStatement start) (advances_returnStatement start)
  · cases hrest

/-! ## Statements and bodies -/

/-- `statements` keep account of braces if each statement does. -/
theorem keepsBraces_statements {statement : Recovering (Option Node)}
    (h : statement.KeepsBraces bound) (closing : Option String) (count : Nat) :
    (statements closing statement count).KeepsBraces bound := by
  induction count with
  | zero => exact fun start _ _ => .nil start
  | succ count ih =>
    intro start hbound hsymbols
    unfold Recovering.Follows
    rw [statements_succ]
    split
    · exact .nil start
    · have hfirst := h start hbound hsymbols
      obtain ⟨read, hread⟩ := hfirst.exists_reads
      exact hfirst.append (ih _ (length_ahead_le hread hbound) (hread.tokens_eq ▸ hsymbols))

/-- `body` keeps account of braces if its statements do, and if these end where lists of them
can. -/
theorem keepsBraces_body {statement : Recovering (Option Node)} (h : statement.KeepsBraces bound)
    (hcourse : StatementCourses lineEnd bound statement) :
    (Grammar.body statement bound).KeepsBraces bound := by
  intro start hbound hsymbols
  refine .get (.acceptText (fun _ => .bind (.get (.pure ?_))) ?_)
  · rw [List.append_nil]
    exact h start hbound hsymbols
  · intro opening inner hopens hopening
    have hinner := length_ahead_le hopening hbound
    obtain ⟨hlater, hopening'⟩ := hopening.forall_tokens hsymbols
    have hlist := keepsBraces_statements h (some "\x7d") bound inner hinner hlater
    refine .bind (.get (.acceptText (fun hnone => ?_) fun closing stop hcloses hclosing => ?_))
    · -- a list that no closing brace ends goes on to the end of the tokens
      have hend := (statements_course hcourse (some "\x7d") hinner hinner).ahead_eq_nil hnone
      exact .record (.pure (.unclosed hopening hlist hend))
    · obtain ⟨read, hread⟩ := hlist.exists_reads
      obtain ⟨-, hclosing'⟩ := hclosing.forall_tokens (hread.forall_tokens hlater).1
      refine .record (.pure (.closed ?_ hopening hlist ?_ hclosing))
      · exact BracesAreSymbols.isSymbol_eq hopening' (List.mem_singleton_self _) hopens (by decide)
      · exact BracesAreSymbols.isSymbol_eq hclosing' (List.mem_singleton_self _) hcloses (by decide)

/-- `completed` keeps account of braces: a statement that is read, or the failure of its attempt, is
put on the record. -/
theorem braced_completed {start place : Cursor} {rest : Attempt Node} {read : List Token}
    (hread : start.Reads read place) (hbalanced : Balanced read)
    (h : rest.Follows place (BracedOutcome place)) :
    Attempt.Follows (rest >>= completed start) place fun outcome events =>
      BracedOutcome start outcome (.began start.index :: events) := by
  have hbegan : Braced start start [.began start.index] :=
    .note (fun _ => rfl) rfl fun _ _ => by simp
  have hphrase := hbegan.append (.phrase hread hbalanced)
  refine .bind ?_
  unfold Attempt.Follows at h ⊢
  generalize (rest place).run = outcome at h ⊢
  obtain ⟨value, events⟩ := outcome
  cases value with
  | ok outcome =>
    obtain ⟨node, stop⟩ := outcome
    exact hphrase.append (.append h (.note (fun _ => rfl) rfl fun _ _ => by simp))
  | error failure =>
    obtain ⟨middle, more, hmore, hfailed⟩ := h
    exact ⟨middle, more, hphrase.append hmore, hfailed⟩

/-- `attempt` keeps account of braces if its body does. -/
theorem keepsBraces_attempt (h : body.KeepsBraces bound) :
    (attempt lineEnd bound body).KeepsBraces (bound + 1) := by
  intro start hbound hsymbols
  obtain ⟨behind, ahead⟩ := start
  cases ahead with
  | nil => exact .nil _
  | cons token ahead =>
    have hread : Cursor.Reads ⟨behind, token :: ahead⟩ [token] ⟨token :: behind, ahead⟩ :=
      ⟨rfl, rfl⟩
    refine Attempt.Follows.get (Attempt.Follows.record ?_)
    cases hrest : keywordStatement? lineEnd bound body ⟨behind, token :: ahead⟩ token with
    | some rest =>
      -- a token that selects a reader is a word, and no brace
      have hkeyword : Balanced [token] := by
        unfold keywordStatement? at hrest
        split at hrest
        · next hkeyword => exact .of_isKeyword hkeyword
        · cases hrest
      refine .skip hread (braced_completed hread hkeyword ?_)
      exact keepsBraces_keywordStatement? h hrest _ (Nat.le_of_succ_le_succ hbound)
        (hread.forall_tokens hsymbols).1
    | none =>
      dsimp only
      split
      · exact braced_completed (.refl _) .nil (keepsBraces_expressionStatement _ hbound hsymbols)
      · -- the token is given up together with all up to the boundary, be it a brace or not
        obtain ⟨more, hmore⟩ := exists_reads_synchronize ⟨token :: behind, ahead⟩
        exact .givenUp (.note (fun _ => rfl) rfl fun _ _ => by simp) (hread.trans hmore) rfl

/-- `recover` gives up all that an attempt has read, and keeps account of the braces in that. -/
theorem keepsBraces_recover {attempt : Attempt (Option Node)} (h : attempt.KeepsBraces bound)
    (hcourse : ∀ start, start.ahead.length ≤ bound →
      attempt.Follows start (LeadsToStatement lineEnd start)) :
    Recovering.KeepsBraces bound attempt.recover := by
  intro start hbound hsymbols
  have hbraced := h start hbound hsymbols
  have hleads := hcourse start hbound
  unfold Attempt.Follows at hbraced hleads
  unfold Recovering.Follows Attempt.recover
  generalize (attempt start).run = outcome at hbraced hleads ⊢
  obtain ⟨value, events⟩ := outcome
  cases value with
  | ok answer => exact hbraced
  | error failure =>
    obtain ⟨middle, read, hmiddle, hfailed⟩ := hbraced
    obtain ⟨_, -, hcourse⟩ := hleads
    obtain ⟨more, hmore⟩ := exists_reads_synchronize failure.cursor
    dsimp only
    rw [hcourse.resumeAfter_eq]
    exact .givenUp hmiddle (hfailed.trans hmore) rfl

/-- `statementWithin` keeps account of braces. -/
theorem keepsBraces_statementWithin (lineEnd : Int → Int) (bound : Nat) :
    (statementWithin lineEnd bound).KeepsBraces bound := by
  induction bound with
  | zero => exact fun start _ _ => .nil start
  | succ bound ih =>
    have hcourse := statementWithin_course lineEnd bound
    exact keepsBraces_recover (keepsBraces_attempt (keepsBraces_body ih hcourse))
      fun start hbound => attempt_course (body_course hcourse) hbound

/-- `statementsOf` keeps account of all braces of a document, however broken it is. -/
theorem statementsOf_braced (text : List Char) {tokens : List Token}
    (hsymbols : BracesAreSymbols tokens) :
    Braced (Cursor.ofTokens tokens) ⟨tokens.reverse, []⟩ (statementsOf text tokens).events := by
  have hbraced := keepsBraces_statements
    (keepsBraces_statementWithin (Text.lineEnd text) tokens.length) none tokens.length
    (Cursor.ofTokens tokens) (Nat.le_refl _) hsymbols
  rw [← (statementsOf_course text tokens).1]
  exact hbraced

/-! ## Documents -/

/-- Where the bodies of a document end that are closed: where `ClosesByCount` says, on the condition
that `exact` makes. -/
structure ClosesBodies (tokens : List Token) (events : List Event) : Prop where
  /-- At the brace that counting gives if, and only if, the braces inside are balanced that recovery
  gives up or that belong to bodies there. -/
  exact : ∀ first last, .closed first last ∈ events →
    (ClosesByCount tokens first last ↔ Balanced (accounted events tokens first last))
  /-- A body ends at the brace that counting gives where each statement that is given up inside
  takes as many braces with it as close one another. -/
  recovered : ∀ first last, .closed first last ∈ events →
    (∀ event ∈ events, ∀ start stop, event.givenUp? = some (start, stop) → first < start →
      stop ≤ last → Balanced (stretch tokens start stop)) → ClosesByCount tokens first last

/-- Bodies end by the braces that recovery leaves (`ClosesBodies`), however broken the statements
are. -/
theorem ofTokens_closesBodies (text : List Char) {tokens : List Token}
    (h : BracesAreSymbols tokens) : ClosesBodies tokens (Reading.ofTokens text tokens).events where
  exact _ _ hclosed := (statementsOf_braced text h).closesByCount_iff hclosed
  recovered _ _ hclosed hgivenUp :=
    (statementsOf_braced text h).closesByCount_of_balanced hclosed hgivenUp

/-- A statement in the body of a function is given up, and takes no brace with it. -/
theorem ofTokens_closesBodies_value :
    let text := "fun f() \x7b x = ; y = 1; \x7d".toList
    let tokens : List Token := [⟨.keyword, "fun", 0, 3⟩, ⟨.identifier, "f", 4, 5⟩,
      ⟨.symbol, "(", 5, 6⟩, ⟨.symbol, ")", 6, 7⟩, ⟨.symbol, "\x7b", 8, 9⟩,
      ⟨.identifier, "x", 10, 11⟩, ⟨.symbol, "=", 12, 13⟩, ⟨.symbol, ";", 14, 15⟩,
      ⟨.identifier, "y", 16, 17⟩, ⟨.symbol, "=", 18, 19⟩, ⟨.number, "1", 20, 21⟩,
      ⟨.symbol, ";", 21, 22⟩, ⟨.symbol, "\x7d", 23, 24⟩]
    tokenize text = .ok tokens ∧ BracesAreSymbols tokens ∧
      ClosesBodies tokens (Reading.ofTokens text tokens).events ∧
      (Reading.ofTokens text tokens).errors.map (·.fault.code) = ["P001"] ∧
      ClosesByCount tokens 4 12 := by
  intro text tokens
  have htokens : tokenize text = .ok tokens := by decide +kernel
  have hsymbols := BracesAreSymbols.of_tokenize htokens
  have hcloses := ofTokens_closesBodies text hsymbols
  have hclosed : Event.closed 4 12 ∈ (Reading.ofTokens text tokens).events :=
    by decide +kernel
  exact ⟨htokens, hsymbols, hcloses, by decide,
    (hcloses.exact 4 12 hclosed).mpr (by decide +kernel)⟩

-- A body without its statement skips the brace that would close the one around it, which then goes
-- on to a later brace.
example :
    let text := "fun f() \x7b if (a) \x7d y = 1; \x7b \x7d".toList
    let tokens : List Token := [⟨.keyword, "fun", 0, 3⟩, ⟨.identifier, "f", 4, 5⟩,
      ⟨.symbol, "(", 5, 6⟩, ⟨.symbol, ")", 6, 7⟩, ⟨.symbol, "\x7b", 8, 9⟩,
      ⟨.keyword, "if", 10, 12⟩, ⟨.symbol, "(", 13, 14⟩, ⟨.identifier, "a", 14, 15⟩,
      ⟨.symbol, ")", 15, 16⟩, ⟨.symbol, "\x7d", 17, 18⟩, ⟨.identifier, "y", 19, 20⟩,
      ⟨.symbol, "=", 21, 22⟩, ⟨.number, "1", 23, 24⟩, ⟨.symbol, ";", 24, 25⟩,
      ⟨.symbol, "\x7b", 26, 27⟩, ⟨.symbol, "\x7d", 28, 29⟩]
    Balanced tokens ∧ Event.closed 4 15 ∈ (Reading.ofTokens text tokens).events ∧
      ¬ ClosesByCount tokens 4 15 ∧ ClosesByCount tokens 4 9 := by decide +kernel

/-- A statement is given up behind a brace that it has opened, so the body around it ends at the
brace that would have closed that one. The braces are balanced, but the body does not end at its
own. -/
theorem closed_at_other_brace :
    let text := "fun f() \x7b x = \x7b ; \x7d y = 1; \x7d".toList
    let tokens : List Token := [⟨.keyword, "fun", 0, 3⟩, ⟨.identifier, "f", 4, 5⟩,
      ⟨.symbol, "(", 5, 6⟩, ⟨.symbol, ")", 6, 7⟩, ⟨.symbol, "\x7b", 8, 9⟩,
      ⟨.identifier, "x", 10, 11⟩, ⟨.symbol, "=", 12, 13⟩, ⟨.symbol, "\x7b", 14, 15⟩,
      ⟨.symbol, ";", 16, 17⟩, ⟨.symbol, "\x7d", 18, 19⟩, ⟨.identifier, "y", 20, 21⟩,
      ⟨.symbol, "=", 22, 23⟩, ⟨.number, "1", 24, 25⟩, ⟨.symbol, ";", 25, 26⟩,
      ⟨.symbol, "\x7d", 27, 28⟩]
    tokenize text = .ok tokens ∧ Balanced tokens ∧
      Event.closed 4 9 ∈ (Reading.ofTokens text tokens).events ∧
      ¬ ClosesByCount tokens 4 9 ∧ ClosesByCount tokens 4 14 ∧
      (Reading.ofTokens text tokens).statements = [
        .functionDeclaration (.between 0 19) (.identifier (.between 4 5) "f") []
          (.block (.between 8 19) []),
        .assignment (.between 20 26) "=" (.identifier (.between 20 21) "y")
          (.literal (.between 24 25) (.ofNumeral "1") "1" "number")] := by
  intro text tokens
  have hclosed : Event.closed 4 9 ∈ (Reading.ofTokens text tokens).events :=
    by decide +kernel
  exact ⟨by decide +kernel, by decide, hclosed, by decide, by decide, rfl⟩

end Grammar

end NeutronLang
