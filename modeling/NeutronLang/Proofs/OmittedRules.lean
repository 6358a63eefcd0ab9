import NeutronLang.Proofs.OmittedTokens

/-!
# Rules on tokens with a semicolon left out

A rule that does not come to a token does the same without it: it gives the same answer, or fails in
the same way, at the place that corresponds. Of a rule that crosses the token nothing is said, with
one exception: the phrases that a semicolon ends are read up to it, and they are read up to the same
place without it, if no expression goes on with the token after it.

`Rule.Overlooks` is kept by everything that rules are put together with, so each rule has a lemma
here that is little more than its definition read aloud. What needs an argument is the phrase right
before the semicolon: it is read because it is a phrase, whatever its reader tries in vain.
-/

namespace NeutronLang

open Grammar

/-- A token of a document that is to be left out: the one at `place`. No expression or assignment
goes on with the token after it, and that token is no semicolon. -/
structure Omission where
  /-- Where the lines of the document end. -/
  lineEnd : Int → Int
  tokens : List Token
  place : Nat
  next : ∀ token ∈ tokens[place + 1]?,
    continuesExpression token = false ∧ token.lexeme ≠ "=" ∧ token.lexeme ≠ ";"
  spelled : ∀ token ∈ tokens, Lexicon.Spelled token
  nonneg : ∀ token ∈ tokens, 0 ≤ token.start ∧ 0 ≤ token.stop

/-- The outcome of a rule at the place that corresponds (`Cursor.without`). -/
def Failure.outcomeWithout {α : Type} (place : Nat) :
    Except Failure (α × Cursor) → Except Failure (α × Cursor)
  | .ok (x, stop) => .ok (x, stop.without place)
  | .error failure => .error (failure.without place)

/-- A rule advances, and from places that are `Cursor.Clear` it does the same without the semicolon,
unless it crosses it (`Cursor.Crosses`). -/
structure Rule.Overlooks {α : Type} (omission : Omission) (rule : Rule α) : Prop where
  advances : rule.Advances
  same : ∀ start, start.tokens = omission.tokens → start.Clear omission.place →
    start.Crosses omission.place (endOf (rule start)) ∨
      rule (start.without omission.place) = Failure.outcomeWithout omission.place (rule start)

namespace Rule

variable {α β : Type} {omission : Omission} {start stop : Cursor}

/-- What `Reaches` a place is reached by reading. -/
theorem Reaches.exists_reads {outcome : Except Failure (α × Cursor)} (h : Reaches start outcome) :
    ∃ read, start.Reads read (endOf outcome) := by
  cases h with
  | ok hread => exact ⟨_, hread⟩
  | error hread => exact ⟨_, hread⟩

/-- A rule that depends on nothing but the next token overlooks the omission. -/
theorem overlooks_of_eq {rule : Rule α} (hadvances : rule.Advances)
    (h : ∀ start : Cursor, start.Clear omission.place → rule (start.without omission.place) =
      Failure.outcomeWithout omission.place (rule start)) : Overlooks omission rule where
  advances := hadvances
  same start _ hclear := .inr (h start hclear)

/-- `>>=` overlooks the omission if both of its rules do. -/
theorem Overlooks.bind {rule : Rule α} {next : α → Rule β} (h : Overlooks omission rule)
    (hnext : ∀ x, Overlooks omission (next x)) : Overlooks omission (rule >>= next) where
  advances := h.advances.bind fun x => (hnext x).advances
  same start htokens hclear := by
    have hreaches := h.advances start
    have hsame := h.same start htokens hclear
    show start.Crosses _ (endOf (rule start >>= fun outcome => next outcome.1 outcome.2)) ∨
      (rule (start.without omission.place) >>= fun outcome => next outcome.1 outcome.2) =
        Failure.outcomeWithout omission.place
          (rule start >>= fun outcome => next outcome.1 outcome.2)
    generalize rule start = outcome at hreaches hsame ⊢
    cases hreaches with
    | error =>
      refine hsame.imp_right fun hsame => ?_
      rw [hsame]
      rfl
    | @ok read x middle hread =>
      obtain ⟨more, hmore⟩ := ((hnext x).advances middle).exists_reads
      rcases hsame with hcross | hsame
      · exact .inl (hcross.reads hmore)
      -- the second rule has to start at a clear place as well; if not, the token has been crossed
      rcases hclear.of_reads hread with hcross | hclear
      · exact .inl (hcross.reads hmore)
      rw [hsame]
      have hrest := (hnext x).same middle (hread.tokens_eq.trans htokens) hclear
      exact hrest.imp_left fun hcross => hcross.of_reads hread

/-- `pure` overlooks the omission. -/
theorem overlooks_pure (x : α) : Overlooks omission (pure x) :=
  overlooks_of_eq (advances_pure x) fun _ _ => rfl

/-- `sees` overlooks the omission. -/
theorem overlooks_sees (lexeme : String) : Overlooks omission (sees lexeme) := by
  refine overlooks_of_eq (advances_sees lexeme) fun start hclear => ?_
  show Except.ok ((start.without _).sees lexeme, start.without _) = _
  rw [Cursor.sees_without hclear.aside]
  rfl

/-- `next?` overlooks the omission. -/
theorem overlooks_next? : Overlooks omission next? := by
  refine overlooks_of_eq (fun start => .ok (.refl start)) fun start hclear => ?_
  show Except.ok ((start.without _).next?, start.without _) = _
  rw [Cursor.next?_without hclear.aside]
  rfl

/-- `accept` overlooks the omission. -/
theorem overlooks_accept (wanted : Token → Bool) : Overlooks omission (accept wanted) := by
  refine overlooks_of_eq (advances_accept wanted) fun start hclear => ?_
  show Except.ok ((start.without _).accept wanted) = _
  rw [Cursor.accept_without hclear.aside]
  rfl

/-- `skip` advances: whatever is skipped is read. -/
theorem advances_skip : Advances skip := by
  rintro ⟨behind, ahead⟩
  cases ahead with
  | nil => exact .ok (.refl _)
  | cons token ahead => exact .ok (Cursor.reads_append behind [token] ahead)

/-- `skip` overlooks the omission. -/
theorem overlooks_skip : Overlooks omission skip := by
  refine overlooks_of_eq advances_skip fun start hclear => ?_
  show Except.ok ((), (start.without _).advance) = _
  rw [Cursor.advance_without hclear.aside]
  rfl

/-- `unexpected` overlooks the omission. -/
theorem overlooks_unexpected : Overlooks omission (unexpected : Rule α) :=
  overlooks_of_eq advances_unexpected fun _ hclear =>
    congrArg Except.error (Cursor.unexpected_without hclear.aside)

/-- `missing` overlooks the omission. -/
theorem overlooks_missing (wanted : Wanted) : Overlooks omission (missing wanted : Rule α) :=
  overlooks_of_eq (advances_missing wanted) fun _ hclear =>
    congrArg Except.error (Cursor.missing_without hclear.aside wanted)

/-- `require` overlooks the omission. -/
theorem overlooks_require (accepted : Token → Bool) (wanted : Wanted) :
    Overlooks omission (require accepted wanted) := by
  refine (overlooks_accept accepted).bind fun token? => ?_
  cases token? with
  | some token => exact overlooks_pure token
  | none => exact overlooks_missing wanted

/-- `name` overlooks the omission. -/
theorem overlooks_name (wanted : Wanted) : Overlooks omission (name wanted) :=
  (overlooks_require _ wanted).bind fun token => overlooks_pure token.node

/-- `moreItems` overlooks the omission if its item does. -/
theorem overlooks_moreItems {item : Rule α} (h : Overlooks omission item) (bound : Nat) :
    Overlooks omission (moreItems item bound) := by
  induction bound with
  | zero => exact overlooks_pure []
  | succ bound ih =>
    refine (overlooks_accept _).bind fun comma? => ?_
    cases comma? with
    | none => exact overlooks_pure []
    | some comma => exact h.bind fun first => ih.bind fun more => overlooks_pure (first :: more)

/-- `items` overlooks the omission if its item does. -/
theorem overlooks_items {item : Rule α} (h : Overlooks omission item) (bound : Nat)
    (close : String) (wanted : Wanted) : Overlooks omission (items bound item close wanted) := by
  have hitems : Overlooks omission (itemsBefore bound item close) := by
    refine (overlooks_sees close).bind fun seen => ?_
    cases seen with
    | true => exact overlooks_pure []
    | false =>
      exact h.bind fun first => (overlooks_moreItems h bound).bind fun more =>
        overlooks_pure (first :: more)
  exact hitems.bind fun found => (overlooks_require _ wanted).bind fun closing =>
    overlooks_pure (found, closing)

end Rule

namespace Grammar

open Rule

variable {omission : Omission} {expression : Rule Node}

/-! ## Expressions -/

/-- `climb` overlooks the omission if its operands do. -/
theorem overlooks_climb {operand : Rule Node} (h : Overlooks omission operand) (bound : Nat) :
    ∀ least left, Overlooks omission (climb operand bound least left) := by
  induction bound with
  | zero => exact fun _ left => overlooks_pure left
  | succ bound ih =>
    intro least left
    refine (overlooks_accept _).bind fun token? => ?_
    cases token? with
    | none => exact overlooks_pure left
    | some token => exact h.bind fun first => (ih _ first).bind fun right => ih least _

/-- `unary` overlooks the omission if its operand does. -/
theorem overlooks_unary {operand : Rule Node} (h : Overlooks omission operand) (bound : Nat) :
    Overlooks omission (unary operand bound) := by
  induction bound with
  | zero => exact h
  | succ bound ih =>
    refine (overlooks_accept _).bind fun token? => ?_
    cases token? with
    | none => exact h
    | some token => exact ih.bind fun argument => overlooks_pure _

/-- `suffixes` overlooks the omission if its arguments do. -/
theorem overlooks_suffixes {arguments : Rule (List Node × Token)}
    (h : Overlooks omission arguments) (bound : Nat) :
    ∀ owner, Overlooks omission (suffixes arguments bound owner) := by
  induction bound with
  | zero => exact fun owner => overlooks_pure owner
  | succ bound ih =>
    intro owner
    refine (overlooks_accept _).bind fun token? => ?_
    cases token? with
    | none => exact overlooks_pure owner
    | some token =>
      dsimp only
      split
      · exact h.bind fun found => ih _
      · exact (overlooks_name _).bind fun member => ih _

/-- `property` overlooks the omission if its value does. -/
theorem overlooks_property (h : Overlooks omission expression) :
    Overlooks omission (property expression) :=
  (overlooks_require _ _).bind fun _ => (overlooks_require _ _).bind fun _ =>
    h.bind fun _ => overlooks_pure _

/-- `operand` overlooks the omission if the expressions in it do. -/
theorem overlooks_operand (h : Overlooks omission expression) (bound : Nat) :
    Overlooks omission (operand bound expression) := by
  refine overlooks_next?.bind fun token? => ?_
  cases token? with
  | none => exact overlooks_unexpected
  | some token =>
    have hskip {rest : Rule Node} (hrest : Overlooks omission rest) :
        Overlooks omission (skip >>= fun _ => rest) := overlooks_skip.bind fun _ => hrest
    dsimp only
    cases literal? token with
    | some node => exact hskip (overlooks_pure node)
    | none =>
      dsimp only
      split
      · exact hskip (overlooks_suffixes (overlooks_items h bound _ _) bound _)
      split
      · exact hskip (h.bind fun inner => (overlooks_require _ _).bind fun _ =>
          overlooks_pure inner)
      split
      · exact hskip ((overlooks_items h bound _ _).bind fun _ => overlooks_pure _)
      split
      · exact hskip ((overlooks_items (overlooks_property h) bound _ _).bind fun _ =>
          overlooks_pure _)
      · exact overlooks_unexpected

/-- `expressionWithin` overlooks the omission. -/
theorem overlooks_expressionWithin (bound : Nat) :
    Overlooks omission (expressionWithin bound) := by
  induction bound with
  | zero => exact overlooks_unexpected
  | succ bound ih =>
    have hunary := overlooks_unary (overlooks_operand ih bound) (bound + 1)
    exact hunary.bind fun left => overlooks_climb hunary (bound + 1) 1 left

/-- `expression` overlooks the omission. One token fewer may be ahead, but that does not show. -/
theorem overlooks_expression : Overlooks omission Grammar.expression where
  advances := advances_expression
  same start htokens hclear := by
    have hnonneg : ∀ token ∈ (start.without omission.place).tokens,
        0 ≤ token.start ∧ 0 ≤ token.stop := fun token htoken =>
      omission.nonneg token (htokens ▸ Cursor.mem_tokens_of_without htoken)
    rw [← expressionWithin_of_bound hnonneg (Cursor.length_ahead_without_le _ start)]
    exact (overlooks_expressionWithin start.ahead.length).same start htokens hclear

/-- `expressionOrAssignment` overlooks the omission. -/
theorem overlooks_expressionOrAssignment : Overlooks omission expressionOrAssignment := by
  refine overlooks_expression.bind fun tree => ?_
  split
  · refine (overlooks_accept _).bind fun equals? => ?_
    cases equals? with
    | none => exact overlooks_pure _
    | some equals => exact overlooks_expression.bind fun value => overlooks_pure _
  · exact overlooks_pure _

/-! ## Parts of statements -/

/-- `binding` overlooks the omission. -/
theorem overlooks_binding (keyword : Token) : Overlooks omission (binding keyword) := by
  have hinitial : Overlooks omission initialValue := by
    refine (overlooks_accept _).bind fun equals? => ?_
    cases equals? with
    | none => exact overlooks_pure _
    | some equals => exact overlooks_expression
  exact (overlooks_accept _).bind fun type => (overlooks_name _).bind fun name =>
    hinitial.bind fun init => overlooks_pure _

/-- `parameters` overlook the omission. -/
theorem overlooks_parameters (bound : Nat) : Overlooks omission (parameters bound) := by
  have hparameter : Overlooks omission parameter :=
    (overlooks_accept _).bind fun token => overlooks_pure _
  have hmore (bound : Nat) : Overlooks omission (moreParameters bound) := by
    induction bound with
    | zero => exact overlooks_pure []
    | succ bound ih =>
      refine (overlooks_accept _).bind fun comma? => ?_
      cases comma? with
      | none => exact overlooks_pure []
      | some comma => exact hparameter.bind fun first => ih.bind fun more => overlooks_pure _
  refine (overlooks_sees _).bind fun seen => ?_
  cases seen with
  | true => exact overlooks_pure []
  | false => exact hparameter.bind fun first => (hmore bound).bind fun more => overlooks_pure _

/-- `classBodyAhead` overlooks the omission. -/
theorem overlooks_classBodyAhead : Overlooks omission classBodyAhead := by
  refine (overlooks_sees _).bind fun seen => ?_
  cases seen with
  | true => exact overlooks_pure ()
  | false => exact overlooks_missing _

/-- `optionalClause` overlooks the omission if its clause does. -/
theorem overlooks_optionalClause {clause : Rule Node} (h : Overlooks omission clause)
    (close : String) : Overlooks omission (optionalClause close clause) := by
  refine (overlooks_sees _).bind fun seen => ?_
  cases seen with
  | true => exact overlooks_pure _
  | false => exact h

/-- `loopInit` overlooks the omission. -/
theorem overlooks_loopInit : Overlooks omission loopInit := by
  refine (overlooks_accept _).bind fun keyword? => ?_
  cases keyword? with
  | none => exact overlooks_expressionOrAssignment
  | some keyword => exact (overlooks_binding keyword).bind fun found => overlooks_pure _

end Grammar

/-! ## The phrases that a semicolon ends -/

namespace Omission

variable {omission : Omission} {stop : Cursor}

/-- Without the token no expression or assignment goes on at its place, and there is no other
semicolon. -/
theorem next_without (htokens : stop.tokens = omission.tokens)
    (hstop : stop.index = omission.place) :
    (stop.without omission.place).Settled ∧
      ∀ token ∈ (stop.without omission.place).ahead.head?,
        token.lexeme ≠ "=" ∧ token.lexeme ≠ ";" := by
  suffices hnext : ∀ token ∈ (stop.without omission.place).ahead.head?,
      continuesExpression token = false ∧ token.lexeme ≠ "=" ∧ token.lexeme ≠ ";" from
    ⟨fun token htoken => (hnext token htoken).1, fun token htoken => (hnext token htoken).2⟩
  intro token htoken
  refine omission.next token ?_
  rw [Cursor.without_of_le (Nat.le_of_eq hstop), hstop, Nat.sub_self, List.eraseIdx_zero,
    List.head?_tail] at htoken
  rw [← htokens, ← hstop, Cursor.tokens, List.getElem?_append_right (by simp [Cursor.index])]
  simpa [Cursor.index] using htoken

end Omission

/-- A rule for a phrase that is not empty. It does the same without the semicolon, also if that is
what the phrase is read up to, where `Rule.Overlooks` says nothing. -/
structure Rule.Abuts {α : Type} (omission : Omission) (rule : Rule α) : Prop where
  overlooks : rule.Overlooks omission
  nonempty : ∀ start x stop, rule start = .ok (x, stop) → start.index < stop.index
  kept : ∀ start x stop, start.tokens = omission.tokens → rule start = .ok (x, stop) →
    stop.index = omission.place →
    rule (start.without omission.place) = .ok (x, stop.without omission.place)

namespace Grammar

open Rule

variable {omission : Omission} {start stop : Cursor} {read : List Token}

/-- `Abuts` holds of a rule that reads exactly the phrases of a grammar. -/
theorem abuts_of_phrases {α : Type} {rule : Rule α} {derives : List Token → α → Prop}
    (hoverlooks : Overlooks omission rule)
    (hsound : ∀ start x stop, rule start = .ok (x, stop) →
      ∃ first read, start.Reads (first :: read) stop ∧ derives (first :: read) x)
    (htakes : ∀ {start stop read x}, derives read x → (∀ token ∈ read, Lexicon.Spelled token) →
      start.Reads read stop → stop.Settled → (∀ token ∈ stop.ahead.head?, token.lexeme ≠ "=") →
      rule start = .ok (x, stop)) : Abuts omission rule where
  overlooks := hoverlooks
  nonempty start x stop h := by
    obtain ⟨first, read, hread, -⟩ := hsound start x stop h
    exact index_lt_of_reads hread
  kept start x stop htokens h hstop := by
    obtain ⟨first, read, hread, hderives⟩ := hsound start x stop h
    have hspelled := (hread.forall_tokens (htokens ▸ omission.spelled)).2
    obtain ⟨hsettled, hnext⟩ := omission.next_without (hread.tokens_eq.trans htokens) hstop
    exact htakes hderives hspelled (hread.without (Nat.le_of_eq hstop)) hsettled
      fun token htoken => (hnext token htoken).1

/-- `expressionOrAssignment` reads a phrase that is not followed by anything that goes on with
it. -/
theorem DerivesAssignable.takes {tree : Node} (h : DerivesAssignable read tree)
    (hspelled : ∀ token ∈ read, Lexicon.Spelled token) (hread : start.Reads read stop)
    (hsettled : stop.Settled) (hnext : ∀ token ∈ stop.ahead.head?, token.lexeme ≠ "=") :
    expressionOrAssignment start = .ok (tree, stop) := by
  cases h with
  | expression h =>
    exact expressionOrAssignment_of_expression
      (h.takes hspelled _ start stop hread (Nat.le_refl _) hsettled) hnext
  | @assignment equals targetTokens valueTokens span name value htarget hequals hvalue =>
    obtain ⟨middle, hreadTarget, hreadRest⟩ := hread.exists_middle
    obtain ⟨afterEquals, hreadEquals, hreadValue⟩ := hreadRest.exists_after_first
    -- the target ends at the equals sign, which goes on with no expression
    have hmiddle : middle.Settled := settled_of_lexeme hreadRest (by rw [hequals]; decide)
    have htarget : Grammar.expression start = .ok (.identifier span name, middle) :=
      htarget.takes (fun token htoken => hspelled token (List.mem_append_left _ htoken)) _ start
        middle hreadTarget (Nat.le_refl _) hmiddle
    have hvalue : Grammar.expression afterEquals = .ok (value, stop) :=
      hvalue.takes (fun token htoken => hspelled token
        (List.mem_append_right _ (List.mem_cons_of_mem _ htoken))) _ afterEquals stop hreadValue
        (Nat.le_refl _) hsettled
    unfold expressionOrAssignment
    rw [Rule.bind_of_eq_ok htarget]
    dsimp only
    rw [Rule.bind_of_eq_ok (Rule.acceptText_of_eq hequals hreadEquals)]
    dsimp only
    rw [Rule.bind_of_eq_ok hvalue]
    rfl

/-- `binding` reads a declaration that is not followed by anything that goes on with it. -/
theorem DerivesBinding.takes {keyword : Token} {found : Binding}
    (h : DerivesBinding keyword read found) (hspelled : ∀ token ∈ read, Lexicon.Spelled token)
    (hread : start.Reads read stop) (hsettled : stop.Settled)
    (hnext : ∀ token ∈ stop.ahead.head?, token.lexeme ≠ "=") :
    binding keyword start = .ok (found, stop) := by
  obtain @⟨type, name, tokens, init, htype, hname, hinit⟩ := h
  obtain ⟨afterType, hreadType, hreadRest⟩ := hread.exists_middle
  obtain ⟨afterName, hreadName, hreadInit⟩ := hreadRest.exists_after_first
  have htype : (Rule.accept isTypeName : Rule _) start = .ok (type, afterType) := by
    cases type with
    | some token => exact Rule.accept_of_wanted (htype token rfl) hreadType
    | none =>
      obtain rfl := hreadType.eq_of_nil
      refine Rule.accept_of_not_wanted fun token htoken => ?_
      obtain rfl := hreadRest.eq_of_mem_head? htoken
      -- a name is not reserved
      simp_all [isTypeName, Token.isKeyword, Token.isIdentifier]
  have hinit : initialValue afterName = .ok (init, stop) := by
    unfold initialValue
    cases hinit with
    | absent =>
      obtain rfl := hreadInit.eq_of_nil
      rw [Rule.bind_of_eq_ok (Rule.acceptText_of_ne hnext)]
      rfl
    | @value equals tokens tree hequals hvalue =>
      obtain ⟨afterEquals, hreadEquals, hreadValue⟩ := hreadInit.exists_after_first
      rw [Rule.bind_of_eq_ok (Rule.acceptText_of_eq hequals hreadEquals)]
      refine hvalue.takes (fun token htoken => hspelled token ?_) _ afterEquals stop hreadValue
        (Nat.le_refl _) hsettled
      simp [htoken]
  unfold binding
  rw [Rule.bind_of_eq_ok htype,
    Rule.bind_of_eq_ok (Rule.name_eq_ok_iff.mpr ⟨name, hname, rfl, hreadName⟩),
    Rule.bind_of_eq_ok hinit]
  rfl

/-- `Abuts` holds of `expressionOrAssignment`, which may end before the semicolon. -/
theorem abuts_expressionOrAssignment : Abuts omission expressionOrAssignment := by
  refine abuts_of_phrases overlooks_expressionOrAssignment (fun start tree stop h => ?_)
    DerivesAssignable.takes
  obtain ⟨read, hread, hderives⟩ := expressionOrAssignment_sound h
  obtain ⟨first, rest, rfl⟩ := hderives.exists_cons
  exact ⟨first, rest, hread, hderives⟩

/-- `Abuts` holds of `binding`, which may end before the semicolon. -/
theorem abuts_binding (keyword : Token) : Abuts omission (binding keyword) := by
  refine abuts_of_phrases (overlooks_binding keyword) (fun start found stop h => ?_)
    DerivesBinding.takes
  obtain ⟨read, hread, hderives⟩ := binding_sound h
  obtain ⟨first, rest, rfl⟩ := hderives.exists_cons
  exact ⟨first, rest, hread, hderives⟩

end Grammar

end NeutronLang
