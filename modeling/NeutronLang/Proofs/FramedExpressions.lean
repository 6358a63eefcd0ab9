import NeutronLang.Proofs.Completeness
import NeutronLang.Proofs.FramedRules

/-!
# Expressions inside a frame

Expressions are read inside a frame as outside. As for the reader itself, each rule takes the rules
below it as parameters, which are only known to do the same inside and outside from no more tokens
than their bounds allow; the recursion is tied together in `expressionWithin_framed`.

At the end of a document the loops of the reader stop, inside since no expression goes on with what
follows the document. So an expression that is read up to the end is the same expression inside.
-/

namespace NeutronLang.Grammar

open Rule

variable {frame : Frame} {start : Cursor} {bound bound' count count' : Nat}

/-- Nothing is next outside the frame at the end of the document. -/
theorem head?_ne_of_end {p : Token → Prop} (hend : start.ahead = []) :
    ∀ token ∈ start.ahead.head?, p token := by
  rw [hend]
  rintro _ ⟨⟩

/-! ## Lists -/

/-- `moreItems` is the same inside a frame, if its item is. -/
theorem moreItems_framed {item item' : Rule Node}
    (hitem : FramedWithin frame frame.IsNode bound bound' item item') (hfits : frame.Fits start)
    (hbounds : frame.Within bound bound' start) (hcounts : frame.Within count count' start) :
    Framed frame frame.AreNodes start (moreItems item count) (moreItems item' count') := by
  induction hcounts using Frame.Within.induct with
  | atEnd _ hend =>
    exact .of_eq_ok (moreItems_of_no_comma _ (head?_ne_of_end hend))
      (moreItems_of_no_comma _ (Frame.ahead_lexeme_ne hend (by decide))) rfl
  | step hcounts hend ih =>
    refine .acceptText (.inl (by decide)) hfits (.pure rfl) ?_
    intro comma middle hread hfits _
    have hbounds := hbounds.of_reads hread
    have hcounts := hcounts.of_reads_token hread
    refine .bind hfits (hitem middle hfits hbounds) ?_
    intro read first first' middle hread hfits hfirst
    have hbounds := hbounds.of_reads hread
    have hcounts := hcounts.of_reads hread
    refine .bind hfits (ih hcounts hfits hbounds) ?_
    intro read more more' middle hread hfits hmore
    refine .pure ?_
    obtain rfl : more' = more.map frame.node := hmore
    obtain rfl : first' = frame.node first := hfirst.eq
    rfl

/-- The answers are a list of trees with the token that closes it, and their counterparts by
`Frame.node` and `Frame.token`. -/
def IsList (frame : Frame) (_ : List Token) (found found' : List Node × Token) : Prop :=
  found'.1 = found.1.map frame.node ∧ found'.2 = frame.token found.2 ∧ frame.Covers found.2.stop

/-- `items` is the same inside a frame, if its item is and no statement starts with what closes
it. -/
theorem items_framed {item item' : Rule Node} (close : String) (wanted : Wanted)
    (hclose : opensStatement close = false)
    (hitem : FramedWithin frame frame.IsNode bound bound' item item') :
    FramedWithin frame (IsList frame) bound bound' (items bound item close wanted)
      (items bound' item' close wanted) := by
  intro start hfits hbounds
  have hbefore : Framed frame frame.AreNodes start (itemsBefore bound item close)
      (itemsBefore bound' item' close) := by
    refine .sees hclose fun seen _ => ?_
    cases seen with
    | true => exact .pure rfl
    | false =>
      refine .bind hfits (hitem start hfits hbounds) ?_
      intro read first first' middle hread hfits hfirst
      have hbounds := hbounds.of_reads hread
      refine .bind hfits (moreItems_framed hitem hfits hbounds hbounds) ?_
      intro read more more' middle hread hfits hmore
      refine .pure ?_
      obtain rfl : more' = more.map frame.node := hmore
      obtain rfl : first' = frame.node first := hfirst.eq
      rfl
  refine .bind hfits hbefore ?_
  intro read found found' middle hread hfits hfound
  refine .bind hfits (framed_expect close wanted hfits) ?_
  rintro _ token _ last hread hfits' ⟨rfl, rfl, -⟩
  exact .pure ⟨hfound, rfl, (hfits.covered_of_reads hread).2⟩

/-! ## Operands -/

/-- `literal?` does not depend on the offsets of a token. -/
theorem literal?_token (frame : Frame) (token : Token) :
    (literal? token = none ∧ literal? (frame.token token) = none) ∨
      ∃ value type, literal? token = some (.literal token.span value token.lexeme type) ∧
        literal? (frame.token token) =
          some (.literal (frame.span token.span) value token.lexeme type) := by
  have hkind : (frame.token token).kind = token.kind := rfl
  unfold literal?
  rw [Frame.token_span, hkind, frame.token_lexeme]
  cases token.kind with
  | keyword =>
    dsimp only
    split <;> first | exact .inr ⟨_, _, rfl, rfl⟩ | exact .inl ⟨rfl, rfl⟩
  | number | string => exact .inr ⟨_, _, rfl, rfl⟩
  | identifier | operator | symbol => exact .inl ⟨rfl, rfl⟩

/-- A literal `Matches` its counterpart. -/
theorem matches_literal {token : Token} {value : LiteralValue} {raw type : String}
    (hstart : frame.Covers token.start) (hstop : frame.Covers token.stop) :
    frame.Matches (.literal token.span value raw type)
      (.literal (frame.span token.span) value raw type) := by
  exact .of_between (by simp [Node.mapSpans]) rfl rfl hstart hstop

/-- `suffixes` is the same inside a frame, if its arguments are. -/
theorem suffixes_framed {arguments arguments' : Rule (List Node × Token)}
    (harguments : FramedWithin frame (IsList frame) bound bound' arguments arguments')
    {operand operand' : Node} (hoperand : frame.Matches operand operand')
    (hfits : frame.Fits start) (hbounds : frame.Within bound bound' start)
    (hcounts : frame.Within count count' start) :
    Framed frame frame.IsNode start (suffixes arguments count operand)
      (suffixes arguments' count' operand') := by
  induction hcounts using Frame.Within.induct generalizing operand operand' with
  | atEnd _ hend =>
    refine .of_eq_ok (suffixes_of_detached (head?_ne_of_end hend))
      (suffixes_of_detached fun token htoken => ?_) hoperand
    -- inside a statement starts here, and none starts with a parenthesis or a dot
    rw [Bool.or_eq_false_iff, beq_eq_false_iff_ne, beq_eq_false_iff_ne]
    exact ⟨Frame.ahead_lexeme_ne hend (by decide) token htoken,
      Frame.ahead_lexeme_ne hend (by decide) token htoken⟩
  | step hcounts hend ih =>
    refine .accept (fun _ => rfl) (absurd · hend) hfits (.pure hoperand) ?_
    intro token middle hread hfits _
    have hbounds := hbounds.of_reads hread
    have hcounts := hcounts.of_reads_token hread
    show Framed frame _ middle (if token.lexeme == "(" then _ else _)
      (if token.lexeme == "(" then _ else _)
    split
    · refine .bind hfits (harguments middle hfits hbounds) ?_
      rintro read ⟨found, close⟩ ⟨_, _⟩ last hread hfits ⟨rfl, rfl, hclose⟩
      refine ih (hcounts.of_reads hread) ?_ hfits (hbounds.of_reads hread)
      refine .of_between ?_ rfl rfl hoperand.start hclose
      simp [Node.mapSpans, hoperand.eq, hoperand.span_node]
    · refine .bind hfits (framed_name .memberName hfits) ?_
      intro read member member' last hread hfits hmember
      refine ih (hcounts.of_reads hread) ?_ hfits (hbounds.of_reads hread)
      refine .of_between ?_ rfl rfl hoperand.start hmember.stop
      simp [Node.mapSpans, hoperand.eq, hoperand.span_node, hmember.eq, hmember.span_node]

/-- `property` is the same inside a frame, if its value is. -/
theorem property_framed {expression expression' : Rule Node}
    (h : FramedWithin frame frame.IsNode bound bound' expression expression') :
    FramedWithin frame frame.IsNode bound bound' (property expression) (property expression') := by
  intro start hfits hbounds
  refine .bind hfits (framed_require .propertyKey (fun _ => rfl) hfits) ?_
  rintro _ key _ middle hread hfits' ⟨rfl, rfl, -⟩
  obtain ⟨hstart, hstop⟩ := hfits.covered_of_reads hread
  have hbounds := hbounds.of_reads hread
  refine .bind hfits' (framed_expect ":" .propertyColon hfits') ?_
  rintro _ colon _ middle hread hfits ⟨rfl, rfl, -⟩
  have hbounds := hbounds.of_reads hread
  refine .bind hfits (h middle hfits hbounds) ?_
  intro read value value' middle hread hfits hvalue
  refine .pure (.of_between ?_ rfl rfl hstart hvalue.stop)
  simp [Node.mapSpans, hvalue.eq, hvalue.span_node]

/-- `arrayRest` is the same inside a frame, if the elements are. -/
theorem arrayRest_framed {expression expression' : Rule Node}
    (h : FramedWithin frame frame.IsNode bound bound' expression expression') {first : Int}
    (hfirst : frame.Covers first) :
    FramedWithin frame frame.IsNode bound bound' (arrayRest bound expression first)
      (arrayRest bound' expression' (first + frame.distance)) := by
  intro start hfits hbounds
  refine .bind hfits (items_framed "]" .arrayEnd (by decide) h start hfits hbounds) ?_
  rintro read ⟨elements, close⟩ ⟨_, _⟩ last hread hfits ⟨rfl, rfl, hclose⟩
  refine .pure (.of_between ?_ rfl rfl hfirst hclose)
  simp [Node.mapSpans]

/-- `objectRest` is the same inside a frame, if the values are. -/
theorem objectRest_framed {expression expression' : Rule Node}
    (h : FramedWithin frame frame.IsNode bound bound' expression expression') {first : Int}
    (hfirst : frame.Covers first) :
    FramedWithin frame frame.IsNode bound bound' (objectRest bound expression first)
      (objectRest bound' expression' (first + frame.distance)) := by
  intro start hfits hbounds
  refine .bind hfits (items_framed "\x7d" .objectEnd (by decide) (property_framed h)
    start hfits hbounds) ?_
  rintro read ⟨properties, close⟩ ⟨_, _⟩ last hread hfits ⟨rfl, rfl, hclose⟩
  refine .pure (.of_between ?_ rfl rfl hfirst hclose)
  simp [Node.mapSpans]

/-- `operand` is the same inside a frame, if the expressions inside it are. -/
theorem operand_framed {expression expression' : Rule Node}
    (h : FramedWithin frame frame.IsNode bound bound' expression expression') :
    FramedWithin frame frame.IsNode (bound + 1) (bound' + 1) (operand bound expression)
      (operand bound' expression') := by
  intro start hfits hbounds
  -- at the end of the document there is no operand outside, and inside only if the frame ends too
  by_cases hend : start.ahead = []
  · refine .of_unexpected (operand_of_nil hend) fun hinside => operand_of_nil ?_
    unfold Frame.cursor
    rw [hend, hinside hend]
    rfl
  · obtain ⟨behind, ahead⟩ := start
    obtain ⟨token, ahead, rfl⟩ := List.exists_cons_of_ne_nil hend
    have hread : Cursor.Reads ⟨behind, token :: ahead⟩ [token] ⟨token :: behind, ahead⟩ :=
      ⟨rfl, rfl⟩
    have hread' : (frame.cursor ⟨behind, token :: ahead⟩).Reads [frame.token token]
      (frame.cursor ⟨token :: behind, ahead⟩) := ⟨rfl, rfl⟩
    obtain ⟨hstart, hstop⟩ := hfits.covered_of_reads hread
    have hfits' := hfits.of_reads hread
    have hbounds' := hbounds.of_reads_token hread
    unfold Framed
    rw [operand_of_reads hread, operand_of_reads hread']
    rcases literal?_token frame token with ⟨hnone, hnone'⟩ | ⟨value, type, hsome, hsome'⟩
    · rw [hnone, hnone']
      dsimp only
      show frame.Outcome _ _ (if isOperandName token then _ else _)
        (if isOperandName token then _ else _)
      split
      · have harguments := items_framed ")" .callCloseParen (by decide) h
        exact .after hread (suffixes_framed harguments (Frame.matches_node hstart hstop) hfits'
          hbounds' hbounds')
      show frame.Outcome _ _ (if isSymbol "(" token then _ else _)
        (if isSymbol "(" token then _ else _)
      split
      · refine .after hread (Framed.bind hfits' (h _ hfits' hbounds') ?_)
        intro read inner inner' middle hread hfits hinner
        refine .bind hfits (framed_expect ")" .expressionCloseParen hfits) ?_
        intro read token token' last hread hfits _
        exact .pure hinner
      show frame.Outcome _ _ (if isSymbol "[" token then _ else _)
        (if isSymbol "[" token then _ else _)
      split
      · exact .after hread (arrayRest_framed h hstart _ hfits' hbounds')
      show frame.Outcome _ _ (if isSymbol "\x7b" token then _ else _)
        (if isSymbol "\x7b" token then _ else _)
      split
      · exact .after hread (objectRest_framed h hstart _ hfits' hbounds')
      · exact Framed.of_unexpected rfl fun _ => rfl
    · rw [hsome, hsome']
      exact .ok hread (matches_literal hstart hstop)

/-! ## Operators -/

/-- `prefixOperators` have no text that a statement can start with. -/
theorem not_prefixOperator {token : Token} (h : opensStatement token.lexeme = true) :
    prefixOperators.contains token.lexeme = false := by
  have hall : ∀ lexeme ∈ prefixOperators, opensStatement lexeme = false := by decide
  rw [Bool.eq_false_iff, ne_eq, List.contains_iff_mem]
  intro hmem
  rw [hall _ hmem] at h
  cases h

/-- `precedence?` knows no text that a statement can start with. -/
theorem precedence?_eq_none {token : Token} (h : opensStatement token.lexeme = true) :
    precedence? token.lexeme = none := by
  have hall : ∀ entry ∈ precedences, opensStatement entry.1 = false := by decide
  rw [Option.eq_none_iff_forall_ne_some]
  intro precedence hprecedence
  obtain ⟨before, after, hentries, -⟩ := List.lookup_eq_some_iff.mp hprecedence
  have hclosed := hall (token.lexeme, precedence) (by rw [hentries]; simp)
  rw [h] at hclosed
  cases hclosed

/-- `unary` is the same inside a frame, if its operand is. -/
theorem unary_framed {operand operand' : Rule Node}
    (h : FramedWithin frame frame.IsNode bound bound' operand operand') (hfits : frame.Fits start)
    (hbounds : frame.Within bound bound' start) (hcounts : frame.Within count count' start) :
    Framed frame frame.IsNode start (unary operand count) (unary operand' count') := by
  induction hcounts using Frame.Within.induct with
  | atEnd _ hend =>
    have hoperand := h _ hfits hbounds
    unfold Framed at hoperand ⊢
    rw [unary_of_no_sign (head?_ne_of_end hend), unary_of_no_sign fun token htoken => ?_]
    · exact hoperand
    · rw [Frame.ahead_cursor_of_end hend] at htoken
      exact not_prefixOperator (frame.opens token htoken).2
  | step hcounts hend ih =>
    refine .accept (fun _ => rfl) (absurd · hend) hfits (h _ hfits hbounds) ?_
    intro sign middle hread hfits' _
    obtain ⟨hstart, hstop⟩ := hfits.covered_of_reads hread
    have hbounds := hbounds.of_reads hread
    have hcounts := hcounts.of_reads_token hread
    refine .bind hfits' (ih hcounts hfits' hbounds) ?_
    intro read argument argument' last hread hfits hargument
    refine .pure (.of_between ?_ rfl rfl hstart hargument.stop)
    simp [Node.mapSpans, hargument.eq, hargument.span_node]

/-- `operation` of trees that match their counterparts matches its own. -/
theorem matches_operation {operator : String} {left left' right right' : Node}
    (hleft : frame.Matches left left') (hright : frame.Matches right right') :
    frame.Matches (operation operator left right) (operation operator left' right') := by
  unfold operation
  cases logicalOperators.contains operator with
  | true =>
    refine .of_between ?_ rfl rfl hleft.start hright.stop
    simp [Node.mapSpans, hleft.eq, hleft.span_node, hright.eq, hright.span_node]
  | false =>
    refine .of_between ?_ rfl rfl hleft.start hright.stop
    simp [Node.mapSpans, hleft.eq, hleft.span_node, hright.eq, hright.span_node]

/-- `climb` is the same inside a frame, if its operands are. -/
theorem climb_framed {operand operand' : Rule Node}
    (h : FramedWithin frame frame.IsNode bound bound' operand operand') {least : Nat}
    {left left' : Node} (hleft : frame.Matches left left') (hfits : frame.Fits start)
    (hbounds : frame.Within bound bound' start) (hcounts : frame.Within count count' start) :
    Framed frame frame.IsNode start (climb operand count least left)
      (climb operand' count' least left') := by
  induction hcounts using Frame.Within.induct generalizing least left left' with
  | atEnd _ hend =>
    refine .of_eq_ok (climb_of_loose (head?_ne_of_end hend))
      (climb_of_loose fun token htoken precedence hprecedence => ?_) hleft
    rw [Frame.ahead_cursor_of_end hend] at htoken
    rw [precedence?_eq_none (frame.opens token htoken).2] at hprecedence
    cases hprecedence
  | step hcounts hend ih =>
    refine .accept (fun _ => rfl) (absurd · hend) hfits (.pure hleft) ?_
    intro operator middle hread hfits _
    have hbounds := hbounds.of_reads hread
    have hcounts := hcounts.of_reads_token hread
    refine .bind hfits (h middle hfits hbounds) ?_
    intro read first first' middle hread hfits hfirst
    have hbounds := hbounds.of_reads hread
    have hcounts := hcounts.of_reads hread
    -- The right operand is climbed from its first one, and the rest from the operation.
    refine .bind hfits (ih hcounts hfirst hfits hbounds) ?_
    intro read right right' middle hread hfits hright
    exact ih (hcounts.of_reads hread) (matches_operation hleft hright) hfits
      (hbounds.of_reads hread)

/-! ## Expressions -/

/-- `expressionWithin` reads nothing at the end. -/
theorem expressionWithin_of_nil (h : start.ahead = []) :
    expressionWithin bound start = (Rule.unexpected : Rule Node) start := by
  obtain ⟨behind, ahead⟩ := start
  obtain rfl : ahead = [] := h
  cases bound <;> rfl

/-- `expressionWithin` is the same inside a frame, whatever the bounds. -/
theorem expressionWithin_framed (bound bound' : Nat) :
    FramedWithin frame frame.IsNode bound bound' (expressionWithin bound)
      (expressionWithin bound') := by
  intro start hfits hbounds
  induction hbounds using Frame.Within.induct with
  | atEnd _ hend =>
    refine .of_unexpected (expressionWithin_of_nil hend) fun hinside =>
      expressionWithin_of_nil ?_
    rw [Frame.ahead_cursor_of_end hend, hinside hend]
  | @step bound bound' start hbounds hend ih =>
    have hinner : FramedWithin frame frame.IsNode bound bound' (expressionWithin bound)
        (expressionWithin bound') := fun _ hfits hbounds => ih hbounds hfits
    have hunary : FramedWithin frame frame.IsNode (bound + 1) (bound' + 1)
        (unary (operand bound (expressionWithin bound)) (bound + 1))
        (unary (operand bound' (expressionWithin bound')) (bound' + 1)) :=
      fun _ hfits hbounds => unary_framed (operand_framed hinner) hfits hbounds hbounds
    refine .bind hfits (hunary start hfits hbounds) ?_
    intro read left left' middle hread hfits hleft
    have hbounds := hbounds.of_reads hread
    exact climb_framed hunary hleft hfits hbounds hbounds

/-- The answers are a tree, for which the tokens `read` are taken, and its counterpart. -/
def IsPhrase (frame : Frame) (read : List Token) (node node' : Node) : Prop :=
  read ≠ [] ∧ frame.Matches node node'

/-- `expression` is the same inside a frame, and it takes tokens. -/
theorem expression_framed (hfits : frame.Fits start) :
    Framed frame (IsPhrase frame) start expression expression := by
  have hlength : (frame.cursor start).ahead.length = start.ahead.length + frame.ahead.length := by
    unfold Frame.cursor
    rw [List.length_append, List.length_map]
  have h : Framed frame frame.IsNode start expression expression :=
    expressionWithin_framed _ _ start hfits ⟨Nat.le_refl _, Nat.le_of_eq hlength.symm⟩
  unfold Framed at h ⊢
  generalize hresult : expression start = result at h ⊢
  generalize expression (frame.cursor start) = result' at h ⊢
  cases h with
  | ok hread hnode =>
    refine .ok hread ⟨?_, hnode⟩
    rintro rfl
    obtain ⟨read, hread', hderives⟩ := expression_sound hresult
    obtain ⟨first, rest, rfl, -⟩ := hderives.exists_first
    have hlength := hread.length_ahead
    have hlength' := hread'.length_ahead
    simp only [List.length_nil, List.length_cons] at hlength hlength'
    omega
  | error hread hinside => exact .error hread hinside
  | cut hahead hcode => exact .cut hahead hcode

/-- `expressionOrAssignment` is the same inside a frame, and it takes tokens. -/
theorem expressionOrAssignment_framed (hfits : frame.Fits start) :
    Framed frame (IsPhrase frame) start expressionOrAssignment expressionOrAssignment := by
  refine .bind hfits (expression_framed hfits) ?_
  rintro read node node' middle hread hfits ⟨hne, hnode⟩
  have hphrase (more : List Token) : read ++ more ≠ [] := List.append_ne_nil_of_left_ne_nil hne more
  obtain rfl : node' = frame.node node := hnode.eq
  cases node with
  | identifier span name =>
    have hname : frame.node (.identifier span name) = .identifier (frame.span span) name := by
      simp [Node.mapSpans]
    rw [hname] at hnode ⊢
    refine .acceptText (.inl (by decide)) hfits (.pure ⟨hphrase [], hnode⟩) ?_
    intro sign middle hread hfits _
    refine .bind hfits (expression_framed hfits) ?_
    rintro more value value' middle hread hfits ⟨-, hvalue⟩
    refine .pure ⟨hphrase _, .of_between ?_ rfl rfl hnode.start hvalue.stop⟩
    simp [Node.mapSpans, hvalue.eq, hvalue.span_node]
  | _ => exact .pure ⟨hphrase [], hnode⟩

end NeutronLang.Grammar
