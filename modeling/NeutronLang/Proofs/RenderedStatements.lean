import NeutronLang.Proofs.Outcomes
import NeutronLang.Proofs.RenderedExpressions

/-!
# Rendered statements are read

Every statement of a rendering is read as a whole, without an error and with its tree but for spans,
whatever follows it, as long as that is no further alternative of a conditional
(`IsStatement.read`). The claim about a conditional is one about what follows its keyword, since a
chain of conditionals opens each of them but the first in another way.
-/

namespace NeutronLang.Rendering

open Grammar Lexicon

variable {start middle stop : Cursor} {tokens : List Token} {node : Node} {lineEnd : Int → Int}
  {bound count : Nat}

/-! ## Expressions and assignments -/

/-- `expression` reads a rendered expression where no expression goes on after it, and its first
token divides no phrases. -/
theorem IsExpression.exists_read (h : IsExpression node) (hwrites : Writes (places node) tokens)
    (hspelled : ∀ token ∈ tokens, Spelled token) (hread : start.Reads tokens stop)
    (hsettled : stop.Settled) :
    ∃ tree, expression start = .ok (tree, stop) ∧ tree.withoutSpans = node.withoutSpans ∧
      ∀ token ∈ start.ahead.head?, token.lexeme ∉ dividingTexts := by
  obtain ⟨tree, hderives, hsame⟩ := h.phrased tokens hwrites
  have hloose := hderives.of_le (Nat.le_refl _) h.level_pos
  refine ⟨tree, hloose.takes hspelled _ start stop hread (Nat.le_refl _) hsettled, hsame, ?_⟩
  obtain ⟨first, rest, rfl, hfirst⟩ := hderives.first_not_dividing hspelled
  intro token htoken
  obtain rfl := hread.eq_of_mem_head? htoken
  exact hfirst

/-- `Settled` holds of a place where the next token has one of the texts that divide phrases. -/
theorem settled_and_ne {token : Token} (h : start.Reads (token :: tokens) stop)
    {lexeme : String} (hlexeme : token.lexeme = lexeme) (hdividing : lexeme ∈ dividingTexts)
    {other : String} (hother : lexeme ≠ other) :
    start.Settled ∧ ∀ next ∈ start.ahead.head?, next.lexeme ≠ other := by
  subst hlexeme
  refine ⟨settled_of_lexeme h hdividing, fun next hnext => ?_⟩
  obtain rfl := h.eq_of_mem_head? hnext
  exact hother

/-- `expressionOrAssignment` reads a rendered assignment. -/
theorem IsAssignment.exists_read (h : IsAssignment node) (hwrites : Writes (places node) tokens)
    (hspelled : ∀ token ∈ tokens, Spelled token) (hread : start.Reads tokens stop)
    (hsettled : stop.Settled) :
    ∃ span target value, expressionOrAssignment start =
        .ok (.assignment span "=" target value, stop) ∧
      (∀ other, (Node.assignment other "=" target value).withoutSpans = node.withoutSpans) ∧
      ∀ token ∈ start.ahead.head?, token.lexeme ∉ dividingTexts := by
  obtain ⟨hname, hvalue⟩ := h
  unfold places at hwrites
  obtain ⟨before, rest, rfl, hbefore, hrest⟩ := writes_append.mp hwrites
  obtain ⟨sign, rest, rfl, -, hsign, hrest⟩ := writes_word.mp hrest
  obtain ⟨afterName, hreadName, hreadRest⟩ := hread.exists_middle
  obtain ⟨afterSign, hreadSign, hreadValue⟩ := hreadRest.exists_after_first
  obtain ⟨token, rfl, htoken, rfl⟩ := writes_name hbefore
  have hspelledName : ∀ token' ∈ [token], Spelled token' := fun t ht =>
    hspelled t (List.mem_append_left _ ht)
  have hnext : afterName.Settled :=
    settled_of_lexeme hreadSign (by rw [hsign]; decide)
  have hnode : Derives 1 [token] token.node := (Derives.name htoken).of_le (by decide) (by decide)
  -- The reader takes the name for an expression first, and sees the equals sign only then.
  have htarget : expression start = .ok (token.node, afterName) :=
    hnode.takes hspelledName _ start afterName hreadName (Nat.le_refl _) hnext
  obtain ⟨tree, hexpression, hsame, -⟩ := hvalue.exists_read hrest (fun t ht =>
    hspelled t (List.mem_append_right _ (List.mem_cons_of_mem _ ht))) hreadValue hsettled
  refine ⟨.between token.node.span.start tree.span.stop, token.node, tree, ?_, ?_, ?_⟩
  · unfold expressionOrAssignment
    rw [Rule.bind_of_eq_ok htarget, Token.node]
    simp only
    rw [Rule.bind_of_eq_ok (Rule.acceptText_of_eq hsign hreadSign)]
    simp only
    rw [Rule.bind_of_eq_ok hexpression]
    rfl
  · intro other
    unfold Node.withoutSpans at hsame ⊢
    simp only [Node.mapSpans, Token.node, hsame]
  · obtain ⟨first, rest, heq, hfirst⟩ := hnode.first_not_dividing hspelledName
    intro found hfound
    obtain rfl := hreadName.eq_of_mem_head? hfound
    obtain ⟨rfl, -⟩ := List.cons.inj heq
    exact hfirst

/-! ## Declarations -/

/-- `accept` reads a declared type, where there is one, before the name. -/
theorem accept_isTypeName {type : Option String} (htype : ∀ name ∈ type, name ∈ typeKeywords)
    {before after : List Token} (hbefore : Writes (type.toList.map keyword) before)
    {token : Token} (hkind : token.kind = .identifier)
    (hread : start.Reads (before ++ token :: after) stop) :
    ∃ found middle, (Rule.accept isTypeName : Rule _) start = .ok (found, middle) ∧
      found.map (·.lexeme) = type ∧ middle.Reads (token :: after) stop := by
  cases type with
  | none =>
    obtain rfl := writes_nil.mp hbefore
    refine ⟨none, start, Rule.accept_of_not_wanted fun next hnext => ?_, rfl, hread⟩
    rw [List.nil_append] at hread
    obtain rfl := hread.eq_of_mem_head? hnext
    simp [isTypeName, Token.isKeyword, hkind]
  | some name =>
    obtain ⟨first, rfl, hfirst, hlexeme⟩ := writes_single.mp hbefore
    obtain ⟨middle, hreadFirst, hreadRest⟩ := hread.exists_middle
    have hwanted : isTypeName first = true := by
      simp [isTypeName, Token.isKeyword, hfirst, hlexeme, htype name rfl]
    exact ⟨some first, middle, Rule.accept_of_wanted hwanted hreadFirst, congrArg some hlexeme,
      hreadRest⟩

/-- The places of a declaration begin with its keyword. -/
theorem IsDeclaration.places_eq (h : IsDeclaration node) :
    places node = keyword "var" :: (places node).tail := by
  obtain ⟨-, -, -⟩ := h
  unfold places
  rw [List.tail_cons]

/-- `binding` reads the parts of a rendered declaration after its keyword. -/
theorem IsDeclaration.exists_read (h : IsDeclaration node)
    (hwrites : Writes (places node).tail tokens) (hspelled : ∀ token ∈ tokens, Spelled token)
    (hread : start.Reads tokens stop) (hsettled : stop.Settled)
    (hnext : ∀ token ∈ stop.ahead.head?, token.lexeme ≠ "=") (word : Token) :
    ∃ found, binding word start = .ok (found, stop) ∧
      ∀ offset, (found.node offset).withoutSpans = node.withoutSpans := by
  obtain ⟨htype, hname, hinit⟩ := h
  rename_i span nameSpan type name init
  unfold places at hwrites
  rw [List.tail_cons, List.append_assoc, places] at hwrites
  obtain ⟨before, rest, rfl, hbefore, hrest⟩ := writes_append.mp hwrites
  obtain ⟨token, after, rfl, htoken, rfl, hafter⟩ := (writes_identifier hname).mp hrest
  obtain ⟨found, middle, haccept, hfound, hread⟩ := accept_isTypeName htype hbefore htoken hread
  obtain ⟨afterName, hreadName, hreadInit⟩ := hread.exists_after_first
  have hnameRead : Rule.name .variableName middle = .ok (token.node, afterName) :=
    Rule.name_eq_ok_iff.mpr ⟨token, beq_iff_eq.mpr htoken, rfl, hreadName⟩
  -- The type and the name are read. What is left is the value, which may be missing.
  suffices hvalue : ∃ tree, initialValue afterName = .ok (tree, stop) ∧
      tree.withoutSpans = init.withoutSpans by
    obtain ⟨tree, hvalue, hsame⟩ := hvalue
    refine ⟨⟨word.start, found.map (·.lexeme), token.node, tree⟩, ?_, fun offset => ?_⟩
    · unfold binding
      rw [Rule.bind_of_eq_ok haccept, Rule.bind_of_eq_ok hnameRead, Rule.bind_of_eq_ok hvalue]
      rfl
    · unfold Node.withoutSpans at hsame ⊢
      simp only [Binding.node, Node.mapSpans, Token.node, hsame, hfound]
  unfold initialValue
  unfold initPlaces at hafter
  split at hafter
  · next habsent =>
    obtain rfl := writes_nil.mp hafter
    obtain rfl := hreadInit.eq_of_nil
    refine ⟨.absent, ?_, ?_⟩
    · rw [Rule.bind_of_eq_ok (Rule.acceptText_of_ne hnext)]
      rfl
    · cases init with
      | absent => rfl
      | _ => cases habsent
  · next hpresent =>
    have hexpression : IsExpression init := hinit.resolve_left fun h => hpresent (h ▸ rfl)
    obtain ⟨sign, rest, rfl, -, hsign, hrest⟩ := writes_word.mp hafter
    obtain ⟨afterSign, hreadSign, hreadValue⟩ := hreadInit.exists_after_first
    obtain ⟨tree, htree, hsame, -⟩ := hexpression.exists_read hrest
      (fun t ht => hspelled t (by simp [ht])) hreadValue hsettled
    refine ⟨tree, ?_, hsame⟩
    rw [Rule.bind_of_eq_ok (Rule.acceptText_of_eq hsign hreadSign)]
    exact htree

/-! ## How statements open and end -/

/-- `terminate` reads the semicolon of a statement. -/
theorem terminate_gives {token : Token} (hlexeme : token.lexeme = ";")
    (h : start.Reads [token] stop) (after : Clause) (offset : Int) :
    (terminate lineEnd after offset).Gives start token.stop stop := by
  unfold terminate
  refine Recovering.gives_get.bind ?_
  refine (Recovering.gives_acceptText hlexeme h).bind ?_
  exact (Recovering.gives_record rfl).bind Recovering.gives_pure

/-- `attempt` goes on with the reader that a reserved word selects. -/
theorem attempt_of_keyword {body : Recovering Body} {keyword : Token} {rest : Attempt Node}
    {tree : Node} (hkeyword : start.Reads [keyword] middle)
    (hreader : keywordStatement? lineEnd bound body start keyword = some rest)
    (hrest : rest.Gives middle tree stop) :
    (attempt lineEnd bound body).Gives start (some tree) stop := by
  unfold attempt
  refine Attempt.gives_get.bind ?_
  have hnext : start.next? = some keyword := hkeyword.head?_ahead
  simp only [hnext]
  refine (Attempt.gives_of_gives (Recovering.gives_record rfl)).bind ?_
  simp only [hreader]
  refine (Attempt.gives_skip hkeyword).bind (hrest.bind ?_)
  -- Nothing is recorded on the way but what the reader goes through, which is no error.
  unfold completed
  exact Attempt.gives_get.bind
    ((Attempt.gives_of_gives (Recovering.gives_record rfl)).bind Attempt.gives_pure)

/-- `attempt` reads an expression or an assignment where a name is next. -/
theorem attempt_of_name {body : Recovering Body} {name : Token} {tree : Node}
    (hname : start.ahead.head? = some name) (hkind : name.kind = .identifier)
    (h : (expressionStatement lineEnd).Gives start tree stop) :
    (attempt lineEnd bound body).Gives start (some tree) stop := by
  unfold attempt
  refine Attempt.gives_get.bind ?_
  have hnext : start.next? = some name := hname
  simp only [hnext]
  refine (Attempt.gives_of_gives (Recovering.gives_record rfl)).bind ?_
  have hreader : keywordStatement? lineEnd bound body start name = none := by
    simp [keywordStatement?, Token.isKeyword, hkind]
  simp only [hreader, Token.isIdentifier, hkind, beq_self_eq_true, if_true]
  refine h.bind ?_
  unfold completed
  exact Attempt.gives_get.bind
    ((Attempt.gives_of_gives (Recovering.gives_record rfl)).bind Attempt.gives_pure)

/-! ## Lists of statements and blocks -/

/-- The next token opens no further `alternate` of a conditional. -/
def ChainEnds (place : Cursor) : Prop :=
  ∀ token ∈ place.ahead.head?, token.lexeme ≠ "else" ∧ token.lexeme ≠ "elif"

/-- A rendered statement opens as one, and `statementWithin` reads it as a whole with its tree but
for spans. -/
structure StatementRead (node : Node) : Prop where
  opens : ∀ tokens, Writes (places node ++ endPlaces node) tokens →
    ∃ first rest, tokens = first :: rest ∧ first.startsStatement = true
  gives : ∀ tokens, Writes (places node ++ endPlaces node) tokens →
    (∀ token ∈ tokens, Spelled token) → ∀ lineEnd bound start stop, start.Reads tokens stop →
      start.ahead.length ≤ bound → ChainEnds stop →
        ∃ tree, (statementWithin lineEnd bound).Gives start (some tree) stop ∧
          tree.withoutSpans = node.withoutSpans

/-- What opens a statement closes no block and opens no alternative of a conditional. -/
theorem lexeme_of_startsStatement {token : Token} (h : token.startsStatement = true)
    (hspelled : Spelled token) : token.lexeme ∉ ["\x7d", "else", "elif"] := by
  intro hmem
  rcases Bool.or_eq_true_iff.mp h with hidentifier | hkeyword
  · have hall : ∀ lexeme ∈ ["\x7d", "else", "elif"], spells .identifier lexeme = false := by decide
    unfold Spelled at hspelled
    rw [beq_iff_eq.mp hidentifier, hall _ hmem] at hspelled
    cases hspelled
  · have hall : ∀ lexeme ∈ ["\x7d", "else", "elif"], statementKeywords.contains lexeme = false := by
      decide
    rw [hall _ hmem, Bool.and_false] at hkeyword
    cases hkeyword

/-- A list of statements ends at the end, or at the brace `closing`. -/
def ListEnds (closing : Option String) (place : Cursor) : Prop :=
  (place.atEnd || closing.any place.sees) = true

/-- `statements` read rendered statements one after the other. -/
theorem statements_read {nodes : List Node} (h : ∀ node ∈ nodes, StatementRead node)
    (hwrites : Writes (statementPlaces nodes) tokens) (hspelled : ∀ token ∈ tokens, Spelled token)
    {closing : Option String} (hclosing : ∀ lexeme ∈ closing, lexeme = "\x7d")
    (hread : start.Reads tokens stop) (hbound : start.ahead.length ≤ bound)
    (hcount : start.ahead.length ≤ count) (hends : ListEnds closing stop)
    (hchain : ChainEnds stop) :
    ∃ trees, (statements closing (statementWithin lineEnd bound) count).Gives start trees stop ∧
      trees.map Node.withoutSpans = nodes.map Node.withoutSpans := by
  -- One statement after the other, each with the place where the one before it stopped.
  induction nodes generalizing tokens start count with
  | nil =>
    obtain rfl := writes_nil.mp hwrites
    obtain rfl := hread.eq_of_nil
    refine ⟨[], ?_, rfl⟩
    cases count with
    | zero => exact Recovering.gives_pure
    | succ count =>
      have hseen : (listEnds closing).Gives stop true stop :=
        ⟨congrArg (·, stop) hends, rfl⟩
      exact hseen.bind Recovering.gives_pure
  | cons node nodes ih =>
    obtain ⟨before, after, rfl, hbefore, hafter⟩ := writes_append.mp hwrites
    obtain ⟨hopens, hgives⟩ := h node List.mem_cons_self
    have hrest : ∀ n ∈ nodes, StatementRead n := fun n hn => h n (List.mem_cons_of_mem _ hn)
    obtain ⟨middle, hreadFirst, hreadRest⟩ := hread.exists_middle
    have hlength := hreadFirst.length_ahead
    obtain ⟨first, others, rfl, hstarts⟩ := hopens before hbefore
    have hspelledFirst : ∀ token ∈ first :: others, Spelled token := fun t ht =>
      hspelled t (List.mem_append_left _ ht)
    have hspelledRest : ∀ token ∈ after, Spelled token := fun t ht =>
      hspelled t (List.mem_append_right _ ht)
    -- What follows the statement is the next one or the end of the list.
    have hmiddle : ChainEnds middle := by
      cases nodes with
      | nil =>
        obtain rfl := writes_nil.mp hafter
        obtain rfl := hreadRest.eq_of_nil
        exact hchain
      | cons next nodes =>
        obtain ⟨before, last, rfl, hnext, -⟩ := writes_append.mp hafter
        obtain ⟨token, others, rfl, hnextStarts⟩ :=
          (hrest next List.mem_cons_self).opens before hnext
        intro found hfound
        rw [List.cons_append] at hreadRest
        obtain rfl := hreadRest.eq_of_mem_head? hfound
        have hlexeme := lexeme_of_startsStatement hnextStarts
          (hspelledRest _ (List.mem_append_left _ List.mem_cons_self))
        exact ⟨fun heq => hlexeme (by simp [heq]), fun heq => hlexeme (by simp [heq])⟩
    obtain ⟨tree, htree, hsame⟩ := hgives _ hbefore hspelledFirst lineEnd bound start middle
      hreadFirst hbound hmiddle
    rw [List.length_cons] at hlength
    obtain ⟨count, rfl⟩ : ∃ n, count = n + 1 := ⟨count - 1, by omega⟩
    have hmiddleCount : middle.ahead.length ≤ count := by omega
    obtain ⟨trees, htrees, hsames⟩ :=
      ih hrest hafter hspelledRest hreadRest (by omega) hmiddleCount
    -- A statement opens the rest, so the list does not end here.
    have hseen : (listEnds closing).Gives start false start := by
      have hlexeme := lexeme_of_startsStatement hstarts (hspelledFirst _ List.mem_cons_self)
      have hnotEnd : start.atEnd = false := by
        unfold Cursor.atEnd
        rw [hreadFirst.ahead]
        rfl
      have hnotClosing : closing.any start.sees = false := by
        cases closing with
        | none => rfl
        | some lexeme =>
          obtain rfl := hclosing lexeme rfl
          rw [Option.any_some, hreadFirst.sees_eq, beq_eq_false_iff_ne]
          exact fun heq => hlexeme (by simp [heq])
      have hvalue : (start.atEnd || closing.any start.sees) = false := by
        rw [hnotEnd, hnotClosing]
        rfl
      exact ⟨congrArg (·, start) hvalue, rfl⟩
    refine ⟨tree :: trees, ?_, by rw [List.map_cons, hsame, hsames, List.map_cons]⟩
    unfold statements
    refine hseen.bind ?_
    simp only [Bool.false_eq_true, if_false]
    exact htree.bind (htrees.bind Recovering.gives_pure)

/-- `body` reads a rendered block from brace to brace. -/
theorem block_read (span : Span) {nodes : List Node} (h : ∀ node ∈ nodes, StatementRead node)
    (hwrites : Writes (places (.block span nodes)) tokens)
    (hspelled : ∀ token ∈ tokens, Spelled token) (hread : start.Reads tokens stop)
    (hbound : start.ahead.length ≤ bound) :
    ∃ found : Body, (body (statementWithin lineEnd bound) bound).Gives start found stop ∧
      found.node.withoutSpans = (Node.block span nodes).withoutSpans := by
  unfold places at hwrites
  obtain ⟨opening, rest, rfl, -, hopening, hrest⟩ := writes_word.mp hwrites
  obtain ⟨inner, last, rfl, hinner, hlast⟩ := writes_append.mp hrest
  obtain ⟨closing, rfl, -, hclosing⟩ := writes_single.mp hlast
  obtain ⟨afterOpening, hreadOpening, hread⟩ := hread.exists_after_first
  obtain ⟨middle, hreadInner, hreadClosing⟩ := hread.exists_middle
  have hlength := hreadOpening.length_ahead
  have hinnerBound : afterOpening.ahead.length ≤ bound := by omega
  -- the closing brace ends the list, and it ends a chain of alternatives in it
  have hends : ListEnds (some "\x7d") middle := by
    unfold ListEnds
    rw [Option.any_some, hreadClosing.sees_eq, hclosing, beq_self_eq_true, Bool.or_true]
  have hchain : ChainEnds middle := by
    intro token htoken
    obtain rfl := hreadClosing.eq_of_mem_head? htoken
    rw [hclosing]
    decide
  obtain ⟨trees, htrees, hsame⟩ := statements_read h hinner (fun t ht =>
    hspelled t (List.mem_cons_of_mem _ (List.mem_append_left _ ht))) (by rintro _ ⟨rfl⟩; rfl)
    hreadInner hinnerBound hinnerBound hends hchain
  refine ⟨⟨.between opening.start closing.stop, trees⟩, ?_, ?_⟩
  · unfold body
    refine Recovering.gives_get.bind ((Recovering.gives_acceptText hopening hreadOpening).bind ?_)
    refine htrees.bind (Recovering.gives_get.bind ?_)
    refine (Recovering.gives_acceptText hclosing hreadClosing).bind ?_
    exact (Recovering.gives_record rfl).bind Recovering.gives_pure
  · simp only [Body.node, Node.withoutSpans, Node.mapSpans, Node.mapSpansOfAll_eq_map] at hsame ⊢
    exact congrArg _ hsame

/-! ## Simple statements -/

/-- `startsStatement` holds of a reserved word that opens statements. -/
theorem startsStatement_of_keyword {token : Token} (hkind : token.kind = .keyword) {lexeme : String}
    (hlexeme : token.lexeme = lexeme) (hmem : lexeme ∈ statementKeywords) :
    token.startsStatement = true := by
  subst hlexeme
  unfold Token.startsStatement
  rw [Token.isKeyword, hkind, List.contains_iff_mem.mpr hmem,
    beq_self_eq_true, Bool.and_self, Bool.or_true]

/-- A rendering that `StartsWithName` has a first token that starts a statement. -/
theorem StartsWithName.opens {placed more : List Place} (h : StartsWithName placed)
    (hwrites : Writes (placed ++ more) tokens) :
    ∃ first rest, tokens = first :: rest ∧ first.kind = .identifier := by
  obtain ⟨name, after, rfl⟩ := h
  obtain ⟨token, rest, rfl, hkind, -, -⟩ := writes_word.mp hwrites
  exact ⟨token, rest, rfl, hkind⟩

/-- `startsStatement` holds of an identifier. -/
theorem startsStatement_of_identifier {token : Token} (hkind : token.kind = .identifier) :
    token.startsStatement = true := by
  unfold Token.startsStatement
  rw [Token.isIdentifier, hkind]
  rfl

/-- `statementWithin` reads a statement that `attempt` reads. -/
theorem statementWithin_of_attempt {tree : Node}
    (h : (attempt lineEnd bound (body (statementWithin lineEnd bound) bound)).Gives start
      (some tree) stop) : (statementWithin lineEnd (bound + 1)).Gives start (some tree) stop :=
  h.recover

/-- `StatementRead` holds of a statement that opens with a reserved word, if the reader that the
word selects reads the rest of its rendering. -/
theorem statementRead_of_keyword (lexeme : String) (rest : List Place)
    (hplaces : places node ++ endPlaces node = keyword lexeme :: rest)
    (hmem : lexeme ∈ statementKeywords)
    (h : ∀ tokens, Writes rest tokens → (∀ token ∈ tokens, Spelled token) →
      ∀ lineEnd bound start middle stop word, word.kind = .keyword → word.lexeme = lexeme →
        start.Reads [word] middle → middle.Reads tokens stop → middle.ahead.length ≤ bound →
        ChainEnds stop → ∃ reader tree, keywordStatement? lineEnd bound
            (body (statementWithin lineEnd bound) bound) start word = some reader ∧
          reader.Gives middle tree stop ∧ tree.withoutSpans = node.withoutSpans) :
    StatementRead node := by
  constructor
  · intro tokens hwrites
    rw [hplaces] at hwrites
    obtain ⟨word, rest, rfl, hkind, hlexeme, -⟩ := writes_word.mp hwrites
    exact ⟨word, rest, rfl, startsStatement_of_keyword hkind hlexeme hmem⟩
  · intro tokens hwrites hspelled lineEnd bound start stop hread hbound hchain
    rw [hplaces] at hwrites
    obtain ⟨word, rest, rfl, hkind, hlexeme, hrest⟩ := writes_word.mp hwrites
    obtain ⟨middle, hreadWord, hreadRest⟩ := hread.exists_after_first
    have hlength := hreadWord.length_ahead_token
    -- the word itself is ahead, so there is room for one statement more
    obtain ⟨bound, rfl⟩ : ∃ n, bound = n + 1 := ⟨bound - 1, by omega⟩
    obtain ⟨reader, tree, hreader, hgives, hsame⟩ := h rest hrest
      (fun t ht => hspelled t (List.mem_cons_of_mem _ ht)) lineEnd bound start middle stop word
      hkind
      hlexeme hreadWord hreadRest (by omega) hchain
    exact ⟨tree, statementWithin_of_attempt (attempt_of_keyword hreadWord hreader hgives), hsame⟩

/-- `StatementRead` holds of declarations. -/
theorem IsDeclaration.statementRead (h : IsDeclaration node) : StatementRead node := by
  have hend : endPlaces node = [symbol ";"] := by
    obtain ⟨-, -, -⟩ := h
    rfl
  refine statementRead_of_keyword "var" ((places node).tail ++ [symbol ";"])
    (by rw [hend, ← List.cons_append, ← h.places_eq]) (by decide) ?_
  intro tokens hwrites hspelled lineEnd bound start middle stop word hkind hlexeme _ hread _ _
  obtain ⟨before, last, rfl, hbefore, hlast⟩ := writes_append.mp hwrites
  obtain ⟨semicolon, rfl, -, hsemicolon⟩ := writes_single.mp hlast
  obtain ⟨beforeEnd, hreadRest, hreadEnd⟩ := hread.exists_middle
  obtain ⟨hsettled, hnext⟩ := settled_and_ne hreadEnd hsemicolon (by decide)
    (show ";" ≠ "=" by decide)
  obtain ⟨found, hfound, hsame⟩ := h.exists_read hbefore
    (fun t ht => hspelled t (List.mem_append_left _ ht)) hreadRest hsettled hnext word
  refine ⟨declaration lineEnd word, found.node semicolon.stop, ?_, ?_, hsame _⟩
  · simp [keywordStatement?, Token.isKeyword, hkind, hlexeme]
  · unfold declaration
    refine (Attempt.gives_of_eq_ok hfound).bind ?_
    exact (Attempt.gives_of_gives (terminate_gives hsemicolon hreadEnd _ _)).bind
      Attempt.gives_pure

/-- `StatementRead` holds of a statement that opens with a name and ends with a semicolon, if what
stands before the semicolon is read as an expression or an assignment of its tree. -/
theorem statementRead_of_name {placed : List Place}
    (hplaces : places node ++ endPlaces node = placed ++ [symbol ";"])
    (hstarts : StartsWithName placed)
    (h : ∀ tokens, Writes placed tokens → (∀ token ∈ tokens, Spelled token) →
      ∀ lineEnd start middle stop semicolon, start.Reads tokens middle →
        middle.Reads [semicolon] stop → semicolon.lexeme = ";" →
        ∃ tree, (expressionStatement lineEnd).Gives start tree stop ∧
          tree.withoutSpans = node.withoutSpans) :
    StatementRead node := by
  constructor
  · intro tokens hwrites
    rw [hplaces] at hwrites
    obtain ⟨first, rest, rfl, hkind⟩ := hstarts.opens hwrites
    exact ⟨first, rest, rfl, startsStatement_of_identifier hkind⟩
  · intro tokens hwrites hspelled lineEnd bound start stop hread hbound _
    rw [hplaces] at hwrites
    obtain ⟨first, rest, heq, hkind⟩ := hstarts.opens hwrites
    -- The first token is that of the name, which sends the reader to expressions and assignments.
    have hnext : start.ahead.head? = some first := by
      rw [heq] at hread
      exact hread.head?_ahead
    have hlength := hread.length_ahead
    rw [heq, List.length_cons] at hlength
    obtain ⟨bound, rfl⟩ : ∃ n, bound = n + 1 := ⟨bound - 1, by omega⟩
    obtain ⟨before, last, rfl, hbefore, hlast⟩ := writes_append.mp hwrites
    obtain ⟨semicolon, rfl, -, hsemicolon⟩ := writes_single.mp hlast
    obtain ⟨middle, hread, hreadEnd⟩ := hread.exists_middle
    obtain ⟨tree, htree, hsame⟩ := h before hbefore
      (fun t ht => hspelled t (List.mem_append_left _ ht)) lineEnd start middle stop semicolon hread
      hreadEnd hsemicolon
    exact ⟨tree, statementWithin_of_attempt (attempt_of_name hnext hkind htree), hsame⟩

/-- `StatementRead` holds of assignments to what starts with a name. -/
theorem IsAssignment.statementRead (h : IsAssignment node)
    (hstarts : StartsWithName (places node)) :
    StatementRead node := by
  have hend : endPlaces node = [symbol ";"] := by
    obtain ⟨-, -⟩ := h
    rfl
  refine statementRead_of_name (by rw [hend]) hstarts ?_
  intro tokens hwrites hspelled lineEnd start middle stop semicolon hread hreadEnd hsemicolon
  have hsettled : middle.Settled := settled_of_lexeme hreadEnd (by rw [hsemicolon]; decide)
  obtain ⟨span, target, value, hassignment, hsame, -⟩ :=
    h.exists_read hwrites hspelled hread hsettled
  refine ⟨.assignment (.between span.start semicolon.stop) "=" target value, ?_, hsame _⟩
  unfold expressionStatement
  refine (Attempt.gives_of_eq_ok hassignment).bind ?_
  exact (Attempt.gives_of_gives (terminate_gives hsemicolon hreadEnd _ _)).bind Attempt.gives_pure

/-- The tree of an expression is no assignment, whatever its spans. -/
theorem IsExpression.not_assignment (h : IsExpression node) {tree : Node}
    (hsame : tree.withoutSpans = node.withoutSpans) (span : Span) (operator : String)
    (target value : Node) : tree ≠ .assignment span operator target value := by
  rintro rfl
  unfold Node.withoutSpans at hsame
  cases h <;> cases hsame

/-- `StatementRead` holds of expressions that start with a name, as statements. -/
theorem IsExpression.statementRead (h : IsExpression node) (hstarts : StartsWithName (places node))
    (span : Span) : StatementRead (.expressionStatement span node) := by
  have hplaces : places (.expressionStatement span node) ++ [symbol ";"] =
      places node ++ [symbol ";"] := by rw [places]
  refine statementRead_of_name hplaces hstarts ?_
  intro tokens hwrites hspelled lineEnd start middle stop semicolon hread hreadEnd hsemicolon
  obtain ⟨hsettled, hnotEquals⟩ := settled_and_ne hreadEnd hsemicolon (by decide)
    (show ";" ≠ "=" by decide)
  obtain ⟨tree, htree, hsame, -⟩ := h.exists_read hwrites hspelled hread hsettled
  have hnot := h.not_assignment hsame
  refine ⟨.expressionStatement (.between tree.span.start semicolon.stop) tree, ?_, ?_⟩
  · unfold expressionStatement
    have hread := Attempt.gives_of_eq_ok (expressionOrAssignment_of_expression htree hnotEquals)
    refine hread.bind ?_
    -- The tree decides how the statement ends, and it is none of an assignment.
    cases tree with
    | assignment span operator target value => exact absurd rfl (hnot span operator target value)
    | _ =>
      exact (Attempt.gives_of_gives (terminate_gives hsemicolon hreadEnd _ _)).bind
        Attempt.gives_pure
  · unfold Node.withoutSpans at hsame ⊢
    simp only [Node.mapSpans, hsame]

/-- What a return gives back: nothing where it ends, and else an expression. -/
def ReturnValue (start : Cursor) (tree : Node) (stop : Cursor) : Prop :=
  (returnEnds start = true ∧ tree = .absent ∧ stop = start) ∨
    (returnEnds start = false ∧ expression start = .ok (tree, stop))

/-- `returnStatement` reads a return with what it gives back and its semicolon. -/
theorem ReturnValue.returnStatement {tree : Node} {semicolon : Token}
    (h : ReturnValue start tree middle) (hsemicolon : semicolon.lexeme = ";")
    (hread : middle.Reads [semicolon] stop) (origin : Cursor) :
    Grammar.returnStatement origin start =
      .ok (.returnStatement (origin.spanTo stop) tree, stop) := by
  have hplace (place : Cursor) : (get : Rule Cursor) place = .ok (place, place) := rfl
  have habsent (place : Cursor) : (pure Node.absent : Rule Node) place = .ok (.absent, place) := rfl
  unfold Grammar.returnStatement
  rw [Rule.bind_of_eq_ok (hplace _)]
  rcases h with ⟨hends, rfl, rfl⟩ | ⟨hends, htree⟩
  · rw [if_pos hends, Rule.bind_of_eq_ok (habsent _)]
    dsimp only
    rw [Rule.bind_of_eq_ok (Rule.acceptText_of_eq hsemicolon hread), Rule.bind_of_eq_ok (hplace _)]
    rfl
  · rw [hends, if_neg Bool.false_ne_true, Rule.bind_of_eq_ok htree]
    dsimp only
    rw [Rule.bind_of_eq_ok (Rule.acceptText_of_eq hsemicolon hread), Rule.bind_of_eq_ok (hplace _)]
    rfl

/-- `returnEnds` is false where an expression starts. -/
theorem returnEnds_of_first {tree : Node} (h : expression start = .ok (tree, stop))
    (hfirst : ∀ token ∈ start.ahead.head?, token.lexeme ∉ dividingTexts) :
    returnEnds start = false := by
  cases hahead : start.ahead with
  | nil =>
    unfold expression withTokensAhead at h
    rw [hahead] at h
    cases h
  | cons token ahead =>
    have hlexeme := hfirst token (by rw [hahead]; rfl)
    have hne (lexeme : String) (hmem : lexeme ∈ dividingTexts) :
        (token.lexeme == lexeme) = false :=
      beq_eq_false_iff_ne.mpr fun heq => hlexeme (heq ▸ hmem)
    simp only [returnEnds, Cursor.atEnd, Cursor.sees, Cursor.next?, hahead, List.head?_cons,
      Option.any_some, hne ";" (by decide), hne "\x7d" (by decide), List.isEmpty_cons,
      Bool.or_false]

/-- `StatementRead` holds of returns. -/
theorem return_read {span : Span} {argument : Node}
    (h : argument = .absent ∨ IsExpression argument) :
    StatementRead (.returnStatement span argument) := by
  refine statementRead_of_keyword "return" (places argument ++ [symbol ";"]) (by rw [places]; rfl)
    (by decide) ?_
  intro tokens hwrites hspelled lineEnd bound start middle stop word hkind hlexeme _ hread _ _
  obtain ⟨value, last, rfl, hvalue, hlast⟩ := writes_append.mp hwrites
  obtain ⟨semicolon, rfl, -, hsemicolon⟩ := writes_single.mp hlast
  obtain ⟨beforeEnd, hreadValue, hreadEnd⟩ := hread.exists_middle
  have hsettled : beforeEnd.Settled := settled_of_lexeme hreadEnd (by rw [hsemicolon]; decide)
  -- The semicolon is read in the same way behind a value and without one.
  suffices hargument : ∃ tree, ReturnValue middle tree beforeEnd ∧
      tree.withoutSpans = argument.withoutSpans by
    obtain ⟨tree, htree, hsame⟩ := hargument
    refine ⟨liftM (returnStatement start), .returnStatement (start.spanTo stop) tree, ?_, ?_, ?_⟩
    · simp [keywordStatement?, Token.isKeyword, hkind, hlexeme]
    · exact Attempt.gives_of_eq_ok (htree.returnStatement hsemicolon hreadEnd start)
    · unfold Node.withoutSpans at hsame ⊢
      simp only [Node.mapSpans, hsame]
  rcases h with rfl | h
  · obtain rfl := writes_nil.mp hvalue
    obtain rfl := hreadValue.eq_of_nil
    have hends : returnEnds beforeEnd = true := by
      unfold returnEnds
      rw [hreadEnd.sees_eq, hsemicolon, beq_self_eq_true, Bool.or_true, Bool.true_or]
    exact ⟨.absent, .inl ⟨hends, rfl, rfl⟩, rfl⟩
  · obtain ⟨tree, htree, hsame, hfirst⟩ := h.exists_read hvalue
      (fun t ht => hspelled t (List.mem_append_left _ ht)) hreadValue hsettled
    exact ⟨tree, .inr ⟨returnEnds_of_first htree hfirst, htree⟩, hsame⟩

/-! ## Conditionals -/

/-- The rest of a rendered conditional, after its keyword, is read with its tree but for spans
(`withoutSpans`). -/
def ConditionalRead (node : Node) : Prop :=
  ∀ tokens, Writes (places node).tail tokens → (∀ token ∈ tokens, Spelled token) →
    ∀ lineEnd bound count keyword start stop, start.Reads tokens stop →
      start.ahead.length ≤ bound → start.ahead.length ≤ count → ChainEnds stop →
      let body := body (statementWithin lineEnd bound) bound
      ∃ tree, (conditional (alternate body count) body keyword).Gives start tree stop ∧
        tree.withoutSpans = node.withoutSpans

/-- What follows the body of a rendered conditional is read as its `alternate`. -/
def AlternateRead (node : Node) : Prop :=
  ∀ tokens, Writes (alternatePlaces node (places node)) tokens →
    (∀ token ∈ tokens, Spelled token) → ∀ lineEnd bound count start stop,
      start.Reads tokens stop → start.ahead.length ≤ bound → start.ahead.length ≤ count →
      ChainEnds stop →
      ∃ tree, (alternate (body (statementWithin lineEnd bound) bound) count).Gives start tree stop ∧
        tree.withoutSpans = node.withoutSpans

/-- `AlternateRead` holds where there is no alternative. -/
theorem alternateRead_absent : AlternateRead .absent := by
  intro tokens hwrites _ lineEnd bound count start stop hread _ _ hchain
  obtain rfl := writes_nil.mp hwrites
  obtain rfl := hread.eq_of_nil
  refine ⟨.absent, ?_, rfl⟩
  cases count with
  | zero => exact Attempt.gives_pure
  | succ count =>
    unfold alternate
    refine (Attempt.gives_acceptText_none fun token htoken => (hchain token htoken).1).bind ?_
    refine (Attempt.gives_acceptText_none fun token htoken => (hchain token htoken).2).bind ?_
    exact Attempt.gives_pure

/-- `AlternateRead` holds of a block, as the last alternative. -/
theorem alternateRead_block {span : Span} {nodes : List Node}
    (h : ∀ node ∈ nodes, StatementRead node) : AlternateRead (.block span nodes) := by
  intro tokens hwrites hspelled lineEnd bound count start stop hread hbound hcount _
  obtain ⟨keyword, rest, rfl, -, hkeyword, hrest⟩ := writes_word.mp hwrites
  obtain ⟨middle, hreadKeyword, hreadBlock⟩ := hread.exists_after_first
  have hlength := hreadKeyword.length_ahead_token
  obtain ⟨count, rfl⟩ : ∃ n, count = n + 1 := ⟨count - 1, by omega⟩
  have hmiddle : middle.ahead.length ≤ bound := by omega
  obtain ⟨found, hfound, hsame⟩ := block_read span h hrest
    (fun t ht => hspelled t (List.mem_cons_of_mem _ ht)) hreadBlock hmiddle
  -- A block opens with its brace, so the keyword before it is not followed by a conditional.
  have hif : ∀ token ∈ middle.ahead.head?, token.lexeme ≠ "if" := by
    unfold places at hrest
    obtain ⟨opening, others, rfl, -, hopening, -⟩ := writes_word.mp hrest
    intro token htoken
    obtain rfl := hreadBlock.eq_of_mem_head? htoken
    rw [hopening]
    decide
  refine ⟨found.node, ?_, hsame⟩
  unfold alternate
  refine (Attempt.gives_acceptText hkeyword hreadKeyword).bind ?_
  refine (Attempt.gives_acceptText_none hif).bind ?_
  exact (Attempt.gives_of_gives hfound).bind Attempt.gives_pure

/-- `AlternateRead` holds of another conditional, after one reserved word or after two. -/
theorem ConditionalRead.alternateRead {span : Span} {test consequent other : Node}
    (h : ConditionalRead (.ifStatement span test consequent other)) :
    AlternateRead (.ifStatement span test consequent other) := by
  intro tokens hwrites hspelled lineEnd bound count start stop hread hbound hcount hchain
  obtain ⟨opening, rest, rfl, hopening, hrest⟩ := writes_cons.mp hwrites
  obtain ⟨middle, hreadOpening, hreadRest⟩ := hread.exists_middle
  have hspelledRest : ∀ token ∈ rest, Spelled token := fun t ht =>
    hspelled t (List.mem_append_right _ ht)
  have hlength := hreadOpening.length_ahead
  simp only [Place.choices, List.mem_cons, List.not_mem_nil, or_false] at hopening
  rcases hopening with hone | htwo
  -- One word, `elif`, is not taken for `else`.
  · obtain ⟨keyword, rfl, hword⟩ := List.map_eq_singleton_iff.mp hone
    have helif : keyword.lexeme = "elif" := congrArg Word.lexeme hword
    rw [List.length_singleton] at hlength
    obtain ⟨count, rfl⟩ : ∃ n, count = n + 1 := ⟨count - 1, by omega⟩
    obtain ⟨tree, htree, hsame⟩ := h rest hrest hspelledRest lineEnd bound count keyword middle stop
      hreadRest (by omega) (by omega) hchain
    have helse : ∀ token ∈ start.ahead.head?, token.lexeme ≠ "else" := by
      intro token htoken
      obtain rfl := hreadOpening.eq_of_mem_head? htoken
      rw [helif]
      decide
    refine ⟨tree, ?_, hsame⟩
    unfold alternate
    refine (Attempt.gives_acceptText_none helse).bind ?_
    exact (Attempt.gives_acceptText helif hreadOpening).bind htree
  -- Two words, `else` and `if`, one after the other.
  · obtain ⟨first, others, rfl, hfirst, hothers⟩ := List.map_eq_cons_iff.mp htwo
    obtain ⟨second, rfl, hsecond⟩ := List.map_eq_singleton_iff.mp hothers
    have helse : first.lexeme = "else" := congrArg Word.lexeme hfirst
    have hif : second.lexeme = "if" := congrArg Word.lexeme hsecond
    rw [List.length_cons, List.length_singleton] at hlength
    obtain ⟨count, rfl⟩ : ∃ n, count = n + 1 := ⟨count - 1, by omega⟩
    obtain ⟨place, hreadFirst, hreadSecond⟩ := hreadOpening.exists_after_first
    obtain ⟨tree, htree, hsame⟩ := h rest hrest hspelledRest lineEnd bound count second middle stop
      hreadRest (by omega) (by omega) hchain
    refine ⟨tree, ?_, hsame⟩
    unfold alternate
    refine (Attempt.gives_acceptText helse hreadFirst).bind ?_
    exact (Attempt.gives_acceptText hif hreadSecond).bind htree

/-- `ConditionalRead` holds of a conditional with its test, its body and its alternative. -/
theorem conditional_read {span bodySpan : Span} {test other : Node} {nodes : List Node}
    (htest : IsExpression test) (hbody : ∀ node ∈ nodes, StatementRead node)
    (hother : AlternateRead other) :
    ConditionalRead (.ifStatement span test (.block bodySpan nodes) other) := by
  intro tokens hwrites hspelled lineEnd bound count keyword start stop hread hbound hcount hchain
    reader
  unfold places at hwrites
  obtain ⟨opening, rest, rfl, -, hopening, hrest⟩ := writes_word.mp hwrites
  obtain ⟨testTokens, rest, rfl, htestWrites, hrest⟩ := writes_append.mp hrest
  obtain ⟨closing, rest, rfl, -, hclosing, hrest⟩ := writes_word.mp hrest
  obtain ⟨bodyTokens, last, rfl, hbodyWrites, hlast⟩ := writes_append.mp hrest
  obtain ⟨afterOpening, hreadOpening, hread⟩ := hread.exists_after_first
  obtain ⟨afterTest, hreadTest, hread⟩ := hread.exists_middle
  obtain ⟨afterClosing, hreadClosing, hread⟩ := hread.exists_after_first
  obtain ⟨afterBody, hreadBody, hreadLast⟩ := hread.exists_middle
  have hopeningLength := hreadOpening.length_ahead
  have htestLength := hreadTest.length_ahead
  have hclosingLength := hreadClosing.length_ahead
  have hbodyLength := hreadBody.length_ahead
  have hspelledTest : ∀ token ∈ testTokens, Spelled token := fun t ht =>
    hspelled t (by simp [ht])
  have hspelledBody : ∀ token ∈ bodyTokens, Spelled token := fun t ht =>
    hspelled t (by simp [ht])
  have hspelledLast : ∀ token ∈ last, Spelled token := fun t ht => hspelled t (by simp [ht])
  -- the expression ends at the parenthesis, since no operator or suffix is next
  have hsettled : afterTest.Settled := settled_of_lexeme hreadClosing (by rw [hclosing]; decide)
  obtain ⟨testTree, htestTree, htestSame, -⟩ :=
    htest.exists_read htestWrites hspelledTest hreadTest hsettled
  have hbodyBound : afterClosing.ahead.length ≤ bound := by omega
  obtain ⟨found, hfound, hfoundSame⟩ :=
    block_read bodySpan hbody hbodyWrites hspelledBody hreadBody hbodyBound
  obtain ⟨otherTree, hotherTree, hotherSame⟩ := hother last hlast hspelledLast lineEnd bound count
    afterBody stop hreadLast (by omega) (by omega) hchain
  refine ⟨.ifStatement (.between keyword.start (if otherTree.isAbsent then found.node.span.stop
    else otherTree.span.stop)) testTree found.node otherTree, ?_, ?_⟩
  · unfold conditional
    refine (Attempt.gives_expect hopening hreadOpening).bind ?_
    refine (Attempt.gives_of_eq_ok htestTree).bind ?_
    refine (Attempt.gives_expect hclosing hreadClosing).bind ?_
    exact (Attempt.gives_of_gives hfound).bind (hotherTree.bind Attempt.gives_pure)
  · unfold Node.withoutSpans at htestSame hfoundSame hotherSame ⊢
    simp only [Node.mapSpans, htestSame, hotherSame] at hfoundSame ⊢
    rw [hfoundSame]

/-- `StatementRead` holds of a conditional of which `ConditionalRead` holds. -/
theorem ConditionalRead.statementRead {span : Span} {test consequent other : Node}
    (h : ConditionalRead (.ifStatement span test consequent other)) :
    StatementRead (.ifStatement span test consequent other) := by
  refine statementRead_of_keyword "if" (places (.ifStatement span test consequent other)).tail
    (by rw [places]; exact List.append_nil _) (by decide) ?_
  intro tokens hwrites hspelled lineEnd bound start middle stop word hkind hlexeme _ hread hbound
    hchain
  obtain ⟨tree, htree, hsame⟩ :=
    h tokens hwrites hspelled lineEnd bound bound word middle stop hread hbound hbound hchain
  refine ⟨ifStatement bound (body (statementWithin lineEnd bound) bound) word, tree, ?_, htree,
    hsame⟩
  simp [keywordStatement?, Token.isKeyword, hkind, hlexeme]

/-! ## Loops -/

/-- `StatementRead` holds of loops with a condition. -/
theorem loop_read {span bodySpan : Span} {test : Node} {nodes : List Node}
    (htest : IsExpression test) (hbody : ∀ node ∈ nodes, StatementRead node) :
    StatementRead (.whileStatement span test (.block bodySpan nodes)) := by
  refine statementRead_of_keyword "while" (places (.whileStatement span test
    (.block bodySpan nodes))).tail (by rw [places]; exact List.append_nil _) (by decide) ?_
  intro tokens hwrites hspelled lineEnd bound start middle stop word hkind hlexeme _ hread hbound _
  unfold places at hwrites
  rw [List.tail_cons] at hwrites
  obtain ⟨opening, rest, rfl, -, hopening, hrest⟩ := writes_word.mp hwrites
  obtain ⟨testTokens, rest, rfl, htestWrites, hrest⟩ := writes_append.mp hrest
  obtain ⟨closing, rest, rfl, -, hclosing, hrest⟩ := writes_word.mp hrest
  obtain ⟨afterOpening, hreadOpening, hread⟩ := hread.exists_after_first
  obtain ⟨afterTest, hreadTest, hread⟩ := hread.exists_middle
  obtain ⟨afterClosing, hreadClosing, hreadBody⟩ := hread.exists_after_first
  have hopeningLength := hreadOpening.length_ahead
  have htestLength := hreadTest.length_ahead
  have hclosingLength := hreadClosing.length_ahead
  -- as in a conditional, the test ends at the parenthesis
  have hsettled : afterTest.Settled := settled_of_lexeme hreadClosing (by rw [hclosing]; decide)
  obtain ⟨tree, htree, hsame, -⟩ := htest.exists_read htestWrites
    (fun t ht => hspelled t (by simp [ht])) hreadTest hsettled
  have hbodyBound : afterClosing.ahead.length ≤ bound := by omega
  obtain ⟨found, hfound, hfoundSame⟩ := block_read bodySpan hbody hrest
    (fun t ht => hspelled t (by simp [ht])) hreadBody hbodyBound
  refine ⟨whileStatement (body (statementWithin lineEnd bound) bound) word,
    .whileStatement (.between word.start found.span.stop) tree found.node, ?_, ?_, ?_⟩
  · simp [keywordStatement?, Token.isKeyword, hkind, hlexeme]
  · unfold whileStatement
    refine (Attempt.gives_expect hopening hreadOpening).bind ?_
    refine (Attempt.gives_of_eq_ok htree).bind ?_
    refine (Attempt.gives_expect hclosing hreadClosing).bind ?_
    exact (Attempt.gives_of_gives hfound).bind Attempt.gives_pure
  · unfold Node.withoutSpans at hsame hfoundSame ⊢
    simp only [Node.mapSpans, hsame] at hfoundSame ⊢
    rw [hfoundSame]

/-- `optionalClause` reads a rendered clause of a loop's head, if it is there, up to the token that
closes it. -/
theorem clause_read {close : String} {clause : Rule Node} {allowed : Prop}
    (h : node = .absent ∨ allowed) (hwrites : Writes (places node) tokens)
    (hread : start.Reads tokens stop) {closing : Token} (hclosing : closing.lexeme = close)
    {more : List Token} {last : Cursor} (hclose : stop.Reads (closing :: more) last)
    (hallowed : allowed → ∃ tree, clause start = .ok (tree, stop) ∧
      tree.withoutSpans = node.withoutSpans ∧
      ∀ token ∈ start.ahead.head?, token.lexeme ≠ close) :
    ∃ tree, optionalClause close clause start = .ok (tree, stop) ∧
      tree.withoutSpans = node.withoutSpans := by
  unfold optionalClause
  rw [Rule.bind_of_eq_ok (Rule.sees_eq_ok_iff.mpr ⟨rfl, rfl⟩)]
  rcases h with rfl | h
  · obtain rfl := writes_nil.mp hwrites
    obtain rfl := hread.eq_of_nil
    have hsees : stop.sees close = true := by rw [hclose.sees_eq, hclosing, beq_self_eq_true]
    exact ⟨.absent, by rw [if_pos hsees]; rfl, rfl⟩
  · obtain ⟨tree, htree, hsame, hfirst⟩ := hallowed h
    have hsees : ¬ start.sees close = true := by
      rw [Cursor.sees_eq_true_iff]
      rintro ⟨token, htoken, heq⟩
      exact hfirst token htoken heq
    exact ⟨tree, by rw [if_neg hsees]; exact htree, hsame⟩

/-- `expressionOrAssignment` reads a rendered expression or assignment as what it is. -/
theorem exists_expressionOrAssignment (h : IsExpression node ∨ IsAssignment node)
    (hwrites : Writes (places node) tokens) (hspelled : ∀ token ∈ tokens, Spelled token)
    (hread : start.Reads tokens stop) (hsettled : stop.Settled)
    (hnext : ∀ token ∈ stop.ahead.head?, token.lexeme ≠ "=") :
    ∃ tree, expressionOrAssignment start = .ok (tree, stop) ∧
      tree.withoutSpans = node.withoutSpans ∧
      ∀ token ∈ start.ahead.head?, token.lexeme ∉ dividingTexts := by
  rcases h with h | h
  · obtain ⟨tree, htree, hsame, hfirst⟩ := h.exists_read hwrites hspelled hread hsettled
    exact ⟨tree, expressionOrAssignment_of_expression htree hnext, hsame, hfirst⟩
  · obtain ⟨span, target, value, hassignment, hsame, hfirst⟩ :=
      h.exists_read hwrites hspelled hread hsettled
    exact ⟨_, hassignment, hsame span, hfirst⟩

/-- `loopInit` reads what a rendered loop starts with. -/
theorem loopInit_read (h : IsDeclaration node ∨ IsExpression node ∨ IsAssignment node)
    (hwrites : Writes (places node) tokens) (hspelled : ∀ token ∈ tokens, Spelled token)
    (hread : start.Reads tokens stop) (hsettled : stop.Settled)
    (hnext : ∀ token ∈ stop.ahead.head?, token.lexeme ≠ "=") :
    ∃ tree, loopInit start = .ok (tree, stop) ∧ tree.withoutSpans = node.withoutSpans ∧
      ∀ token ∈ start.ahead.head?, token.lexeme ≠ ";" := by
  unfold loopInit
  rcases h with h | h
  · rw [h.places_eq] at hwrites
    obtain ⟨word, rest, rfl, -, hword, hrest⟩ := writes_word.mp hwrites
    obtain ⟨middle, hreadWord, hreadRest⟩ := hread.exists_after_first
    obtain ⟨found, hfound, hsame⟩ := h.exists_read hrest
      (fun t ht => hspelled t (List.mem_cons_of_mem _ ht)) hreadRest hsettled hnext word
    refine ⟨found.node found.span.stop, ?_, hsame _, ?_⟩
    · rw [Rule.bind_of_eq_ok (Rule.acceptText_of_eq hword hreadWord)]
      simp only
      rw [Rule.bind_of_eq_ok hfound]
      rfl
    · intro token htoken
      obtain rfl := hread.eq_of_mem_head? htoken
      rw [hword]
      decide
  · obtain ⟨tree, htree, hsame, hfirst⟩ :=
      exists_expressionOrAssignment h hwrites hspelled hread hsettled hnext
    -- no expression starts with the word of a declaration or with the semicolon of an empty clause
    have hne (lexeme : String) (hmem : lexeme ∈ dividingTexts) :
        ∀ token ∈ start.ahead.head?, token.lexeme ≠ lexeme :=
      fun token htoken heq => hfirst token htoken (heq ▸ hmem)
    refine ⟨tree, ?_, hsame, hne ";" (by decide)⟩
    rw [Rule.bind_of_eq_ok (Rule.acceptText_of_ne (hne "var" (by decide)))]
    exact htree

/-- `StatementRead` holds of loops with three clauses. -/
theorem forLoop_read {span bodySpan : Span} {init test update : Node} {nodes : List Node}
    (hinit : init = .absent ∨ IsDeclaration init ∨ IsExpression init ∨ IsAssignment init)
    (htest : test = .absent ∨ IsExpression test)
    (hupdate : update = .absent ∨ IsExpression update ∨ IsAssignment update)
    (hbody : ∀ node ∈ nodes, StatementRead node) :
    StatementRead (.forStatement span init test update (.block bodySpan nodes)) := by
  refine statementRead_of_keyword "for" (places (.forStatement span init test update
    (.block bodySpan nodes))).tail (by rw [places]; exact List.append_nil _) (by decide) ?_
  intro tokens hwrites hspelled lineEnd bound start middle stop word hkind hlexeme _ hread hbound _
  unfold places at hwrites
  rw [List.tail_cons] at hwrites
  obtain ⟨opening, rest, rfl, -, hopening, hrest⟩ := writes_word.mp hwrites
  obtain ⟨initTokens, rest, rfl, hinitWrites, hrest⟩ := writes_append.mp hrest
  obtain ⟨first, rest, rfl, -, hfirst, hrest⟩ := writes_word.mp hrest
  obtain ⟨testTokens, rest, rfl, htestWrites, hrest⟩ := writes_append.mp hrest
  obtain ⟨second, rest, rfl, -, hsecond, hrest⟩ := writes_word.mp hrest
  obtain ⟨updateTokens, rest, rfl, hupdateWrites, hrest⟩ := writes_append.mp hrest
  obtain ⟨closing, bodyTokens, rfl, -, hclosing, hbodyWrites⟩ := writes_word.mp hrest
  obtain ⟨afterOpening, hreadOpening, hread⟩ := hread.exists_after_first
  obtain ⟨afterInit, hreadInit, hread⟩ := hread.exists_middle
  obtain ⟨afterFirst, hreadFirst, hread⟩ := hread.exists_after_first
  obtain ⟨afterTest, hreadTest, hread⟩ := hread.exists_middle
  obtain ⟨afterSecond, hreadSecond, hread⟩ := hread.exists_after_first
  obtain ⟨afterUpdate, hreadUpdate, hread⟩ := hread.exists_middle
  obtain ⟨afterClosing, hreadClosing, hreadBody⟩ := hread.exists_after_first
  obtain ⟨initSettled, initNext⟩ := settled_and_ne hreadFirst hfirst (by decide)
    (show ";" ≠ "=" by decide)
  obtain ⟨testSettled, -⟩ := settled_and_ne hreadSecond hsecond (by decide)
    (show ";" ≠ "=" by decide)
  obtain ⟨updateSettled, updateNext⟩ := settled_and_ne hreadClosing hclosing (by decide)
    (show ")" ≠ "=" by decide)
  obtain ⟨initTree, hinitTree, hinitSame⟩ := clause_read hinit hinitWrites hreadInit hfirst
    hreadFirst fun h => loopInit_read h hinitWrites (fun t ht => hspelled t (by simp [ht]))
      hreadInit initSettled initNext
  -- Each of the three clauses is there or not, which the token behind it settles.
  obtain ⟨testTree, htestTree, htestSame⟩ := clause_read htest htestWrites hreadTest hsecond
    hreadSecond fun h => by
      obtain ⟨tree, htree, hsame, hne⟩ := h.exists_read htestWrites
        (fun t ht => hspelled t (by simp [ht])) hreadTest testSettled
      exact ⟨tree, htree, hsame, fun t ht heq => hne t ht (by rw [heq]; decide)⟩
  obtain ⟨updateTree, hupdateTree, hupdateSame⟩ := clause_read hupdate hupdateWrites hreadUpdate
    hclosing hreadClosing fun h => by
      obtain ⟨tree, htree, hsame, hne⟩ := exists_expressionOrAssignment h hupdateWrites
        (fun t ht => hspelled t (by simp [ht])) hreadUpdate updateSettled updateNext
      exact ⟨tree, htree, hsame, fun t ht heq => hne t ht (by rw [heq]; decide)⟩
  have hbodyBound : afterClosing.ahead.length ≤ bound := by
    have := hreadOpening.length_ahead
    have := hreadInit.length_ahead
    have := hreadFirst.length_ahead
    have := hreadTest.length_ahead
    have := hreadSecond.length_ahead
    have := hreadUpdate.length_ahead
    have := hreadClosing.length_ahead
    omega
  obtain ⟨found, hfound, hfoundSame⟩ := block_read bodySpan hbody hbodyWrites
    (fun t ht => hspelled t (by simp [ht])) hreadBody hbodyBound
  refine ⟨forStatement (body (statementWithin lineEnd bound) bound) word,
    .forStatement (.between word.start found.span.stop) initTree testTree updateTree found.node,
    ?_, ?_, ?_⟩
  · simp [keywordStatement?, Token.isKeyword, hkind, hlexeme]
  · unfold forStatement
    refine (Attempt.gives_expect hopening hreadOpening).bind ?_
    refine (Attempt.gives_of_eq_ok hinitTree).bind ?_
    refine (Attempt.gives_expect hfirst hreadFirst).bind ?_
    refine (Attempt.gives_of_eq_ok htestTree).bind ?_
    refine (Attempt.gives_expect hsecond hreadSecond).bind ?_
    refine (Attempt.gives_of_eq_ok hupdateTree).bind ?_
    refine (Attempt.gives_expect hclosing hreadClosing).bind ?_
    exact (Attempt.gives_of_gives hfound).bind Attempt.gives_pure
  · unfold Node.withoutSpans at hinitSame htestSame hupdateSame hfoundSame ⊢
    simp only [Node.mapSpans, hinitSame, htestSame, hupdateSame] at hfoundSame ⊢
    rw [hfoundSame]

/-! ## Functions and classes -/

/-- `parameter` reads an identifier. -/
theorem parameter_of_isIdentifier {name : Token} (hname : name.isIdentifier = true)
    (h : start.Reads [name] stop) : parameter start = .ok ([name.node], stop) := by
  have haccept : (Rule.accept (·.isIdentifier) : Rule _) start = .ok (some name, stop) :=
    Rule.accept_of_wanted hname h
  unfold parameter
  rw [Rule.bind_of_eq_ok haccept]
  rfl

/-- `moreParameters` read further parameters, each after a comma, up to the parenthesis that closes
them. -/
theorem moreParameters_of_separated {names : List Token} {first : Token}
    (hnames : ∀ name ∈ names, name.isIdentifier = true)
    (hseparated : Separated ([first] :: names.map fun name => [name]) tokens) :
    ∃ rest, tokens = first :: rest ∧ ∀ start middle stop closing count,
      start.Reads rest middle → middle.Reads [closing] stop → closing.lexeme = ")" →
      start.ahead.length ≤ count →
        moreParameters count start = .ok (names.map Token.node, middle) := by
  -- The name before the first comma is read already, so the claim is about what follows it.
  induction names generalizing first tokens with
  | nil =>
    cases hseparated
    refine ⟨[], rfl, ?_⟩
    intro start middle stop closing count hread hclose hclosing _
    obtain rfl := hread.eq_of_nil
    have hcomma : ∀ token ∈ middle.ahead.head?, token.lexeme ≠ "," := by
      intro token htoken
      obtain rfl := hclose.eq_of_mem_head? htoken
      rw [hclosing]
      decide
    cases count with
    | zero => rfl
    | succ count =>
      unfold moreParameters
      rw [Rule.bind_of_eq_ok (Rule.acceptText_of_ne hcomma)]
      rfl
  | cons name names ih =>
    cases hseparated with
    | cons hcomma hrest =>
    rename_i rest comma
    obtain ⟨others, rfl, hmore⟩ := ih (fun n hn => hnames n (List.mem_cons_of_mem _ hn)) hrest
    refine ⟨comma :: name :: others, rfl, ?_⟩
    intro start middle stop closing count hread hclose hclosing hcount
    obtain ⟨afterComma, hreadComma, hread⟩ := hread.exists_after_first
    obtain ⟨afterName, hreadName, hread⟩ := hread.exists_after_first
    have hcommaLength := hreadComma.length_ahead_token
    have hnameLength := hreadName.length_ahead
    obtain ⟨count, rfl⟩ : ∃ n, count = n + 1 := ⟨count - 1, by omega⟩
    have hothers := hmore afterName middle stop closing count hread hclose hclosing (by omega)
    have hparameter := parameter_of_isIdentifier (hnames name List.mem_cons_self) hreadName
    unfold moreParameters
    rw [Rule.bind_of_eq_ok (Rule.acceptText_of_eq hcomma hreadComma)]
    simp only
    rw [Rule.bind_of_eq_ok hparameter, Rule.bind_of_eq_ok hothers]
    rfl

/-- `parameters` read rendered parameters up to the parenthesis that closes them. -/
theorem parameters_read {params : List (Span × String)} (hparams : ∀ param ∈ params, IsName param.2)
    (hwrites : Writes (listPlaces (placesOfAll
      (params.map fun param => .identifier param.1 param.2))) tokens)
    (hspelled : ∀ token ∈ tokens, Spelled token) (hread : start.Reads tokens middle)
    {closing : Token} (hclosing : closing.lexeme = ")") (hclose : middle.Reads [closing] stop)
    (hbound : start.ahead.length ≤ bound) :
    ∃ trees, parameters bound start = .ok (trees, middle) ∧ trees.map Node.withoutSpans =
      (params.map fun param => Node.identifier param.1 param.2).map Node.withoutSpans := by
  rw [placesOfAll_eq_map, List.map_map] at hwrites
  have hnames : ∀ param ∈ params, ∀ tokens,
      Writes ((places ∘ fun param : Span × String => .identifier param.1 param.2) param) tokens →
      ∃ name : Token, [name] = tokens ∧ name.isIdentifier = true ∧ name.node.withoutSpans =
        (Node.identifier param.1 param.2).withoutSpans := by
    intro param hparam tokens hwrites
    rw [Function.comp_apply, places] at hwrites
    obtain ⟨name, rest, rfl, hkind, hlexeme, hrest⟩ :=
      (writes_identifier (hparams param hparam)).mp hwrites
    obtain rfl := writes_nil.mp hrest
    exact ⟨name, rfl, beq_iff_eq.mpr hkind, by simp [Token.node, Node.withoutSpans, Node.mapSpans,
      hlexeme]⟩
  obtain ⟨names, hseparated, hvalid, hsame⟩ := exists_parts hnames hwrites
  refine ⟨names.map Token.node, ?_, by rw [List.map_map, List.map_map]; exact hsame⟩
  unfold parameters
  rw [Rule.bind_of_eq_ok (Rule.sees_eq_ok_iff.mpr ⟨rfl, rfl⟩)]
  cases names with
  | nil =>
    cases hseparated
    obtain rfl := hread.eq_of_nil
    rw [hclose.sees_eq, hclosing, beq_self_eq_true, if_pos rfl]
    rfl
  | cons name names =>
    obtain ⟨rest, rfl, hmore⟩ := moreParameters_of_separated
      (fun n hn => hvalid n (List.mem_cons_of_mem _ hn)) hseparated
    obtain ⟨afterName, hreadName, hreadRest⟩ := hread.exists_after_first
    have hlength := hreadName.length_ahead
    have hothers := hmore afterName middle stop closing bound hreadRest hclose hclosing (by omega)
    have hidentifier := hvalid name List.mem_cons_self
    -- A name is not spelled as the closing parenthesis, so the list is not empty.
    have hnot : (name.lexeme == ")") = false := by
      have hname := hspelled name List.mem_cons_self
      unfold Spelled at hname
      rw [beq_iff_eq.mp hidentifier] at hname
      rw [beq_eq_false_iff_ne]
      intro heq
      rw [heq] at hname
      exact absurd hname (by decide)
    have hparameter := parameter_of_isIdentifier hidentifier hreadName
    rw [hread.sees_eq, hnot, if_neg Bool.false_ne_true]
    rw [Rule.bind_of_eq_ok hparameter, Rule.bind_of_eq_ok hothers]
    rfl

/-- `StatementRead` holds of functions. -/
theorem function_read {span nameSpan bodySpan : Span} {name : String}
    {params : List (Span × String)} {nodes : List Node} (hname : IsName name)
    (hparams : ∀ param ∈ params, IsName param.2) (hbody : ∀ node ∈ nodes, StatementRead node) :
    StatementRead (.functionDeclaration span (.identifier nameSpan name)
      (params.map fun param => .identifier param.1 param.2) (.block bodySpan nodes)) := by
  refine statementRead_of_keyword "fun" (places (.functionDeclaration span
    (.identifier nameSpan name) (params.map fun param => .identifier param.1 param.2)
    (.block bodySpan nodes))).tail (by rw [places]; exact List.append_nil _) (by decide) ?_
  intro tokens hwrites hspelled lineEnd bound start middle stop word hkind hlexeme _ hread hbound _
  unfold places at hwrites
  rw [List.tail_cons, places] at hwrites
  obtain ⟨nameToken, rest, rfl, hnameKind, hnameLexeme, hrest⟩ :=
    (writes_identifier hname).mp hwrites
  obtain ⟨opening, rest, rfl, -, hopening, hrest⟩ := writes_word.mp hrest
  obtain ⟨paramTokens, rest, rfl, hparamWrites, hrest⟩ := writes_append.mp hrest
  obtain ⟨closing, bodyTokens, rfl, -, hclosing, hbodyWrites⟩ := writes_word.mp hrest
  obtain ⟨afterName, hreadName, hread⟩ := hread.exists_after_first
  obtain ⟨afterOpening, hreadOpening, hread⟩ := hread.exists_after_first
  obtain ⟨afterParams, hreadParams, hread⟩ := hread.exists_middle
  obtain ⟨afterClosing, hreadClosing, hreadBody⟩ := hread.exists_after_first
  have hnameLength := hreadName.length_ahead
  have hopeningLength := hreadOpening.length_ahead
  have hparamsLength := hreadParams.length_ahead
  have hclosingLength := hreadClosing.length_ahead
  have hparamsBound : afterOpening.ahead.length ≤ bound := by omega
  have hbodyBound : afterClosing.ahead.length ≤ bound := by omega
  obtain ⟨trees, htrees, hsame⟩ := parameters_read hparams hparamWrites
    (fun t ht => hspelled t (by simp [ht])) hreadParams hclosing hreadClosing hparamsBound
  obtain ⟨found, hfound, hfoundSame⟩ := block_read bodySpan hbody hbodyWrites
    (fun t ht => hspelled t (by simp [ht])) hreadBody hbodyBound
  -- each part is read by its own reader; the bounds above say that these have tokens enough
  have hnameRead : Rule.name .functionName middle = .ok (nameToken.node, afterName) :=
    Rule.name_eq_ok_iff.mpr ⟨nameToken, beq_iff_eq.mpr hnameKind, rfl, hreadName⟩
  refine ⟨functionStatement bound (body (statementWithin lineEnd bound) bound) word,
    .functionDeclaration (.between word.start found.span.stop) nameToken.node trees found.node,
    ?_, ?_, ?_⟩
  · simp [keywordStatement?, Token.isKeyword, hkind, hlexeme]
  · unfold functionStatement
    refine (Attempt.gives_of_eq_ok hnameRead).bind ?_
    refine (Attempt.gives_expect hopening hreadOpening).bind ?_
    refine (Attempt.gives_of_eq_ok htrees).bind ?_
    refine (Attempt.gives_expect hclosing hreadClosing).bind ?_
    exact (Attempt.gives_of_gives hfound).bind Attempt.gives_pure
  · unfold Node.withoutSpans at hsame hfoundSame ⊢
    simp only [Node.mapSpans, Token.node, hnameLexeme, Node.mapSpansOfAll_eq_map, hsame]
      at hfoundSame ⊢
    rw [hfoundSame]

/-- `StatementRead` holds of classes. -/
theorem class_read {span nameSpan bodySpan : Span} {name : String} {nodes : List Node}
    (hname : IsName name) (hbody : ∀ node ∈ nodes, StatementRead node) :
    StatementRead (.classDeclaration span (.identifier nameSpan name) (.block bodySpan nodes)) := by
  refine statementRead_of_keyword "class" (places (.classDeclaration span
    (.identifier nameSpan name) (.block bodySpan nodes))).tail
    (by rw [places]; exact List.append_nil _) (by decide) ?_
  intro tokens hwrites hspelled lineEnd bound start middle stop word hkind hlexeme _ hread hbound _
  unfold places at hwrites
  rw [List.tail_cons, places] at hwrites
  obtain ⟨nameToken, rest, rfl, hnameKind, hnameLexeme, hbodyWrites⟩ :=
    (writes_identifier hname).mp hwrites
  obtain ⟨afterName, hreadName, hreadBody⟩ := hread.exists_after_first
  have hnameLength := hreadName.length_ahead
  have hbodyBound : afterName.ahead.length ≤ bound := by omega
  obtain ⟨found, hfound, hfoundSame⟩ := block_read bodySpan hbody hbodyWrites
    (fun t ht => hspelled t (List.mem_cons_of_mem _ ht)) hreadBody hbodyBound
  have hnameRead : Rule.name .className middle = .ok (nameToken.node, afterName) :=
    Rule.name_eq_ok_iff.mpr ⟨nameToken, beq_iff_eq.mpr hnameKind, rfl, hreadName⟩
  -- the brace is only looked at here, and read with the body
  have hahead : classBodyAhead afterName = .ok ((), afterName) := by
    obtain ⟨opening, others, rfl, -, hopening, -⟩ := writes_word.mp hbodyWrites
    unfold classBodyAhead
    rw [Rule.bind_of_eq_ok (Rule.sees_eq_ok_iff.mpr ⟨rfl, rfl⟩), hreadBody.sees_eq, hopening,
      beq_self_eq_true, if_pos rfl]
    rfl
  refine ⟨classStatement (body (statementWithin lineEnd bound) bound) word,
    .classDeclaration (.between word.start found.span.stop) nameToken.node found.node, ?_, ?_, ?_⟩
  · simp [keywordStatement?, Token.isKeyword, hkind, hlexeme]
  · unfold classStatement
    refine (Attempt.gives_of_eq_ok hnameRead).bind ?_
    refine (Attempt.gives_of_eq_ok hahead).bind ?_
    exact (Attempt.gives_of_gives hfound).bind Attempt.gives_pure
  · unfold Node.withoutSpans at hfoundSame ⊢
    simp only [Node.mapSpans, Token.node, hnameLexeme] at hfoundSame ⊢
    rw [hfoundSame]

/-! ## Every statement is read -/

/-- What is claimed of a statement: of a conditional, `ConditionalRead`, and of any other,
`StatementRead`. -/
def Readable : Node → Prop
  | .ifStatement span test consequent other =>
    ConditionalRead (.ifStatement span test consequent other)
  | node => StatementRead node

/-- `StatementRead` holds of a statement of which `Readable` does. -/
theorem Readable.statementRead (h : Readable node) : StatementRead node := by
  cases node with
  | ifStatement span test consequent other => exact ConditionalRead.statementRead h
  | _ => exact h

/-- `StatementRead` holds of every statement. -/
theorem IsStatement.read (h : IsStatement node) : StatementRead node := by
  -- The induction needs more of a conditional than of a statement, as a chain may go on with it.
  suffices hreadable : Readable node from hreadable.statementRead
  have hall {nodes : List Node} (h : ∀ node ∈ nodes, Readable node) :
      ∀ node ∈ nodes, StatementRead node := fun node hnode => (h node hnode).statementRead
  induction h with
  | declaration h =>
    have hread := h.statementRead
    obtain ⟨-, -, -⟩ := h
    exact hread
  | assignment h hstarts =>
    have hread := h.statementRead hstarts
    obtain ⟨-, -⟩ := h
    exact hread
  | expression h hstarts => exact h.statementRead hstarts _
  | returns h => exact return_read h
  | conditional htest _ ih => exact conditional_read htest (hall ih) alternateRead_absent
  | conditionalElse htest _ _ ih ihother =>
    exact conditional_read htest (hall ih) (alternateRead_block (hall ihother))
  | conditionalChain htest _ _ ih ihnext =>
    exact conditional_read htest (hall ih) (ConditionalRead.alternateRead ihnext)
  | loop htest _ ih => exact loop_read htest (hall ih)
  | forLoop hinit htest hupdate _ ih => exact forLoop_read hinit htest hupdate (hall ih)
  | function hname hparams _ ih => exact function_read hname hparams (hall ih)
  | declaredClass hname _ ih => exact class_read hname (hall ih)

end NeutronLang.Rendering
