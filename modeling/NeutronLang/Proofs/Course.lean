import NeutronLang.Grammar.Statement
import NeutronLang.Proofs.Derivation
import NeutronLang.Proofs.FramedReaders

/-!
# The grammar of statements, with recovery

`Course` says how the reading of statements may go: which tokens the words and the signs of a
construct are read from, which of them its expressions, where the bodies and lists inside it begin
and end, and what stands on the record afterwards. It mentions no bounds, so each derivation is a
finite account of a reading from its first token to its last, and it leads forward
(`Course.reads`): whatever is read is read by `Cursor.Reads`, and a recovery is the search for
the next boundary from where the attempt failed.
-/

namespace NeutronLang

/-- A failure is that of the place where it is found: no expression starts there
(`Failure.unexpected`), or what is wanted is missing there (`Failure.missing`). -/
def Failure.IsDue (failure : Failure) : Prop :=
  failure = failure.cursor.unexpected ∨ ∃ wanted, failure = failure.cursor.missing wanted

/-- The span of what is read from `start` to `stop`: that from the first token to the last or, at
the end of the tokens, the place after the last one. -/
inductive Cursor.Spans (start stop : Cursor) : Span → Prop where
  | ends : start.ahead = [] → Spans start stop (.point start.lastStop)
  | tokens {first last : Token} : first ∈ start.ahead.head? → last ∈ stop.behind.head? →
      Spans start stop (.between first.start last.stop)

/-- `boundaryFrom` comes past no token with which a statement starts, and it may stop behind a
semicolon. -/
theorem Cursor.boundaryFrom_cases (behind ahead : List Token) :
    ∃ skipped stopped, Cursor.Reads ⟨behind, ahead⟩ (skipped ++ Option.toList stopped)
        (boundaryFrom behind ahead) ∧
      (∀ token ∈ skipped, token.startsStatement = false) ∧
      ∀ semicolon ∈ stopped, semicolon.lexeme = ";" := by
  fun_induction boundaryFrom behind ahead with
  | case1 behind => exact ⟨[], none, .refl _, by simp, by simp⟩
  | case2 behind token ahead hsemicolon =>
    exact ⟨[], some token, ⟨rfl, rfl⟩, by simp, by simpa using hsemicolon⟩
  | case3 behind token ahead => exact ⟨[], none, .refl _, by simp, by simp⟩
  | case4 behind token ahead hsemicolon hboundary ih =>
    obtain ⟨skipped, stopped, hread, hskipped, hstopped⟩ := ih
    have hfirst : Cursor.Reads ⟨behind, token :: ahead⟩ [token] ⟨token :: behind, ahead⟩ :=
      ⟨rfl, rfl⟩
    have htoken : token.startsStatement = false := by
      simp only [isBoundary, Bool.or_eq_true, not_or, Bool.not_eq_true] at hboundary
      exact hboundary.2
    exact ⟨token :: skipped, stopped, hfirst.cons hread,
      List.forall_mem_cons.mpr ⟨htoken, hskipped⟩, hstopped⟩

namespace Grammar

/-! ## Parts of statements -/

/-- The phrases of expressions (`Derives`) that may be left out. -/
inductive DerivesOptional : List Token → Node → Prop where
  | absent : DerivesOptional [] .absent
  | expression {tokens : List Token} {tree : Node} : Derives 1 tokens tree →
      DerivesOptional tokens tree

/-- The phrases of expressions (`Derives`) and of assignments to a name. -/
inductive DerivesAssignable : List Token → Node → Prop where
  | expression {tokens : List Token} {tree : Node} : Derives 1 tokens tree →
      DerivesAssignable tokens tree
  | assignment {equals : Token} {targetTokens valueTokens : List Token} {span : Span}
      {name : String} {value : Node} : Derives 1 targetTokens (.identifier span name) →
      equals.lexeme = "=" → Derives 1 valueTokens value →
      DerivesAssignable (targetTokens ++ equals :: valueTokens)
        (.assignment (.between span.start value.span.stop) "=" (.identifier span name) value)

/-- The phrases of initial values, with their equals sign. Without one the value is
`Node.absent`. -/
inductive DerivesInitial : List Token → Node → Prop where
  | absent : DerivesInitial [] .absent
  | value {equals : Token} {tokens : List Token} {tree : Node} : equals.lexeme = "=" →
      Derives 1 tokens tree → DerivesInitial (equals :: tokens) tree

/-- The phrases of declarations, after their `keyword` and without their semicolon. -/
inductive DerivesBinding (keyword : Token) : List Token → Binding → Prop where
  | mk {type : Option Token} {name : Token} {tokens : List Token} {init : Node} :
      (∀ token ∈ type, isTypeName token = true) → name.isIdentifier = true →
      DerivesInitial tokens init →
      DerivesBinding keyword (type.toList ++ name :: tokens)
        ⟨keyword.start, type.map (·.lexeme), name.node, init⟩

/-- The phrases that a loop can start with: nothing, a declaration (`DerivesBinding`) or what
`DerivesAssignable` allows. -/
inductive DerivesLoopInit : List Token → Node → Prop where
  | absent : DerivesLoopInit [] .absent
  | binding {keyword : Token} {tokens : List Token} {found : Binding} : keyword.lexeme = "var" →
      DerivesBinding keyword tokens found →
      DerivesLoopInit (keyword :: tokens) (found.node found.span.stop)
  | assignable {tokens : List Token} {tree : Node} : DerivesAssignable tokens tree →
      DerivesLoopInit tokens tree

/-- The phrases that the last clause of a loop can be: nothing, or what `DerivesAssignable`
allows. -/
inductive DerivesLoopUpdate : List Token → Node → Prop where
  | absent : DerivesLoopUpdate [] .absent
  | assignable {tokens : List Token} {tree : Node} : DerivesAssignable tokens tree →
      DerivesLoopUpdate tokens tree

/-- The phrases of parameters, of which the `names` are those of the function. -/
inductive DerivesParameters : List Token → List Node → Prop where
  | mk {tokens names : List Token} : names.Sublist tokens →
      (∀ name ∈ names, name.isIdentifier = true) → DerivesParameters tokens (names.map Token.node)

/-- The tree of an expression or of an assignment starts where one of its tokens does. -/
theorem DerivesAssignable.exists_start {tokens : List Token} {tree : Node}
    (h : DerivesAssignable tokens tree) : ∃ token ∈ tokens, tree.span.start = token.start := by
  cases h with
  | expression h => exact h.exists_start
  | assignment h =>
    obtain ⟨token, htoken, hstart⟩ := h.exists_start
    exact ⟨token, List.mem_append_left _ htoken, hstart⟩

/-- A declaration starts with its keyword. -/
theorem DerivesBinding.start_eq {keyword : Token} {tokens : List Token} {found : Binding}
    (h : DerivesBinding keyword tokens found) : found.start = keyword.start := by
  cases h
  rfl

/-- Where a statement ends, whose last part ends at `offset`: with a semicolon, or there. -/
inductive Ends (lineEnd : Int → Int) (after : Clause) (offset : Int) (start : Cursor) :
    (final : Int) → (stop : Cursor) → Event → Prop where
  | semicolon {token : Token} {stop : Cursor} : token.lexeme = ";" → start.Reads [token] stop →
      Ends lineEnd after offset start token.stop stop (.terminated after start.index)
  | missing : (∀ token ∈ start.ahead.head?, token.lexeme ≠ ";") →
      Ends lineEnd after offset start offset start
        (.unterminated (.missingSemicolon after offset (lineEnd offset)) start.index)

/-! ## Statements -/

/-- Whether a token is the reserved word `lexeme`. -/
def isWord (lexeme : String) (token : Token) : Bool := token.isKeyword && token.lexeme == lexeme

/-- What statements are made of, with what reading it gives. A `Course` is one of such a phrase. -/
inductive Phrase where
  /-- A place where a statement is looked for, and the statement if one is read. -/
  | statement (answer : Option Node)
  /-- Statements up to the token that closes them or, without one, up to the end. -/
  | list (closing : Option String) (nodes : List Node)
  | body (body : Body)
  /-- An attempt at a statement, which may fail. -/
  | attempt (result : Except Failure Node)
  /-- A conditional after its keyword. -/
  | conditional (keyword : Token) (result : Except Failure Node)
  /-- What follows the body of a conditional. -/
  | alternate (result : Except Failure Node)

/-- The node of a conditional, from its `keyword` to the last of its bodies. -/
def conditionalNode (keyword : Token) (test : Node) (consequent : Body) (alternate : Node) : Node :=
  .ifStatement (.between keyword.start
    (if alternate.isAbsent then consequent.span.stop else alternate.span.stop))
    test consequent.node alternate

/-- The courses that reading may take: from a place, what is read (a `Phrase`), up to a place, with
a record. -/
inductive Course (lineEnd : Int → Int) : Cursor → Phrase → Cursor → List Event → Prop where
  -- Lists.
  | listEnd {closing : Option String} {start : Cursor} :
      (start.atEnd || closing.any start.sees) = true →
      Course lineEnd start (.list closing []) start []
  | listStep {closing : Option String} {start middle stop : Cursor} {answer : Option Node}
      {rest : List Node} {events more : List Event} :
      (start.atEnd || closing.any start.sees) = false →
      Course lineEnd start (.statement answer) middle events →
      Course lineEnd middle (.list closing rest) stop more →
      Course lineEnd start (.list closing (answer.toList ++ rest)) stop (events ++ more)
  -- Bodies.
  | closedBody {start inner last stop : Cursor} {opening closing : Token} {nodes : List Node}
      {events : List Event} : opening.lexeme = "\x7b" → start.Reads [opening] inner →
      Course lineEnd inner (.list (some "\x7d") nodes) last events →
      closing.lexeme = "\x7d" → last.Reads [closing] stop →
      Course lineEnd start (.body ⟨.between opening.start closing.stop, nodes⟩) stop
        (events ++ [.closed start.index last.index])
  | unclosedBody {start inner stop : Cursor} {opening last : Token} {nodes : List Node}
      {events : List Event} : opening.lexeme = "\x7b" → start.Reads [opening] inner →
      Course lineEnd inner (.list (some "\x7d") nodes) stop events →
      stop.ahead = [] → last ∈ stop.behind.head? →
      Course lineEnd start (.body ⟨.between opening.start last.stop, nodes⟩) stop
        (events ++ [.unclosed start.index])
  | singleBody {start stop : Cursor} {span : Span} {answer : Option Node} {events : List Event} :
      (∀ token ∈ start.ahead.head?, token.lexeme ≠ "\x7b") →
      Course lineEnd start (.statement answer) stop events → start.Spans stop span →
      Course lineEnd start (.body ⟨span, answer.toList⟩) stop events
  -- Statements.
  | atEnd {start : Cursor} : start.ahead = [] → Course lineEnd start (.statement none) start []
  | skipped {start middle : Cursor} {token : Token} : token.startsStatement = false →
      start.Reads [token] middle →
      Course lineEnd start (.statement none) middle.synchronize
        [.began start.index, .skipped token start.index middle.synchronize.index]
  | completed {start stop : Cursor} {node : Node} {events : List Event} :
      Course lineEnd start (.attempt (.ok node)) stop events →
      Course lineEnd start (.statement (some node)) stop
        (.began start.index :: (events ++ [.completed start.index stop.index]))
  | abandoned {start : Cursor} {failure : Failure} {events : List Event} :
      Course lineEnd start (.attempt (.error failure)) failure.cursor events →
      Course lineEnd start (.statement none) failure.cursor.synchronize
        (.began start.index :: (events ++ [.abandoned failure.error start.index
          failure.cursor.index failure.cursor.synchronize.index]))
  -- Attempts.
  | declaration {start middle last stop : Cursor} {keyword : Token} {tokens : List Token}
      {found : Binding} {final : Int} {event : Event} : isWord "var" keyword = true →
      start.Reads [keyword] middle → DerivesBinding keyword tokens found →
      middle.Reads tokens last →
      Ends lineEnd .variableDeclaration found.span.stop last final stop event →
      Course lineEnd start (.attempt (.ok (found.node final))) stop [event]
  | ifStatement {start middle stop : Cursor} {keyword : Token} {result : Except Failure Node}
      {events : List Event} : isWord "if" keyword = true → start.Reads [keyword] middle →
      Course lineEnd middle (.conditional keyword result) stop events →
      Course lineEnd start (.attempt result) stop events
  | whileStatement {start inner stop : Cursor} {keyword opening closing : Token}
      {tokens : List Token} {test : Node} {body : Body} {events : List Event} :
      isWord "while" keyword = true → opening.lexeme = "(" → Derives 1 tokens test →
      closing.lexeme = ")" →
      start.Reads (keyword :: opening :: (tokens ++ [closing])) inner →
      Course lineEnd inner (.body body) stop events →
      Course lineEnd start
        (.attempt (.ok (.whileStatement (.between keyword.start body.span.stop) test body.node)))
        stop events
  | forStatement {start inner stop : Cursor} {keyword opening first second closing : Token}
      {initTokens testTokens updateTokens : List Token} {init test update : Node} {body : Body}
      {events : List Event} : isWord "for" keyword = true → opening.lexeme = "(" →
      DerivesLoopInit initTokens init → first.lexeme = ";" →
      DerivesOptional testTokens test → second.lexeme = ";" →
      DerivesLoopUpdate updateTokens update → closing.lexeme = ")" →
      start.Reads (keyword :: opening :: (initTokens ++ first :: (testTokens ++ second ::
        (updateTokens ++ [closing])))) inner →
      Course lineEnd inner (.body body) stop events →
      Course lineEnd start (.attempt (.ok
        (.forStatement (.between keyword.start body.span.stop) init test update body.node)))
        stop events
  | function {start inner stop : Cursor} {keyword name opening closing : Token}
      {tokens : List Token} {params : List Node} {body : Body} {events : List Event} :
      isWord "fun" keyword = true → name.isIdentifier = true → opening.lexeme = "(" →
      DerivesParameters tokens params → closing.lexeme = ")" →
      start.Reads (keyword :: name :: opening :: (tokens ++ [closing])) inner →
      Course lineEnd inner (.body body) stop events →
      Course lineEnd start (.attempt (.ok (.functionDeclaration
        (.between keyword.start body.span.stop) name.node params body.node))) stop events
  | classDeclaration {start inner stop : Cursor} {keyword name : Token} {body : Body}
      {events : List Event} : isWord "class" keyword = true → name.isIdentifier = true →
      start.Reads [keyword, name] inner → inner.sees "\x7b" = true →
      Course lineEnd inner (.body body) stop events →
      Course lineEnd start (.attempt (.ok (.classDeclaration
        (.between keyword.start body.span.stop) name.node body.node))) stop events
  | returns {start stop : Cursor} {keyword last : Token} {semicolon : Option Token}
      {tokens : List Token} {argument : Node} : isWord "return" keyword = true →
      DerivesOptional tokens argument → (∀ token ∈ semicolon, token.lexeme = ";") →
      start.Reads (keyword :: (tokens ++ semicolon.toList)) stop → last ∈ stop.behind.head? →
      Course lineEnd start
        (.attempt (.ok (.returnStatement (.between keyword.start last.stop) argument))) stop []
  | expression {start last stop : Cursor} {first : Token} {tokens : List Token} {tree : Node}
      {final : Int} {event : Event} : first.isIdentifier = true →
      Derives 1 (first :: tokens) tree → start.Reads (first :: tokens) last →
      Ends lineEnd .statement tree.span.stop last final stop event →
      Course lineEnd start
        (.attempt (.ok (.expressionStatement (.between tree.span.start final) tree))) stop [event]
  | assignment {start last stop : Cursor} {first : Token} {tokens : List Token}
      {span : Span} {operator : String} {target value : Node} {final : Int} {event : Event} :
      first.isIdentifier = true →
      DerivesAssignable (first :: tokens) (.assignment span operator target value) →
      start.Reads (first :: tokens) last →
      Ends lineEnd .assignment span.stop last final stop event →
      Course lineEnd start
        (.attempt (.ok (.assignment (.between span.start final) operator target value))) stop
        [event]
  | failed {start : Cursor} {token : Token} {read : List Token} {failure : Failure} :
      token.startsStatement = true → failure.IsDue →
      start.Reads (token :: read) failure.cursor →
      Course lineEnd start (.attempt (.error failure)) failure.cursor []
  -- Conditionals.
  | conditional {start inner last stop : Cursor} {keyword opening closing : Token}
      {tokens : List Token} {test : Node} {consequent : Body} {result : Except Failure Node}
      {events more : List Event} : opening.lexeme = "(" → Derives 1 tokens test →
      closing.lexeme = ")" → start.Reads (opening :: (tokens ++ [closing])) inner →
      Course lineEnd inner (.body consequent) last events →
      Course lineEnd last (.alternate result) stop more →
      Course lineEnd start
        (.conditional keyword (result.map (conditionalNode keyword test consequent))) stop
        (events ++ more)
  | conditionalFailed {start : Cursor} {keyword : Token} {read : List Token} {failure : Failure} :
      failure.IsDue → start.Reads read failure.cursor →
      Course lineEnd start (.conditional keyword (.error failure)) failure.cursor []
  | noAlternate {start : Cursor} :
      (∀ token ∈ start.ahead.head?, token.lexeme ∉ ["else", "elif"]) →
      Course lineEnd start (.alternate (.ok .absent)) start []
  | otherwise {start middle stop : Cursor} {word : Token} {body : Body} {events : List Event} :
      word.lexeme = "else" → start.Reads [word] middle →
      (∀ token ∈ middle.ahead.head?, token.lexeme ≠ "if") →
      Course lineEnd middle (.body body) stop events →
      Course lineEnd start (.alternate (.ok body.node)) stop events
  | elseIf {start middle stop : Cursor} {word keyword : Token} {result : Except Failure Node}
      {events : List Event} : word.lexeme = "else" → keyword.lexeme = "if" →
      start.Reads [word, keyword] middle →
      Course lineEnd middle (.conditional keyword result) stop events →
      Course lineEnd start (.alternate result) stop events
  | elif {start middle stop : Cursor} {keyword : Token} {result : Except Failure Node}
      {events : List Event} : keyword.lexeme = "elif" → start.Reads [keyword] middle →
      Course lineEnd middle (.conditional keyword result) stop events →
      Course lineEnd start (.alternate result) stop events

/-! ## Courses lead forward -/

variable {lineEnd : Int → Int} {start stop : Cursor} {events : List Event} {phrase : Phrase}

/-- Whether a phrase takes at least one token, if there is one. -/
def Phrase.Moves : Phrase → Prop
  | .statement _ | .body _ | .attempt _ => True
  | .list .. | .conditional .. | .alternate _ => False

/-- The tokens with which a statement `Ends` are a semicolon or none. -/
theorem Ends.reads {after : Clause} {offset final : Int} {event : Event}
    (h : Ends lineEnd after offset start final stop event) : ∃ read, start.Reads read stop := by
  cases h with
  | semicolon _ hread => exact ⟨_, hread⟩
  | missing => exact ⟨[], .refl _⟩

/-- `synchronize` leads forward. -/
theorem exists_reads_synchronize (cursor : Cursor) :
    ∃ read, cursor.Reads read cursor.synchronize :=
  Attempt.exists_reads_boundaryFrom cursor.behind cursor.ahead

/-- A `Course` leads forward, and past the first token of what takes one. -/
theorem Course.reads (h : Course lineEnd start phrase stop events) :
    ∃ read, start.Reads read stop ∧ (phrase.Moves → start.ahead ≠ [] → read ≠ []) := by
  induction h with
  | listEnd | noAlternate => exact ⟨[], .refl _, by rintro ⟨⟩⟩
  | listStep _ _ _ ih ihrest =>
    obtain ⟨read, hread, -⟩ := ih
    obtain ⟨more, hmore, -⟩ := ihrest
    exact ⟨_, hread.trans hmore, by rintro ⟨⟩⟩
  | closedBody _ hopening _ _ hclosing ih =>
    obtain ⟨read, hread, -⟩ := ih
    exact ⟨_, hopening.cons (hread.trans hclosing), by simp⟩
  | unclosedBody _ hopening _ _ _ ih =>
    obtain ⟨read, hread, -⟩ := ih
    exact ⟨_, hopening.cons hread, by simp⟩
  | singleBody _ _ _ ih => exact ih
  | atEnd hend => exact ⟨[], .refl _, fun _ hne => absurd hend hne⟩
  | @skipped _ middle _ _ hread =>
    obtain ⟨more, hmore⟩ := exists_reads_synchronize middle
    exact ⟨_, hread.cons hmore, by simp⟩
  | completed _ ih => exact ih
  | @abandoned _ failure _ _ ih =>
    obtain ⟨read, hread, hne⟩ := ih
    obtain ⟨more, hmore⟩ := exists_reads_synchronize failure.cursor
    -- the attempt has taken a token, and recovery never goes back behind it
    exact ⟨_, hread.trans hmore,
      fun _ hahead => List.append_ne_nil_of_left_ne_nil (hne trivial hahead) _⟩
  | declaration _ hkeyword _ hread hends =>
    obtain ⟨more, hmore⟩ := hends.reads
    exact ⟨_, hkeyword.cons (hread.trans hmore), by simp⟩
  | ifStatement _ hkeyword _ ih =>
    obtain ⟨read, hread, -⟩ := ih
    exact ⟨_, hkeyword.cons hread, by simp⟩
  | whileStatement _ _ _ _ hhead _ ih | forStatement _ _ _ _ _ _ _ _ hhead _ ih
  | function _ _ _ _ _ hhead _ ih | classDeclaration _ _ hhead _ _ ih =>
    obtain ⟨read, hread, -⟩ := ih
    exact ⟨_, hhead.trans hread, by simp⟩
  | returns _ _ _ hread _ => exact ⟨_, hread, by simp⟩
  | expression _ _ hread hends | assignment _ _ hread hends =>
    obtain ⟨more, hmore⟩ := hends.reads
    exact ⟨_, hread.trans hmore, by simp⟩
  | failed _ _ hread => exact ⟨_, hread, by simp⟩
  | conditional _ _ _ hhead _ _ ih ihrest =>
    obtain ⟨read, hread, -⟩ := ih
    obtain ⟨more, hmore, -⟩ := ihrest
    exact ⟨_, hhead.trans (hread.trans hmore), by rintro ⟨⟩⟩
  | conditionalFailed _ hread => exact ⟨_, hread, by rintro ⟨⟩⟩
  | otherwise _ hword _ _ ih | elseIf _ _ hword _ ih | elif _ hword _ ih =>
    obtain ⟨read, hread, -⟩ := ih
    exact ⟨_, hword.trans hread, by rintro ⟨⟩⟩

/-- The `Course` of a list goes on to the token that closes it or to the end. -/
theorem Course.ends {closing : Option String} {nodes : List Node}
    (h : Course lineEnd start (.list closing nodes) stop events) :
    (stop.atEnd || closing.any stop.sees) = true := by
  generalize hlist : Phrase.list closing nodes = phrase at h
  induction h generalizing nodes with
  | listEnd hends =>
    cases hlist
    exact hends
  | listStep _ _ _ _ ih =>
    cases hlist
    exact ih rfl
  | _ => cases hlist

/-- The `Course` of a list that ends before another token than the one that closes it is at the
end. -/
theorem Course.ahead_eq_nil {closing : String} {nodes : List Node}
    (h : Course lineEnd start (.list (some closing) nodes) stop events)
    (hne : ∀ token ∈ stop.ahead.head?, token.lexeme ≠ closing) : stop.ahead = [] := by
  have hends := h.ends
  have hsees : stop.sees closing = false := by
    rw [Bool.eq_false_iff, ne_eq, Cursor.sees_eq_true_iff]
    rintro ⟨token, htoken, hlexeme⟩
    exact hne token htoken hlexeme
  rw [Option.any_some, hsees, Bool.or_false] at hends
  exact List.isEmpty_iff.mp hends

/-- `startsStatement` holds of a word that is reserved for statements. -/
theorem startsStatement_of_isWord {lexeme : String} {token : Token}
    (h : isWord lexeme token = true) (hmem : statementKeywords.contains lexeme = true) :
    token.startsStatement = true := by
  simp only [isWord, Bool.and_eq_true, beq_iff_eq] at h
  simp only [Token.startsStatement, h.1, h.2, hmem, Bool.and_self, Bool.or_true]

/-- `startsStatement` holds of a name that is not reserved. -/
theorem startsStatement_of_isIdentifier {token : Token} (h : token.isIdentifier = true) :
    token.startsStatement = true := by
  rw [Token.startsStatement, h, Bool.true_or]

/-- The `Course` of an attempt begins at a token that starts a statement, and it goes past that
token. -/
theorem Course.exists_first {result : Except Failure Node}
    (h : Course lineEnd start (.attempt result) stop events) :
    ∃ token read, token.startsStatement = true ∧ start.Reads (token :: read) stop := by
  obtain ⟨read, hread, hne⟩ := h.reads
  suffices hfirst : ∃ token ∈ start.ahead.head?, token.startsStatement = true by
    obtain ⟨token, htoken, hstarts⟩ := hfirst
    obtain ⟨rest, hahead⟩ := List.head?_eq_some_iff.mp htoken
    obtain ⟨first, read, rfl⟩ := List.exists_cons_of_ne_nil (hne trivial (by simp [hahead]))
    obtain rfl := hread.eq_of_mem_head? htoken
    exact ⟨first, read, hstarts, hread⟩
  cases h with
  | declaration h hread | ifStatement h hread | whileStatement h _ _ _ hread
  | forStatement h _ _ _ _ _ _ _ hread | function h _ _ _ _ hread | classDeclaration h _ hread
  | returns h _ _ hread => exact ⟨_, hread.head?_ahead, startsStatement_of_isWord h (by decide)⟩
  | expression h _ hread | assignment h _ hread =>
    exact ⟨_, hread.head?_ahead, startsStatement_of_isIdentifier h⟩
  | failed h _ hfailed => exact ⟨_, hfailed.head?_ahead, h⟩

/-- `resumeAfter` a failed attempt is the boundary after its failure, which lies past the token it
began with. -/
theorem Course.resumeAfter_eq {failure : Failure}
    (h : Course lineEnd start (.attempt (.error failure)) failure.cursor events) :
    start.resumeAfter failure = failure.cursor.synchronize := by
  obtain ⟨token, read, -, hread⟩ := h.exists_first
  obtain ⟨more, hmore⟩ := exists_reads_synchronize failure.cursor
  have hbehind := (hread.trans hmore).behind
  have hindex : start.index < failure.cursor.synchronize.index := by
    unfold Cursor.index
    rw [hbehind]
    simp
    omega
  unfold Cursor.resumeAfter
  exact if_neg (Nat.not_le_of_lt hindex)

end Grammar

end NeutronLang
