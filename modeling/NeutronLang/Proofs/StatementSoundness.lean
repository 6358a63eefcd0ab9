import NeutronLang.Proofs.Following
import NeutronLang.Proofs.FramedBodies
import NeutronLang.Proofs.Soundness

/-!
# The reader of statements follows the grammar

Whatever the reader of statements does, from whatever tokens, is a course of the grammar
(`statementWithin_course`). The steps of an attempt are followed one by one: a rule may fail, and
then so does the attempt, with nothing on the record; a body never fails, and what it records comes
before all that follows it.

The bounds of the reader are never reached too early. A statement reads at least one token where
there is one, so a list that counts its tokens down comes to its end first, and so does a chain of
conditionals.
-/

namespace NeutronLang.Grammar

variable {lineEnd : Int → Int} {start middle stop : Cursor} {keyword : Token}
  {body : Recovering Body} {bound count : Nat}

/-! ## Parts of statements -/

/-- `initialValue` reads an initial value with its equals sign, or nothing. -/
theorem initialValue_sound {init : Node} (h : initialValue start = .ok (init, stop)) :
    ∃ read, start.Reads read stop ∧ DerivesInitial read init := by
  obtain ⟨equals?, middle, hequals, hnext⟩ := Rule.bind_eq_ok_iff.mp h
  rcases Rule.accept_eq_ok hequals with ⟨equals, rfl, htext, hread⟩ | ⟨rfl, -, rfl⟩
  · obtain ⟨read, hvalue, hderives⟩ := expression_sound hnext
    exact ⟨_, hread.cons hvalue, .value (beq_iff_eq.mp htext) hderives⟩
  · obtain ⟨rfl, rfl⟩ := Rule.pure_eq_ok_iff.mp hnext
    exact ⟨[], .refl _, .absent⟩

/-- `binding` reads what `DerivesBinding` puts together. -/
theorem binding_sound {found : Binding} (h : binding keyword start = .ok (found, stop)) :
    ∃ read, start.Reads read stop ∧ DerivesBinding keyword read found := by
  obtain ⟨type, afterType, htype, hnext⟩ := Rule.bind_eq_ok_iff.mp h
  obtain ⟨node, afterName, hname, hnext⟩ := Rule.bind_eq_ok_iff.mp hnext
  obtain ⟨init, afterInit, hinit, hnext⟩ := Rule.bind_eq_ok_iff.mp hnext
  obtain ⟨rfl, rfl⟩ := Rule.pure_eq_ok_iff.mp hnext
  obtain ⟨name, hidentifier, rfl, hread⟩ := Rule.name_eq_ok_iff.mp hname
  obtain ⟨read, hinit, hderives⟩ := initialValue_sound hinit
  have htype : start.Reads type.toList afterType ∧ ∀ token ∈ type, isTypeName token = true := by
    rcases Rule.accept_eq_ok htype with ⟨token, rfl, hwanted, hread⟩ | ⟨rfl, -, rfl⟩
    · exact ⟨hread, by simpa using hwanted⟩
    · exact ⟨.refl _, by simp⟩
  exact ⟨_, htype.1.trans (hread.cons hinit), .mk htype.2 hidentifier hderives⟩

/-- The phrase of an expression or of an assignment is not empty. -/
theorem DerivesAssignable.exists_cons {read : List Token} {tree : Node}
    (h : DerivesAssignable read tree) : ∃ first rest, read = first :: rest := by
  cases h with
  | expression h =>
    obtain ⟨token, rest, rfl, -⟩ := h.exists_first
    exact ⟨_, _, rfl⟩
  | assignment h =>
    obtain ⟨token, rest, rfl, -⟩ := h.exists_first
    exact ⟨_, _, rfl⟩

/-- The phrase of an expression or of an assignment starts with the token that is next. -/
theorem DerivesAssignable.exists_first {first : Token} {read : List Token} {tree : Node}
    (h : DerivesAssignable read tree) (hfirst : start.ahead.head? = some first)
    (hread : start.Reads read stop) : ∃ rest, read = first :: rest := by
  obtain ⟨token, rest, rfl⟩ := h.exists_cons
  exact ⟨rest, by rw [hread.eq_of_mem_head? hfirst]⟩

/-- The phrase of a declaration is not empty. -/
theorem DerivesBinding.exists_cons {read : List Token} {found : Binding}
    (h : DerivesBinding keyword read found) : ∃ first rest, read = first :: rest := by
  obtain @⟨type, name, tokens⟩ := h
  cases type with
  | none => exact ⟨name, tokens, rfl⟩
  | some token => exact ⟨token, name :: tokens, rfl⟩

/-- `expressionOrAssignment` reads what `DerivesAssignable` puts together. -/
theorem expressionOrAssignment_sound {tree : Node}
    (h : expressionOrAssignment start = .ok (tree, stop)) :
    ∃ read, start.Reads read stop ∧ DerivesAssignable read tree := by
  obtain ⟨target, middle, htarget, hnext⟩ := Rule.bind_eq_ok_iff.mp h
  obtain ⟨read, hread, hderives⟩ := expression_sound htarget
  split at hnext
  · obtain ⟨equals?, afterEquals, hequals, hrest⟩ := Rule.bind_eq_ok_iff.mp hnext
    rcases Rule.accept_eq_ok hequals with ⟨equals, rfl, htext, hequals⟩ | ⟨rfl, -, rfl⟩
    · obtain ⟨value, last, hvalue, hrest⟩ := Rule.bind_eq_ok_iff.mp hrest
      obtain ⟨rfl, rfl⟩ := Rule.pure_eq_ok_iff.mp hrest
      obtain ⟨more, hvalue, hmore⟩ := expression_sound hvalue
      exact ⟨_, hread.trans (hequals.cons hvalue),
        .assignment hderives (beq_iff_eq.mp htext) hmore⟩
    · obtain ⟨rfl, rfl⟩ := Rule.pure_eq_ok_iff.mp hrest
      exact ⟨read, hread, .expression hderives⟩
  · obtain ⟨rfl, rfl⟩ := Rule.pure_eq_ok_iff.mp hnext
    exact ⟨read, hread, .expression hderives⟩

/-- `loopInit` reads what `DerivesLoopInit` puts together. -/
theorem loopInit_sound {tree : Node} (h : loopInit start = .ok (tree, stop)) :
    ∃ read, start.Reads read stop ∧ DerivesLoopInit read tree := by
  obtain ⟨keyword?, middle, hkeyword, hnext⟩ := Rule.bind_eq_ok_iff.mp h
  rcases Rule.accept_eq_ok hkeyword with ⟨keyword, rfl, htext, hkeyword⟩ | ⟨rfl, -, rfl⟩
  · obtain ⟨found, last, hfound, hnext⟩ := Rule.bind_eq_ok_iff.mp hnext
    obtain ⟨rfl, rfl⟩ := Rule.pure_eq_ok_iff.mp hnext
    obtain ⟨read, hread, hderives⟩ := binding_sound hfound
    exact ⟨_, hkeyword.cons hread, .binding (beq_iff_eq.mp htext) hderives⟩
  · obtain ⟨read, hread, hderives⟩ := expressionOrAssignment_sound hnext
    exact ⟨read, hread, .assignable hderives⟩

/-- `optionalClause` reads what its clause reads, or nothing. -/
theorem optionalClause_sound {clause : Rule Node} {derives : List Token → Node → Prop}
    {close : String} {tree : Node} (habsent : derives [] .absent)
    (hclause : clause start = .ok (tree, stop) → ∃ read, start.Reads read stop ∧ derives read tree)
    (h : optionalClause close clause start = .ok (tree, stop)) :
    ∃ read, start.Reads read stop ∧ derives read tree := by
  obtain ⟨seen, place, hseen, hnext⟩ := Rule.bind_eq_ok_iff.mp h
  obtain ⟨-, rfl⟩ := Rule.sees_eq_ok_iff.mp hseen
  cases seen with
  | true =>
    obtain ⟨rfl, rfl⟩ := Rule.pure_eq_ok_iff.mp hnext
    exact ⟨[], .refl _, habsent⟩
  | false => exact hclause hnext

/-- `parameter` reads a token that names it or, in an empty place, none. -/
theorem parameter_sound {params : List Node} (h : parameter start = .ok (params, stop)) :
    ∃ read, start.Reads read stop ∧ DerivesParameters read params := by
  obtain ⟨token?, middle, htoken, hnext⟩ := Rule.bind_eq_ok_iff.mp h
  obtain ⟨rfl, rfl⟩ := Rule.pure_eq_ok_iff.mp hnext
  rcases Rule.accept_eq_ok htoken with ⟨token, rfl, hidentifier, hread⟩ | ⟨rfl, -, rfl⟩
  · exact ⟨[token], hread, .mk (List.Sublist.refl _) (by simpa using hidentifier)⟩
  · exact ⟨[], .refl _, .mk (List.Sublist.refl _) (by simp)⟩

/-- `DerivesParameters` holds of parameters one after the other, with tokens between them that name
none. -/
theorem DerivesParameters.append {read more : List Token} {params rest : List Node}
    (h : DerivesParameters read params) (between : List Token)
    (hmore : DerivesParameters more rest) :
    DerivesParameters (read ++ (between ++ more)) (params ++ rest) := by
  obtain ⟨hsublist, hidentifier⟩ := h
  obtain ⟨hsublist', hidentifier'⟩ := hmore
  rw [← List.map_append]
  refine .mk (hsublist.append (hsublist'.trans (List.sublist_append_right _ _))) ?_
  exact List.forall_mem_append.mpr ⟨hidentifier, hidentifier'⟩

/-- `moreParameters` read what `DerivesParameters` puts together. -/
theorem moreParameters_sound {params : List Node}
    (h : moreParameters count start = .ok (params, stop)) :
    ∃ read, start.Reads read stop ∧ DerivesParameters read params := by
  induction count generalizing start stop params with
  | zero =>
    obtain ⟨rfl, rfl⟩ := Rule.pure_eq_ok_iff.mp h
    exact ⟨[], .refl _, .mk (List.Sublist.refl []) (by simp)⟩
  | succ count ih =>
    obtain ⟨comma?, middle, hcomma, hnext⟩ := Rule.bind_eq_ok_iff.mp h
    rcases Rule.accept_eq_ok hcomma with ⟨comma, rfl, -, hcomma⟩ | ⟨rfl, -, rfl⟩
    · obtain ⟨first, afterFirst, hfirst, hnext⟩ := Rule.bind_eq_ok_iff.mp hnext
      obtain ⟨rest, last, hrest, hnext⟩ := Rule.bind_eq_ok_iff.mp hnext
      obtain ⟨rfl, rfl⟩ := Rule.pure_eq_ok_iff.mp hnext
      obtain ⟨read, hread, hparams⟩ := parameter_sound hfirst
      obtain ⟨more, hmore, hparams'⟩ := ih hrest
      have hnone : DerivesParameters [] [] := .mk (List.Sublist.refl []) (by simp)
      exact ⟨_, hcomma.cons (hread.trans hmore), hnone.append [comma] (hparams.append [] hparams')⟩
    · obtain ⟨rfl, rfl⟩ := Rule.pure_eq_ok_iff.mp hnext
      exact ⟨[], .refl _, .mk (List.Sublist.refl []) (by simp)⟩

/-- `parameters` read what `DerivesParameters` puts together. -/
theorem parameters_sound {params : List Node} (h : parameters count start = .ok (params, stop)) :
    ∃ read, start.Reads read stop ∧ DerivesParameters read params := by
  obtain ⟨seen, place, hseen, hnext⟩ := Rule.bind_eq_ok_iff.mp h
  obtain ⟨-, rfl⟩ := Rule.sees_eq_ok_iff.mp hseen
  cases seen with
  | true =>
    obtain ⟨rfl, rfl⟩ := Rule.pure_eq_ok_iff.mp hnext
    exact ⟨[], .refl _, .mk (List.Sublist.refl []) (by simp)⟩
  | false =>
    obtain ⟨first, afterFirst, hfirst, hnext⟩ := Rule.bind_eq_ok_iff.mp hnext
    obtain ⟨rest, last, hrest, hnext⟩ := Rule.bind_eq_ok_iff.mp hnext
    obtain ⟨rfl, rfl⟩ := Rule.pure_eq_ok_iff.mp hnext
    obtain ⟨read, hread, hparams⟩ := parameter_sound hfirst
    obtain ⟨more, hmore, hparams'⟩ := moreParameters_sound hrest
    exact ⟨_, hread.trans hmore, hparams.append [] hparams'⟩

/-- `classBodyAhead` sees the opening brace of a class, and leaves it where it is. -/
theorem classBodyAhead_sound (h : classBodyAhead start = .ok ((), stop)) :
    start.sees "\x7b" = true ∧ stop = start := by
  obtain ⟨seen, place, hseen, hnext⟩ := Rule.bind_eq_ok_iff.mp h
  obtain ⟨rfl, rfl⟩ := Rule.sees_eq_ok_iff.mp hseen
  split at hnext
  · next hsees => exact ⟨hsees, (Rule.pure_eq_ok_iff.mp hnext).2⟩
  · cases hnext

/-- `terminate` ends a statement as `Ends` says: with its semicolon, or where its last part ends. -/
theorem terminate_ends (lineEnd : Int → Int) (after : Clause) (offset : Int) (start : Cursor) :
    (terminate lineEnd after offset).Follows start fun final stop events =>
      ∃ event, events = [event] ∧ Ends lineEnd after offset start final stop event := by
  refine .get (.acceptText (fun hnone => ?_) fun token stop hlexeme hread => ?_)
  · exact .record (.pure ⟨_, rfl, .missing hnone⟩)
  · exact .record (.pure ⟨_, rfl, .semicolon hlexeme hread⟩)

/-- `terminate` may end an attempt, where its answer ends. -/
theorem follows_terminate {P : Except Failure (Node × Cursor) → List Event → Prop}
    {after : Clause} {offset : Int} {answer : Int → Node}
    (h : ∀ final stop event, Ends lineEnd after offset start final stop event →
      P (.ok (answer final, stop)) [event]) :
    Attempt.Follows (liftM (terminate lineEnd after offset) >>= fun final => pure (answer final))
      start P := by
  obtain ⟨event, hevents, hends⟩ := terminate_ends lineEnd after offset start
  refine .lastReader ?_
  unfold Recovering.Follows
  rw [hevents]
  exact h _ _ event hends

/-- After a reading its last token is the one read last. -/
theorem exists_last_of_reads {first : Token} {read : List Token}
    (h : start.Reads (first :: read) stop) : ∃ last, last ∈ stop.behind.head? := by
  rw [h.behind, List.reverse_cons]
  cases read.reverse <;> simp

/-- `lastStop` is the end of the token read last. -/
theorem lastStop_of_mem_head? {last : Token} (h : last ∈ stop.behind.head?) :
    stop.lastStop = last.stop := by
  unfold Cursor.lastStop
  rw [h]
  rfl

/-- `spanTo` goes from the first token that is read to the last. -/
theorem spanTo_of_reads {first : Token} {read : List Token} (h : start.Reads (first :: read) stop) :
    ∃ last ∈ stop.behind.head?, start.spanTo stop = .between first.start last.stop := by
  obtain ⟨last, hlast⟩ := exists_last_of_reads h
  refine ⟨last, hlast, ?_⟩
  unfold Cursor.spanTo
  rw [h.ahead, lastStop_of_mem_head? hlast]
  rfl

/-- `spanTo` spans the tokens that are read, if some are read unless there are none. -/
theorem spans_of_reads {read : List Token} (h : start.Reads read stop)
    (hne : start.ahead ≠ [] → read ≠ []) : start.Spans stop (start.spanTo stop) := by
  cases read with
  | nil =>
    have hend : start.ahead = [] := by
      by_contra hahead
      exact hne hahead rfl
    unfold Cursor.spanTo
    rw [hend]
    exact .ends hend
  | cons first read =>
    obtain ⟨last, hlast, hspan⟩ := spanTo_of_reads h
    rw [hspan]
    exact .tokens h.head?_ahead hlast

/-- `returnStatement` reads a return with its value, if there is one, and with its semicolon, if it
has one. -/
theorem returnStatement_sound {tree : Node} (hkeyword : start.Reads [keyword] middle)
    (h : returnStatement start middle = .ok (tree, stop)) :
    ∃ tokens semicolon argument last, DerivesOptional tokens argument ∧
      (∀ token ∈ semicolon, token.lexeme = ";") ∧
      start.Reads (keyword :: (tokens ++ Option.toList semicolon)) stop ∧
      last ∈ stop.behind.head? ∧
      tree = .returnStatement (.between keyword.start last.stop) argument := by
  -- what follows the value is the same whether there is one or not
  have hrest {tokens : List Token} {argument : Node} {place : Cursor}
      (hderives : DerivesOptional tokens argument) (hread : middle.Reads tokens place)
      (hnext : (do
        let _ ← Rule.acceptText ";"
        return .returnStatement (start.spanTo (← get)) argument : Rule Node) place =
          .ok (tree, stop)) :
      ∃ tokens semicolon argument last, DerivesOptional tokens argument ∧
        (∀ token ∈ semicolon, token.lexeme = ";") ∧
        start.Reads (keyword :: (tokens ++ Option.toList semicolon)) stop ∧
        last ∈ stop.behind.head? ∧
        tree = .returnStatement (.between keyword.start last.stop) argument := by
    obtain ⟨semicolon, last, hsemicolon, hnode⟩ := Rule.bind_eq_ok_iff.mp hnext
    obtain ⟨rfl, rfl⟩ := Rule.pure_eq_ok_iff.mp hnode
    have hsemicolon : (∀ token ∈ semicolon, token.lexeme = ";") ∧
        place.Reads semicolon.toList stop := by
      rcases Rule.accept_eq_ok hsemicolon with ⟨token, rfl, htext, hread⟩ | ⟨rfl, -, rfl⟩
      · exact ⟨by simpa using htext, hread⟩
      · exact ⟨by simp, .refl _⟩
    have hwhole := hkeyword.cons (hread.trans hsemicolon.2)
    obtain ⟨token, htoken, hspan⟩ := spanTo_of_reads hwhole
    exact ⟨tokens, semicolon, argument, token, hderives, hsemicolon.1, hwhole, htoken,
      by rw [hspan]⟩
  obtain ⟨place, middle', hplace, hread⟩ := Rule.bind_eq_ok_iff.mp h
  obtain ⟨rfl, rfl⟩ : place = middle ∧ middle' = middle := Rule.pure_eq_ok_iff.mp hplace
  dsimp only at hread
  split at hread
  · exact hrest .absent (.refl _) hread
  · obtain ⟨argument, last, hargument, hnext⟩ := Rule.bind_eq_ok_iff.mp hread
    obtain ⟨tokens, hmore, hderives⟩ := expression_sound hargument
    exact hrest (.expression hderives) hmore hnext

/-! ## Statements after their keyword -/

/-- Where an attempt ends: after what it has read, or where it fails. -/
def endOf {α : Type} : Except Failure (α × Cursor) → Cursor
  | .ok (_, stop) => stop
  | .error failure => failure.cursor

/-- The outcome of an attempt, with its record, is a `Course` of what it makes of the phrase. -/
def Leads (lineEnd : Int → Int) (origin : Cursor) (phrase : Except Failure Node → Phrase)
    (outcome : Except Failure (Node × Cursor)) (events : List Event) : Prop :=
  Course lineEnd origin (phrase (outcome.map (·.1))) (endOf outcome) events

/-- From no more tokens than `bound`, a reader of bodies takes the courses of bodies. -/
def BodyCourses (lineEnd : Int → Int) (bound : Nat) (body : Recovering Body) : Prop :=
  ∀ start, start.ahead.length ≤ bound →
    body.Follows start fun found stop events => Course lineEnd start (.body found) stop events

/-- `Reads` leaves no more tokens ahead than there were. -/
theorem length_ahead_le {read : List Token} (h : start.Reads read stop)
    (hbound : start.ahead.length ≤ bound) : stop.ahead.length ≤ bound := by
  have hlength := h.length_ahead
  omega

/-- An attempt may fail anywhere after the token that it starts with. -/
theorem mayFail_attempt (lineEnd : Int → Int) (hstarts : keyword.startsStatement = true)
    (hread : start.Reads [keyword] middle) :
    Attempt.MayFail (Leads lineEnd start .attempt) middle :=
  fun _ _ hmore hdue => .failed hstarts hdue (hread.cons hmore)

/-- `declaration` takes the `Course` of a declaration. -/
theorem declaration_course (hkeyword : isWord "var" keyword = true)
    (hread : start.Reads [keyword] middle) :
    (declaration lineEnd keyword).Follows middle (Leads lineEnd start .attempt) := by
  have hfail := mayFail_attempt lineEnd (startsStatement_of_isWord hkeyword (by decide)) hread
  refine .rule (advances_binding keyword) hfail fun found place hfound _ => ?_
  obtain ⟨tokens, hbinding, hderives⟩ := binding_sound hfound
  exact follows_terminate fun final stop event hends =>
    .declaration hkeyword hread hderives hbinding hends

/-- `whileStatement` takes the `Course` of a loop with a condition. -/
theorem whileStatement_course (hbody : BodyCourses lineEnd bound body)
    (hkeyword : isWord "while" keyword = true) (hread : start.Reads [keyword] middle)
    (hbound : middle.ahead.length ≤ bound) :
    (whileStatement body keyword).Follows middle (Leads lineEnd start .attempt) := by
  have hfail := mayFail_attempt lineEnd (startsStatement_of_isWord hkeyword (by decide)) hread
  refine .rule (Rule.advances_require _ _) hfail fun opening _ hopening hfail => ?_
  refine .rule advances_expression hfail fun test _ htest hfail => ?_
  refine .rule (Rule.advances_require _ _) hfail fun closing inner hclosing _ => .lastReader ?_
  obtain ⟨hopens, hopening⟩ := Rule.expect_eq_ok_iff.mp hopening
  obtain ⟨tokens, htest, hderives⟩ := expression_sound htest
  obtain ⟨hcloses, hclosing⟩ := Rule.expect_eq_ok_iff.mp hclosing
  have hhead := hopening.cons (htest.trans hclosing)
  exact .whileStatement hkeyword hopens hderives hcloses (hread.cons hhead)
    (hbody inner (length_ahead_le hhead hbound))

/-- `forStatement` takes the `Course` of a loop with three clauses. -/
theorem forStatement_course (hbody : BodyCourses lineEnd bound body)
    (hkeyword : isWord "for" keyword = true) (hread : start.Reads [keyword] middle)
    (hbound : middle.ahead.length ≤ bound) :
    (forStatement body keyword).Follows middle (Leads lineEnd start .attempt) := by
  have hfail := mayFail_attempt lineEnd (startsStatement_of_isWord hkeyword (by decide)) hread
  have hassignable := advances_expressionOrAssignment
  refine .rule (Rule.advances_require _ _) hfail fun opening _ hopening hfail => ?_
  refine .rule (advances_optionalClause advances_loopInit _) hfail fun init _ hinit hfail => ?_
  refine .rule (Rule.advances_require _ _) hfail fun first _ hfirst hfail => ?_
  refine .rule (advances_optionalClause advances_expression _) hfail fun test _ htest hfail => ?_
  refine .rule (Rule.advances_require _ _) hfail fun second _ hsecond hfail => ?_
  refine .rule (advances_optionalClause hassignable _) hfail fun update _ hupdate hfail => ?_
  refine .rule (Rule.advances_require _ _) hfail fun closing inner hclosing _ => .lastReader ?_
  -- no part has failed, so each was read from a phrase of its own and together they make the head
  obtain ⟨hopens, hopening⟩ := Rule.expect_eq_ok_iff.mp hopening
  obtain ⟨initTokens, hinit, hinits⟩ := optionalClause_sound .absent loopInit_sound hinit
  obtain ⟨hends, hfirst⟩ := Rule.expect_eq_ok_iff.mp hfirst
  obtain ⟨testTokens, htest, htests⟩ := optionalClause_sound DerivesOptional.absent
    (fun h => (expression_sound h).imp fun _ => .imp_right .expression) htest
  obtain ⟨hends', hsecond⟩ := Rule.expect_eq_ok_iff.mp hsecond
  obtain ⟨updateTokens, hupdate, hupdates⟩ := optionalClause_sound DerivesLoopUpdate.absent
    (fun h => (expressionOrAssignment_sound h).imp fun _ => .imp_right .assignable) hupdate
  obtain ⟨hcloses, hclosing⟩ := Rule.expect_eq_ok_iff.mp hclosing
  have hhead := hopening.cons (hinit.trans (hfirst.cons (htest.trans (hsecond.cons
    (hupdate.trans hclosing)))))
  exact .forStatement hkeyword hopens hinits hends htests hends' hupdates hcloses
    (hread.cons hhead) (hbody inner (length_ahead_le hhead hbound))

/-- `functionStatement` takes the `Course` of a function. -/
theorem functionStatement_course (hbody : BodyCourses lineEnd bound body)
    (hkeyword : isWord "fun" keyword = true) (hread : start.Reads [keyword] middle)
    (hbound : middle.ahead.length ≤ bound) :
    (functionStatement count body keyword).Follows middle (Leads lineEnd start .attempt) := by
  have hfail := mayFail_attempt lineEnd (startsStatement_of_isWord hkeyword (by decide)) hread
  refine .rule (Rule.advances_name _) hfail fun node _ hnode hfail => ?_
  refine .rule (Rule.advances_require _ _) hfail fun opening _ hopening hfail => ?_
  refine .rule (advances_parameters count) hfail fun params _ hparams hfail => ?_
  refine .rule (Rule.advances_require _ _) hfail fun closing inner hclosing _ => .lastReader ?_
  obtain ⟨name, hidentifier, rfl, hname⟩ := Rule.name_eq_ok_iff.mp hnode
  obtain ⟨hopens, hopening⟩ := Rule.expect_eq_ok_iff.mp hopening
  obtain ⟨tokens, hparams, hderives⟩ := parameters_sound hparams
  obtain ⟨hcloses, hclosing⟩ := Rule.expect_eq_ok_iff.mp hclosing
  have hhead := hname.cons (hopening.cons (hparams.trans hclosing))
  exact .function hkeyword hidentifier hopens hderives hcloses (hread.cons hhead)
    (hbody inner (length_ahead_le hhead hbound))

/-- `classStatement` takes the `Course` of a class. -/
theorem classStatement_course (hbody : BodyCourses lineEnd bound body)
    (hkeyword : isWord "class" keyword = true) (hread : start.Reads [keyword] middle)
    (hbound : middle.ahead.length ≤ bound) :
    (classStatement body keyword).Follows middle (Leads lineEnd start .attempt) := by
  have hfail := mayFail_attempt lineEnd (startsStatement_of_isWord hkeyword (by decide)) hread
  refine .rule (Rule.advances_name _) hfail fun node _ hnode hfail => ?_
  refine .rule advances_classBodyAhead hfail fun _ inner hahead _ => .lastReader ?_
  obtain ⟨name, hidentifier, rfl, hname⟩ := Rule.name_eq_ok_iff.mp hnode
  obtain ⟨hsees, rfl⟩ := classBodyAhead_sound hahead
  exact .classDeclaration hkeyword hidentifier (hread.cons hname) hsees
    (hbody _ (length_ahead_le hname hbound))

/-- `returnStatement` takes the `Course` of a return. -/
theorem returnStatement_course (hkeyword : isWord "return" keyword = true)
    (hread : start.Reads [keyword] middle) :
    Attempt.Follows (liftM (returnStatement start)) middle (Leads lineEnd start .attempt) := by
  have hfail := mayFail_attempt lineEnd (startsStatement_of_isWord hkeyword (by decide)) hread
  rw [← bind_pure (liftM (returnStatement start) : Attempt Node)]
  refine .rule (advances_returnStatement start) hfail fun tree stop htree _ => .pure ?_
  obtain ⟨tokens, semicolon, argument, last, hderives, hsemicolon, hwhole, hlast, rfl⟩ :=
    returnStatement_sound hread htree
  exact .returns hkeyword hderives hsemicolon hwhole hlast

/-! ## Conditionals -/

/-- `conditional` takes the `Course` of a conditional, if what follows its body does. -/
theorem conditional_course {alternate : Attempt Node} (hbody : BodyCourses lineEnd bound body)
    (halternate : ∀ place, place.ahead.length ≤ count → place.ahead.length ≤ bound →
      alternate.Follows place (Leads lineEnd place .alternate))
    (hbound : start.ahead.length ≤ bound) (hcount : start.ahead.length ≤ count) :
    (conditional alternate body keyword).Follows start
      (Leads lineEnd start (.conditional keyword)) := by
  have hfail : Attempt.MayFail (Leads lineEnd start (.conditional keyword)) start :=
    fun _ _ hread hdue => .conditionalFailed hdue hread
  refine .rule (Rule.advances_require _ _) hfail fun opening _ hopening hfail => ?_
  refine .rule advances_expression hfail fun test _ htest hfail => ?_
  refine .rule (Rule.advances_require _ _) hfail fun closing inner hclosing _ => .reader ?_
  obtain ⟨hopens, hopening⟩ := Rule.expect_eq_ok_iff.mp hopening
  obtain ⟨tokens, htest, hderives⟩ := expression_sound htest
  obtain ⟨hcloses, hclosing⟩ := Rule.expect_eq_ok_iff.mp hclosing
  have hhead := hopening.cons (htest.trans hclosing)
  have hconsequent := hbody inner (length_ahead_le hhead hbound)
  obtain ⟨more, hmore, -⟩ := Course.reads hconsequent
  have hafter := hhead.trans hmore
  have hrest := halternate _ (length_ahead_le hafter hcount) (length_ahead_le hafter hbound)
  refine .lastAttempt ?_
  unfold Attempt.Follows at hrest ⊢
  have hwhole : Course lineEnd start (.conditional keyword _) _ _ :=
    .conditional hopens hderives hcloses hhead hconsequent hrest
  -- the alternative may have failed, and the conditional with it; both are courses
  generalize (alternate _).run.value = outcome at hwhole ⊢
  cases outcome <;> exact hwhole

/-- `alternate` takes the `Course` of what follows the body of a conditional. -/
theorem alternate_course (hbody : BodyCourses lineEnd bound body)
    (hcount : start.ahead.length ≤ count) (hbound : start.ahead.length ≤ bound) :
    (alternate body count).Follows start (Leads lineEnd start .alternate) := by
  induction count generalizing start with
  | zero =>
    have hend : start.ahead = [] := List.length_eq_zero_iff.mp (Nat.le_zero.mp hcount)
    exact .noAlternate (by simp [hend])
  | succ count ih =>
    -- the words that go on with a conditional are among the tokens counted
    have hchain {keyword : Token} {read : List Token} {place : Cursor}
        (hread : start.Reads (keyword :: read) place) (next : Token) :
        (conditional (alternate body count) body next).Follows place
          (Leads lineEnd place (.conditional next)) := by
      have hlength := hread.length_ahead
      rw [List.length_cons] at hlength
      exact conditional_course hbody (fun _ => ih) (by omega) (by omega)
    refine .acceptText (fun hnone => ?_) fun word middle hword hread => ?_
    · refine .acceptText (fun hnone' => .pure (.noAlternate ?_))
        fun keyword middle hkeyword hread => ?_
      · intro token htoken
        simp [hnone token htoken, hnone' token htoken]
      · exact Course.elif hkeyword hread (hchain hread keyword)
    · refine .acceptText (fun hnone => .lastReader ?_) fun keyword place hkeyword hmore => ?_
      · exact Course.otherwise hword hread hnone (hbody middle (length_ahead_le hread hbound))
      · exact Course.elseIf hword hkeyword (hread.cons hmore) (hchain (hread.cons hmore) keyword)

/-- `conditional` with its `alternate` takes the `Course` of a statement. -/
theorem ifStatement_course (hbody : BodyCourses lineEnd bound body)
    (hkeyword : isWord "if" keyword = true) (hread : start.Reads [keyword] middle)
    (hbound : middle.ahead.length ≤ bound) :
    (ifStatement bound body keyword).Follows middle (Leads lineEnd start .attempt) :=
  Course.ifStatement hkeyword hread
    (conditional_course hbody (fun _ => alternate_course hbody) hbound hbound)

/-! ## Statements and programs -/

/-- `expressionStatement` takes the `Course` of an expression or an assignment as a statement. -/
theorem expressionStatement_course {first : Token} (hfirst : first.isIdentifier = true)
    (hread : start.Reads [first] middle) :
    (expressionStatement lineEnd).Follows start (Leads lineEnd start .attempt) := by
  have hopens : opensOperand first = true := by simp [opensOperand, isOperandName, hfirst]
  have hfail := mayFail_attempt lineEnd (startsStatement_of_isIdentifier hfirst) hread
  have hreaches := expressionOrAssignment_reaches (expression_reaches hread hopens)
  refine .ruleFrom hreaches hfail fun tree place htree _ => ?_
  obtain ⟨read, hphrase, hderives⟩ := expressionOrAssignment_sound htree
  obtain ⟨tokens, rfl⟩ := hderives.exists_first (hread.head?_ahead) hphrase
  split
  · exact follows_terminate fun final stop event hends =>
      .assignment hfirst hderives hphrase hends
  · next _ hne =>
    have hexpression : Derives 1 (first :: tokens) tree := by
      generalize first :: tokens = read at hderives
      cases hderives with
      | expression hderives => exact hderives
      | assignment => exact absurd rfl (hne _ _ _ _)
    exact follows_terminate fun final stop event hends =>
      .expression hfirst hexpression hphrase hends

/-- From no more tokens than `bound`, a reader of statements takes the courses of statements. -/
def StatementCourses (lineEnd : Int → Int) (bound : Nat) (statement : Recovering (Option Node)) :
    Prop :=
  ∀ start, start.ahead.length ≤ bound → statement.Follows start fun answer stop events =>
    Course lineEnd start (.statement answer) stop events

/-- `statements` take the `Course` of a list, if each statement takes its own. -/
theorem statements_course {statement : Recovering (Option Node)}
    (hstatement : StatementCourses lineEnd bound statement) (closing : Option String)
    (hbound : start.ahead.length ≤ bound) (hcount : start.ahead.length ≤ count) :
    (statements closing statement count).Follows start fun nodes stop events =>
      Course lineEnd start (.list closing nodes) stop events := by
  induction count generalizing start with
  | zero =>
    have hend : start.ahead = [] := List.length_eq_zero_iff.mp (Nat.le_zero.mp hcount)
    exact .listEnd (by simp [Cursor.atEnd, hend])
  | succ count ih =>
    unfold Recovering.Follows
    rw [statements_succ]
    split
    · next hends => exact .listEnd hends
    · next hends =>
      have hfirst := hstatement start hbound
      obtain ⟨read, hread, hne⟩ := Course.reads hfirst
      -- a statement is read from at least one token, so the tokens counted suffice for the rest
      have hahead : start.ahead ≠ [] := fun hend => hends (by simp [Cursor.atEnd, hend])
      have hlength := hread.length_ahead
      have hpos := List.length_pos_iff.mpr (hne trivial hahead)
      exact .listStep (Bool.eq_false_iff.mpr hends) hfirst (ih (by omega) (by omega))

/-- `body` takes the `Course` of a body, if its statements take theirs. -/
theorem body_course {statement : Recovering (Option Node)}
    (hstatement : StatementCourses lineEnd bound statement) :
    BodyCourses lineEnd bound (Grammar.body statement bound) := by
  intro start hbound
  refine .get (.acceptText (fun hnone => .bind (.get (.pure ?_))) ?_)
  · rw [List.append_nil]
    have hcourse := hstatement start hbound
    obtain ⟨read, hread, hne⟩ := Course.reads hcourse
    exact .singleBody hnone hcourse (spans_of_reads hread (hne trivial))
  · intro opening inner hopens hopening
    have hinner := length_ahead_le hopening hbound
    have hlist := statements_course hstatement (some "\x7d") hinner hinner
    refine .bind (.get (.acceptText (fun hnone => ?_) fun closing stop hcloses hclosing => ?_))
    · obtain ⟨read, hread, -⟩ := Course.reads hlist
      obtain ⟨last, hlast⟩ := exists_last_of_reads (hopening.cons hread)
      refine .record (.pure ?_)
      rw [lastStop_of_mem_head? hlast]
      exact .unclosedBody hopens hopening hlist (Course.ahead_eq_nil hlist hnone) hlast
    · exact .record (.pure (.closedBody hopens hopening hlist hcloses hclosing))

/-- `keywordStatement?` takes the `Course` of the statement that the keyword opens. -/
theorem keywordStatement?_course (hbody : BodyCourses lineEnd bound body)
    (hread : start.Reads [keyword] middle) (hbound : middle.ahead.length ≤ bound)
    {rest : Attempt Node} (h : keywordStatement? lineEnd bound body start keyword = some rest) :
    rest.Follows middle (Leads lineEnd start .attempt) := by
  unfold keywordStatement? at h
  cases hkind : keyword.isKeyword with
  | false =>
    rw [hkind] at h
    cases h
  | true =>
    rw [hkind, if_pos rfl] at h
    -- the reader is selected by the lexeme alone, and the kind of the token is known from before
    have hword (lexeme : String) (hlexeme : keyword.lexeme = lexeme) :
        isWord lexeme keyword = true := by
      rw [isWord, hkind, hlexeme, beq_self_eq_true, Bool.true_and]
    split at h
    · next hlexeme =>
      cases h
      exact declaration_course (hword _ hlexeme) hread
    · next hlexeme =>
      cases h
      exact ifStatement_course hbody (hword _ hlexeme) hread hbound
    · next hlexeme =>
      cases h
      exact whileStatement_course hbody (hword _ hlexeme) hread hbound
    · next hlexeme =>
      cases h
      exact forStatement_course hbody (hword _ hlexeme) hread hbound
    · next hlexeme =>
      cases h
      exact functionStatement_course hbody (hword _ hlexeme) hread hbound
    · next hlexeme =>
      cases h
      exact classStatement_course hbody (hword _ hlexeme) hread hbound
    · next hlexeme =>
      cases h
      exact returnStatement_course (hword _ hlexeme) hread
    · cases h

/-- `startsStatement` is false for a token that is no name and opens no statement as a keyword. -/
theorem startsStatement_eq_false
    (h : keywordStatement? lineEnd bound body start keyword = none)
    (hname : keyword.isIdentifier = false) : keyword.startsStatement = false := by
  unfold keywordStatement? at h
  unfold Token.startsStatement statementKeywords
  rw [hname, Bool.false_or]
  cases hkind : keyword.isKeyword with
  | false => rfl
  | true =>
    rw [hkind, if_pos rfl] at h
    split at h <;> simp_all

/-- What an attempt at a statement comes to: a statement, or a failure after its beginning. Either
is a `Course`. -/
def LeadsToStatement (lineEnd : Int → Int) (start : Cursor) :
    Except Failure (Option Node × Cursor) → List Event → Prop
  | .ok (answer, stop), events => Course lineEnd start (.statement answer) stop events
  | .error failure, events => ∃ more, events = .began start.index :: more ∧
      Course lineEnd start (.attempt (.error failure)) failure.cursor more

/-- `recover` takes the `Course` of a statement, whether its attempt fails or not. -/
theorem recover_course {attempt : Attempt (Option Node)}
    (h : attempt.Follows start (LeadsToStatement lineEnd start)) :
    attempt.recover.Follows start fun answer stop events =>
      Course lineEnd start (.statement answer) stop events := by
  unfold Attempt.Follows at h
  unfold Recovering.Follows Attempt.recover
  generalize (attempt start).run = outcome at h ⊢
  obtain ⟨value, events⟩ := outcome
  cases value with
  | ok answer => exact h
  | error failure =>
    obtain ⟨more, rfl, hcourse⟩ := h
    dsimp only
    rw [hcourse.resumeAfter_eq]
    exact .abandoned hcourse

/-- `completed` records a statement that is read. -/
theorem completed_course {rest : Attempt Node} {place : Cursor}
    (h : rest.Follows place (Leads lineEnd start .attempt)) :
    Attempt.Follows (rest >>= completed start) place fun outcome events =>
      LeadsToStatement lineEnd start outcome (.began start.index :: events) := by
  refine .bind ?_
  unfold Attempt.Follows at h ⊢
  generalize (rest place).run = outcome at h ⊢
  obtain ⟨value, events⟩ := outcome
  cases value with
  | ok outcome => exact Course.completed h
  | error failure => exact ⟨events, rfl, h⟩

/-- `attempt` takes the `Course` of an attempt. -/
theorem attempt_course (hbody : BodyCourses lineEnd bound body)
    (hbound : start.ahead.length ≤ bound + 1) :
    (attempt lineEnd bound body).Follows start (LeadsToStatement lineEnd start) := by
  obtain ⟨behind, ahead⟩ := start
  cases ahead with
  | nil => exact Course.atEnd rfl
  | cons token ahead =>
    have hread : Cursor.Reads ⟨behind, token :: ahead⟩ [token] ⟨token :: behind, ahead⟩ :=
      ⟨rfl, rfl⟩
    refine Attempt.Follows.get (Attempt.Follows.record ?_)
    cases hrest : keywordStatement? lineEnd bound body ⟨behind, token :: ahead⟩ token with
    | some rest =>
      refine .skip hread (completed_course ?_)
      exact keywordStatement?_course hbody hread (Nat.le_of_succ_le_succ hbound) hrest
    | none =>
      dsimp only
      split
      · next hidentifier => exact completed_course (expressionStatement_course hidentifier hread)
      · next hidentifier =>
        exact Course.skipped (startsStatement_eq_false hrest (by simpa using hidentifier)) hread

/-- `statementWithin` takes the courses of statements. -/
theorem statementWithin_course (lineEnd : Int → Int) (bound : Nat) :
    StatementCourses lineEnd bound (statementWithin lineEnd bound) := by
  induction bound with
  | zero =>
    intro start hbound
    exact .atEnd (List.length_eq_zero_iff.mp (Nat.le_zero.mp hbound))
  | succ bound ih =>
    exact fun start hbound => recover_course (attempt_course (body_course ih) hbound)

end NeutronLang.Grammar
