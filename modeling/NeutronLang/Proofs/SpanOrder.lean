import NeutronLang.Proofs.SpanRows

/-!
# Spans nest and are in order

Reading a document takes a course over its tokens, and what is read on the way lies where the tokens
do that it is read from (`Course.lie`). A statement ends with its last part, with the semicolon
after that, or with its body, and a body with its brace, its statement or the last token there is:
each of these ends lies between the token read last before the statement and the one read last in
it. Recovery leaves tokens out and makes no trees, so it costs nothing.
-/

namespace NeutronLang

namespace Grammar

variable {first last : Int} {tokens : List Token} {tree : Node}

/-! ## Parts of statements -/

/-- `Lie` holds of an expression that may be left out where its tokens are laid. -/
theorem DerivesOptional.lie (h : DerivesOptional tokens tree) (hlaid : Laid first tokens last) :
    Lie first (Node.present [tree]) last := by
  cases h with
  | absent => exact .nil hlaid.le
  | expression h => exact (h.lie hlaid).present

/-- `Lie` holds of an expression or an assignment where its tokens are laid. -/
theorem DerivesAssignable.lie (h : DerivesAssignable tokens tree) (hlaid : Laid first tokens last) :
    Lie first [tree] last := by
  cases h with
  | expression h => exact h.lie hlaid
  | @assignment equals _ _ span name value htarget _ hvalue =>
    obtain ⟨middle, hlaid, hle, hlt, hmore⟩ := hlaid.exists_around
    obtain ⟨hfirst, hstop, htarget⟩ := (htarget.lie hlaid).own
    obtain ⟨hstart, hlast, hvalue⟩ := (hvalue.lie hmore).own
    have hspan := span.start_le_stop
    have hvalueSpan := value.span.start_le_stop
    dsimp only [Node.span] at hfirst hstop htarget
    refine Lie.mono (.node rfl (by omega) ?_) hfirst hlast
    exact htarget.append (hvalue.mono (by omega) (Int.le_refl _))

/-- `Lie` holds of an initial value where its tokens are laid, with their equals sign. -/
theorem DerivesInitial.lie (h : DerivesInitial tokens tree) (hlaid : Laid first tokens last) :
    Lie first (Node.present [tree]) last := by
  cases h with
  | absent => exact .nil hlaid.le
  | value _ h =>
    cases hlaid with
    | cons hfirst hlt hlaid => exact (h.lie hlaid).present.mono (by omega) (Int.le_refl _)

/-- A declaration ends after its keyword, and it lies up to wherever it is made to end after
that. -/
theorem DerivesBinding.lie {keyword : Token} {found : Binding}
    (h : DerivesBinding keyword tokens found) (hkeyword : keyword.start < keyword.stop)
    (hlaid : Laid keyword.stop tokens last) :
    found.span.stop ≤ last ∧
      ∀ final, found.span.stop ≤ final → Lie keyword.start [found.node final] final := by
  cases h with
  | @mk type name tokens init _ _ hinit =>
    obtain ⟨middle, htype, hle, hlt, hlaid⟩ := hlaid.exists_around
    have hbefore := htype.le
    have hafter := hlaid.le
    have hname : Lie keyword.start [name.node] name.stop := Laid.lie_name (by omega) hlt
    have hinit := hinit.lie hlaid
    have hnameStop : name.node.span.stop = name.stop :=
      Span.between_stop_of_le (Int.le_of_lt hlt)
    -- the end of a declaration is that of its value or, without one, that of its name
    cases habsent : init.isAbsent with
    | true =>
      have hpresent : Node.present [init] = [] := by simp [Node.present, habsent]
      have hstop : (Binding.mk keyword.start (type.map (·.lexeme)) name.node init).span.stop =
          name.stop := by
        simp only [Binding.span, habsent, if_true, hnameStop]
        exact Span.between_stop_of_le (by omega)
      rw [hstop]
      refine ⟨hafter, fun final hfinal => .node rfl (by omega) ?_⟩
      rw [Binding.node, Node.children, hpresent]
      exact hname.mono (Int.le_refl _) hfinal
    | false =>
      have hpresent : Node.present [init] = [init] := by simp [Node.present, habsent]
      rw [hpresent] at hinit
      obtain ⟨hstart, hlast, hinit⟩ := hinit.own
      have hspan := init.span.start_le_stop
      have hstop : (Binding.mk keyword.start (type.map (·.lexeme)) name.node init).span.stop =
          init.span.stop := by
        simp only [Binding.span, habsent, Bool.false_eq_true, if_false]
        exact Span.between_stop_of_le (by omega)
      rw [hstop]
      refine ⟨hlast, fun final hfinal => .node rfl (by omega) ?_⟩
      rw [Binding.node, Node.children, hpresent]
      exact hname.append (hinit.mono hstart hfinal)

/-- `Lie` holds of what a loop can start with where its tokens are laid. -/
theorem DerivesLoopInit.lie (h : DerivesLoopInit tokens tree) (hlaid : Laid first tokens last) :
    Lie first (Node.present [tree]) last := by
  cases h with
  | absent => exact .nil hlaid.le
  | binding _ h =>
    cases hlaid with
    | cons hfirst hkeyword hlaid =>
      obtain ⟨hlast, hnode⟩ := h.lie hkeyword hlaid
      exact ((hnode _ (Int.le_refl _)).mono hfirst hlast).present
  | assignable h => exact (h.lie hlaid).present

/-- `Lie` holds of what the last clause of a loop can be where its tokens are laid. -/
theorem DerivesLoopUpdate.lie (h : DerivesLoopUpdate tokens tree) (hlaid : Laid first tokens last) :
    Lie first (Node.present [tree]) last := by
  cases h with
  | absent => exact .nil hlaid.le
  | assignable h => exact (h.lie hlaid).present

/-- `Lie` holds of parameters where the tokens are laid of which they are some. -/
theorem DerivesParameters.lie {params : List Node} (h : DerivesParameters tokens params)
    (hlaid : Laid first tokens last) : Lie first params last := by
  cases h with
  | mk hsublist _ => exact (hlaid.sublist hsublist).lie_names

/-! ## Statements -/

variable {lineEnd : Int → Int} {start stop : Cursor} {phrase : Phrase} {events : List Event}

/-- A statement `Ends` with its last part or with the token read last, and not before the former. -/
theorem Ends.between {after : Clause} {offset final : Int} {event : Event}
    (h : Ends lineEnd after offset start final stop event)
    (hlaid : Laid start.lastStop start.ahead last) (hoffset : offset ≤ start.lastStop) :
    offset ≤ final ∧ final ≤ stop.lastStop := by
  cases h with
  | semicolon _ hread =>
    have hlast : stop.lastStop = _ := lastStop_of_mem_head? (by rw [hread.behind]; rfl)
    cases (hread.laid hlaid).1 with
    | cons hfirst hlt _ => omega
  | missing => exact ⟨Int.le_refl _, hoffset⟩

/-- A statement starts with a token that is read for it. -/
theorem Course.exists_start {node : Node}
    (h : Course lineEnd start (.attempt (.ok node)) stop events) :
    ∃ token ∈ start.ahead, node.span.start = token.start := by
  have hkeyword {token : Token} {read : List Token} {place : Cursor}
      (hread : start.Reads (token :: read) place) : token ∈ start.ahead := by
    rw [hread.ahead]
    exact List.mem_append_left _ List.mem_cons_self
  have hphrase {read : List Token} {place : Cursor} (hread : start.Reads read place)
      (hstart : ∃ token ∈ read, node.span.start = token.start) :
      ∃ token ∈ start.ahead, node.span.start = token.start := by
    obtain ⟨token, htoken, hstart⟩ := hstart
    rw [hread.ahead]
    exact ⟨token, List.mem_append_left _ htoken, hstart⟩
  cases h with
  | declaration _ hread hbinding => exact ⟨_, hkeyword hread, hbinding.start_eq⟩
  | ifStatement _ hread hconditional =>
    -- the node comes out of the conditional behind the keyword, but its span starts with the
    -- keyword
    generalize hresult : Except.ok node = result at hconditional
    cases hconditional with
    | @conditional _ _ _ _ _ _ _ _ _ _ result =>
      cases result with
      | ok alternate =>
        cases hresult
        exact ⟨_, hkeyword hread, rfl⟩
      | error failure => cases hresult
    | conditionalFailed => cases hresult
  | whileStatement _ _ _ _ hread _ | forStatement _ _ _ _ _ _ _ _ hread _
  | function _ _ _ _ _ hread _ | classDeclaration _ _ hread _ _ | returns _ _ _ hread _ =>
    exact ⟨_, hkeyword hread, rfl⟩
  | expression _ hderives hread _ => exact hphrase hread hderives.exists_start
  | assignment _ hderives hread _ => exact hphrase hread hderives.exists_start

/-- Where the trees of a phrase lie (`Lie`) that is read between two places. A conditional starts
with its keyword, which has been read before. -/
def Phrase.Lies (start stop : Cursor) : Phrase → Prop
  | .statement answer => Lie start.lastStop answer.toList stop.lastStop
  | .list _ nodes => Lie start.lastStop nodes stop.lastStop
  | .body found => Lie start.lastStop [found.node] stop.lastStop
  | .attempt result => Lie start.lastStop result.toOption.toList stop.lastStop
  | .conditional keyword result => keyword.start < keyword.stop → keyword.stop ≤ start.lastStop →
    Lie keyword.start result.toOption.toList stop.lastStop
  | .alternate result =>
    Lie start.lastStop (Node.present result.toOption.toList) stop.lastStop

/-- The `Course` of a statement at the end of the tokens reads none. -/
theorem Course.eq_none_of_ahead_eq_nil {answer : Option Node}
    (h : Course lineEnd start (.statement answer) stop events) (hahead : start.ahead = []) :
    answer = none ∧ stop = start := by
  cases h with
  | atEnd => exact ⟨rfl, rfl⟩
  | skipped _ hread => simp [hread.ahead] at hahead
  | completed hattempt | abandoned hattempt =>
    obtain ⟨token, read, -, hread⟩ := hattempt.exists_first
    simp [hread.ahead] at hahead

/-- `Lie` holds of a statement from where the next token starts. -/
theorem Course.lie_from {answer : Option Node} {token : Token}
    (h : Course lineEnd start (.statement answer) stop events)
    (hlaid : Laid start.lastStop start.ahead last) (htoken : token ∈ start.ahead.head?)
    (hanswer : Lie start.lastStop answer.toList stop.lastStop) (hle : token.start ≤ stop.lastStop) :
    Lie token.start answer.toList stop.lastStop := by
  cases h with
  | atEnd | skipped | abandoned => exact .nil hle
  | @completed _ _ node _ hattempt =>
    obtain ⟨rest, hahead⟩ := List.head?_eq_some_iff.mp htoken
    obtain ⟨first, hfirst, hstart⟩ := hattempt.exists_start
    obtain ⟨-, hstop, hnode⟩ := hanswer.own
    have hfrom : token.start ≤ first.start := by
      rw [hahead] at hlaid hfirst
      cases hlaid with
      | cons _ hlt hrest =>
        rcases List.mem_cons.mp hfirst with rfl | hfirst
        · exact Int.le_refl _
        · have := (hrest.between first hfirst).1
          omega
    exact hnode.mono (by omega) hstop

/-- `synchronize` leads on to where a token ends. -/
theorem lastStop_le_synchronize (cursor : Cursor)
    (hlaid : Laid cursor.lastStop cursor.ahead last) :
    cursor.lastStop ≤ cursor.synchronize.lastStop := by
  obtain ⟨read, hread⟩ := exists_reads_synchronize cursor
  exact (hread.laid hlaid).1.le

/-- `Lie` holds of a body in braces from its opening brace to where it ends, after its
statements. -/
theorem lie_braced {opening : Token} {nodes : List Node} {middle place final : Int}
    (hopening : Laid first [opening] middle) (hnodes : Lie middle nodes place)
    (hfinal : place ≤ final) :
    Lie first [(⟨.between opening.start final, nodes⟩ : Body).node] final := by
  have hplace := hnodes.le
  cases hopening with
  | cons hfirst hlt hrest =>
    have hmiddle := hrest.le
    have hinside : Lie opening.start nodes final := hnodes.mono (by omega) hfinal
    exact Lie.mono (.node rfl (by omega) hinside) hfirst (Int.le_refl _)

/-- `Lie` holds of a body without braces from the first token of its statement to the last. -/
theorem Course.lie_singleBody {span : Span} {answer : Option Node}
    (hstatement : Course lineEnd start (.statement answer) stop events)
    (hspan : start.Spans stop span) (hlaid : Laid start.lastStop start.ahead last)
    (hanswer : Lie start.lastStop answer.toList stop.lastStop) :
    Lie start.lastStop [(⟨span, answer.toList⟩ : Body).node] stop.lastStop := by
  cases hspan with
  | ends hahead =>
    -- only here is the span of a body empty: its statement is missing at the end
    obtain ⟨rfl, rfl⟩ := hstatement.eq_none_of_ahead_eq_nil hahead
    exact Lie.place _
  | @tokens first last hfirst hlast =>
    obtain ⟨read, hread, hne⟩ := hstatement.reads
    obtain ⟨rest, hahead⟩ := List.head?_eq_some_iff.mp hfirst
    obtain ⟨token, read, rfl⟩ := List.exists_cons_of_ne_nil (hne trivial (by simp [hahead]))
    obtain rfl := hread.eq_of_mem_head? hfirst
    cases (hread.laid hlaid).1 with
    | cons hle hlt hrest =>
      have hstop := hrest.le
      have hfrom := hstatement.lie_from hlaid hread.head?_ahead hanswer (by omega)
      rw [← lastStop_of_mem_head? hlast]
      exact Lie.mono (.node rfl (by omega) hfrom) hle (Int.le_refl _)

/-- `Lie` holds of a return from its keyword to the token read last for it. -/
theorem lie_return {keyword token : Token} {tokens : List Token} {semicolon : Option Token}
    {argument : Node} (hargument : DerivesOptional tokens argument)
    (hlaid : Laid first (keyword :: (tokens ++ semicolon.toList)) token.stop) :
    Lie first [.returnStatement (.between keyword.start token.stop) argument] token.stop := by
  cases hlaid with
  | cons hfirst hlt hphrase =>
    obtain ⟨middle, hargumentLaid, hsemicolon⟩ := hphrase.exists_middle
    have hend := hphrase.le
    have hinside := (hargument.lie hargumentLaid).mono (Int.le_of_lt hlt) hsemicolon.le
    exact Lie.mono (.node rfl (by omega) hinside) hfirst (Int.le_refl _)

/-- `Lie` holds of the clauses of a loop after its keyword and before its body. -/
theorem lie_clauses {opening one two closing : Token}
    {initTokens testTokens updateTokens : List Token} {init test update : Node}
    (hinit : DerivesLoopInit initTokens init) (htest : DerivesOptional testTokens test)
    (hupdate : DerivesLoopUpdate updateTokens update)
    (hlaid : Laid first (opening :: (initTokens ++ one :: (testTokens ++ two ::
      (updateTokens ++ [closing])))) last) :
    Lie first (Node.present [init, test, update]) last := by
  cases hlaid with
  | cons hfirst hopening hlaid =>
    obtain ⟨afterInit, hinitLaid, hbeforeOne, hone, hlaid⟩ := hlaid.exists_around
    obtain ⟨afterTest, htestLaid, hbeforeTwo, htwo, hlaid⟩ := hlaid.exists_around
    obtain ⟨afterUpdate, hupdateLaid, hbeforeClosing, hclosing, hrest⟩ := hlaid.exists_around
    have hlast := hrest.le
    have htestLie : Lie afterInit (Node.present [test]) afterTest :=
      (htest.lie htestLaid).mono (by omega) (Int.le_refl _)
    have hupdateLie : Lie afterTest (Node.present [update]) afterUpdate :=
      (hupdate.lie hupdateLaid).mono (by omega) (Int.le_refl _)
    have hclauses := ((hinit.lie hinitLaid).append htestLie).append hupdateLie
    rw [← Node.present_append, ← Node.present_append] at hclauses
    exact hclauses.mono (by omega) (by omega)

/-- `Lie` holds of a conditional if it does of its parts. -/
theorem lie_conditionalNode {keyword : Token} {test alternate : Node} {consequent : Body}
    {middle place : Int} (hlt : keyword.start < middle) (htest : Lie keyword.start [test] middle)
    (hbody : Lie middle [consequent.node] place)
    (halternate : Lie place (Node.present [alternate]) last) :
    Lie keyword.start [conditionalNode keyword test consequent alternate] last := by
  have hle := halternate.le
  unfold conditionalNode
  cases habsent : alternate.isAbsent with
  | true =>
    refine Lie.mono (.node_of_last [test] rfl hlt ?_ htest hbody) (Int.le_refl _) hle
    simp [Node.children, Node.present, habsent]
  | false =>
    have hpresent : Node.present [alternate] = [alternate] := by simp [Node.present, habsent]
    rw [hpresent] at halternate
    have hplace := hbody.le
    refine .node_of_last [test, consequent.node] rfl (by omega) ?_ (htest.append hbody) halternate
    simp [Node.children, hpresent]

/-- What a `Course` reads lies where its tokens are laid. -/
theorem Course.lie (h : Course lineEnd start phrase stop events)
    (hlaid : Laid start.lastStop start.ahead last) : phrase.Lies start stop := by
  induction h with
  | listEnd | atEnd | noAlternate => exact Lie.nil (Int.le_refl _)
  | listStep _ hfirst _ ih ihrest =>
    obtain ⟨read, hread, -⟩ := hfirst.reads
    exact Lie.append (ih hlaid) (ihrest (hread.laid hlaid).2)
  | closedBody _ hopening hlist _ hclosing ih =>
    obtain ⟨hopen, hlaid⟩ := hopening.laid hlaid
    obtain ⟨read, hread, -⟩ := hlist.reads
    obtain ⟨hclose, -⟩ := hclosing.laid (hread.laid hlaid).2
    cases hclose with
    | cons hlast hlt hend =>
      exact (lie_braced hopen (ih hlaid) (by omega)).mono (Int.le_refl _) hend.le
  | unclosedBody _ hopening _ _ hlast ih =>
    obtain ⟨hopen, hlaid⟩ := hopening.laid hlaid
    unfold Phrase.Lies
    rw [lastStop_of_mem_head? hlast]
    exact lie_braced hopen (ih hlaid) (Int.le_of_eq (lastStop_of_mem_head? hlast))
  | singleBody _ hstatement hspan ih => exact hstatement.lie_singleBody hspan hlaid (ih hlaid)
  | @skipped _ middle _ _ hread =>
    obtain ⟨htoken, hlaid⟩ := hread.laid hlaid
    exact Lie.nil (Int.le_trans htoken.le (lastStop_le_synchronize middle hlaid))
  | completed _ ih => exact ih hlaid
  | @abandoned _ failure _ hattempt ih =>
    obtain ⟨read, hread, -⟩ := hattempt.reads
    obtain ⟨hphrase, hlaid⟩ := hread.laid hlaid
    exact Lie.nil (Int.le_trans hphrase.le (lastStop_le_synchronize _ hlaid))
  | declaration _ hkeyword hbinding hread hends =>
    obtain ⟨hkeyword, hlaid⟩ := hkeyword.laid hlaid
    obtain ⟨hphrase, hlaid⟩ := hread.laid hlaid
    cases hkeyword with
    | cons hfirst hlt hle =>
      obtain ⟨hspan, hnode⟩ := hbinding.lie hlt (hphrase.of_le hle.le)
      obtain ⟨hfinal, hstop⟩ := hends.between hlaid hspan
      exact (hnode _ hfinal).mono hfirst hstop
  | ifStatement _ hkeyword _ ih =>
    obtain ⟨hkeyword, hlaid⟩ := hkeyword.laid hlaid
    cases hkeyword with
    | cons hfirst hlt hle => exact Lie.mono (ih hlaid hlt hle.le) hfirst (Int.le_refl _)
  | whileStatement _ _ htest _ hhead _ ih =>
    obtain ⟨hphrase, hlaid⟩ := hhead.laid hlaid
    exact hphrase.lie_led [_] rfl rfl (fun hrest => hrest.lie_inside fun _ _ => htest.lie)
      (ih hlaid)
  | @forStatement _ _ _ _ _ _ _ _ _ _ _ init test update body _ _ _ hinit _ htest _ hupdate _ hhead
      _ ih =>
    obtain ⟨hphrase, hlaid⟩ := hhead.laid hlaid
    exact hphrase.lie_led _ rfl (Node.present_append [init, test, update] [body.node])
      (lie_clauses hinit htest hupdate) (ih hlaid)
  | @function _ _ _ _ name _ _ _ params body _ _ hname _ hparams _ hhead _ ih =>
    obtain ⟨hphrase, hlaid⟩ := hhead.laid hlaid
    refine hphrase.lie_led (name.node :: params) rfl rfl (fun hrest => ?_) (ih hlaid)
    cases hrest with
    | cons hle hlt hrest =>
      exact (Laid.lie_name hle hlt).append (hrest.lie_inside fun _ _ => hparams.lie)
  | classDeclaration _ _ hhead _ _ ih =>
    obtain ⟨hphrase, hlaid⟩ := hhead.laid hlaid
    refine hphrase.lie_led [_] rfl rfl (fun hrest => ?_) (ih hlaid)
    cases hrest with
    | cons hle hlt hrest => exact (Laid.lie_name hle hlt).append (.nil hrest.le)
  | returns _ hargument _ hread hlast =>
    obtain ⟨hphrase, -⟩ := hread.laid hlaid
    unfold Phrase.Lies
    rw [lastStop_of_mem_head? hlast] at hphrase ⊢
    exact lie_return hargument hphrase
  | @expression _ _ _ _ _ tree _ _ _ htree hread hends =>
    obtain ⟨hphrase, hlaid⟩ := hread.laid hlaid
    have hlt := (htree.lie hphrase).start_lt_stop htree.ne_block
    obtain ⟨hfirst, hlast, htree⟩ := (htree.lie hphrase).own
    obtain ⟨hfinal, hstop⟩ := hends.between hlaid hlast
    exact Lie.mono (.node rfl (by omega) (htree.mono (Int.le_refl _) hfinal)) hfirst hstop
  | assignment _ htree hread hends =>
    obtain ⟨hphrase, hlaid⟩ := hread.laid hlaid
    have htree := htree.lie hphrase
    have hlt := htree.start_lt_stop (by rintro _ _ ⟨⟩)
    -- the assignment is taken apart: it ends with its semicolon, not with its value
    obtain ⟨hfirst, hlast, -⟩ := htree.own
    obtain ⟨hfinal, hstop⟩ := hends.between hlaid hlast
    dsimp only [Node.span] at hlt hfirst
    exact Lie.mono (.node rfl (by omega) (htree.children.mono (Int.le_refl _) hfinal)) hfirst hstop
  | failed _ _ hread => exact Lie.nil (hread.laid hlaid).1.le
  | conditionalFailed _ hread =>
    intro hlt hle
    have hend := (hread.laid hlaid).1.le
    exact Lie.nil (by omega)
  | @conditional _ _ _ _ _ _ _ _ _ _ result _ _ _ htest _ hhead hbody _ ih ihrest =>
    intro hlt hle
    obtain ⟨hphrase, hlaid⟩ := hhead.laid hlaid
    obtain ⟨read, hread, -⟩ := hbody.reads
    have htest := hphrase.lie_inside fun _ _ => htest.lie
    have hbetween := htest.le
    replace ih := ih hlaid
    replace ihrest := ihrest (hread.laid hlaid).2
    cases result with
    | error failure =>
      have hbody := ih.le
      have hrest := ihrest.le
      exact Lie.nil (by omega)
    | ok alternate =>
      exact lie_conditionalNode (by omega) (htest.mono (by omega) (by omega)) ih ihrest
  | otherwise _ hword _ _ ih =>
    obtain ⟨hphrase, hlaid⟩ := hword.laid hlaid
    exact (ih hlaid).mono hphrase.le (Int.le_refl _)
  | elseIf _ _ hword _ ih =>
    obtain ⟨hphrase, hlaid⟩ := hword.laid hlaid
    cases hphrase with
    | cons hfirst hlt hphrase =>
      cases hphrase with
      | cons hle hlt' hend =>
        exact (Lie.mono (ih hlaid hlt' hend.le) (by omega) (Int.le_refl _)).present
  | elif _ hword _ ih =>
    obtain ⟨hphrase, hlaid⟩ := hword.laid hlaid
    cases hphrase with
    | cons hfirst hlt hend =>
      exact (Lie.mono (ih hlaid hlt hend.le) hfirst (Int.le_refl _)).present

end Grammar

open Grammar

/-! ## Documents -/

/-- A span of which the end was never corrected: whatever offsets it was made from were in order. -/
def Span.Uncorrected (span : Span) : Prop := ∀ start stop, span = .between start stop → start ≤ stop

/-- `Uncorrected` holds of a span that is not empty, since a correction leaves an empty one. -/
theorem Span.uncorrected_of_lt {span : Span} (h : span.start < span.stop) : span.Uncorrected := by
  rintro start stop rfl
  simp only [between_start, between_stop] at h
  omega

/-- The spans of the tree of a document are in order (`Node.Nests`), and so are those of what its
tokens are taken for on the way. -/
structure SpansInOrder (text : List Char) (tokens : List Token) (reading : Reading) : Prop where
  /-- All spans lie in the text. -/
  within : ∀ node ∈ reading.program.subtrees,
    0 ≤ node.span.start ∧ node.span.start ≤ node.span.stop ∧ node.span.stop ≤ text.length
  /-- The span of a child lies in that of its parent. -/
  nested : ∀ node ∈ reading.program.subtrees, ∀ child ∈ node.children,
    node.span.start ≤ child.span.start ∧ child.span.stop ≤ node.span.stop
  /-- Children come in the order of the text, and they do not overlap. -/
  ordered : ∀ node ∈ reading.program.subtrees,
    node.children.Pairwise fun child later => child.span.stop ≤ later.span.start
  /-- The program takes up the text. -/
  program : reading.program.span = .between 0 text.length
  /-- No span but that of the program was corrected, except that the span of a body without a
  statement is made of one offset. -/
  uncorrected : ∀ statement ∈ reading.statements, ∀ node ∈ statement.subtrees,
    node.span.Uncorrected ∨ ∃ offset, node = .block (.point offset) []
  /-- The spans of an expression that is read from some of the tokens nest, whatever becomes of the
  statement that it stands in. -/
  expressions : ∀ level read tree, read <:+: tokens → Derives level read tree → tree.Nests
  /-- The spans nest of a declaration or of an assignment before its semicolon is found. -/
  clauses : ∀ read tree, read <:+: tokens → DerivesLoopInit read tree →
    ∀ node ∈ Node.present [tree], node.Nests
  /-- The spans nest of a body, wherever among the tokens one is read. -/
  bodies : ∀ bound start, start.tokens = tokens → start.ahead.length ≤ bound →
    (bodyWithin (Text.lineEnd text) bound start).value.1.node.Nests

/-- The tokens of a document are `Laid` from its start. -/
theorem laid_of_tokenize {text : List Char} {tokens : List Token}
    (h : tokenize text = .ok tokens) : Laid 0 tokens text.length := by
  obtain ⟨hwithin, hordered, -, -⟩ := Lexicon.tokenize_eq_ok_iff.mp h
  suffices hlaid : ∀ first : Int, first ≤ text.length → (∀ token ∈ tokens, first ≤ token.start) →
      Laid first tokens text.length from
    hlaid 0 (by omega) fun token htoken => (hwithin token htoken).1
  clear h
  induction tokens with
  | nil => exact fun _ hfirst _ => .nil hfirst
  | cons token tokens ih =>
    intro first _ hfirst
    obtain ⟨hlater, hordered⟩ := List.pairwise_cons.mp hordered
    obtain ⟨⟨-, hlt, hlast⟩, hwithin⟩ := List.forall_mem_cons.mp hwithin
    exact .cons (hfirst token List.mem_cons_self) hlt (ih hwithin hordered _ hlast hlater)

/-- `programStop` is the end of the text. -/
theorem programStop_of_laid {text : List Char} {tokens : List Token}
    (h : Laid 0 tokens text.length) : programStop text tokens = text.length := by
  unfold programStop
  split
  · next token htoken =>
    have hstop := (h.between token (List.mem_of_getLast? htoken)).2.2
    omega
  · rfl

/-- The tree of a document has its spans in order, as `SpansInOrder` spells out. -/
theorem readDocument_spansInOrder {text : List Char} {tokens : List Token}
    (h : tokenize text = .ok tokens) :
    ∃ reading, readDocument text = .ok reading ∧ SpansInOrder text tokens reading := by
  obtain ⟨reading, hreading, hprogram, -⟩ := exists_reading h
  have hlaid := laid_of_tokenize h
  have hspan : reading.program.span = .between 0 text.length := by
    rw [hprogram, ← programStop_of_laid hlaid]
    rfl
  have hchildren : reading.program.children = reading.statements := by
    unfold Reading.statements
    rw [hprogram]
    rfl
  have hstatements : Lie 0 reading.statements text.length := by
    obtain ⟨-, hcourse⟩ := statementsOf_course text tokens
    have hread : Cursor.Reads (.ofTokens tokens) tokens ⟨tokens.reverse, []⟩ := by
      constructor <;> simp [Cursor.ofTokens]
    have hlast := (hread.laid hlaid).2.le
    rw [(reading_eq h hreading).1]
    exact Lie.mono (hcourse.lie hlaid) (Int.le_refl _) hlast
  -- the root may be empty, all other nodes are as their statement has them
  have hrows : ∀ node ∈ reading.program.subtrees,
      InRow node.span.start node.children node.span.stop := by
    refine Node.forall_subtrees_iff.mpr ⟨?_, ?_⟩
    · rw [hspan, hchildren, Span.between_start, Span.between_stop_of_le (by omega)]
      exact hstatements.row
    · rw [hchildren]
      exact fun statement hstatement node hnode => (hstatements.nests _ hstatement node hnode).1
  refine ⟨reading, hreading, ?_, ?_, ?_, hspan, ?_, ?_, ?_, ?_⟩
  · refine Node.forall_subtrees_iff.mpr ⟨?_, ?_⟩
    · rw [hspan, Span.between_start, Span.between_stop_of_le (by omega)]
      omega
    · rw [hchildren]
      intro statement hstatement node hnode
      obtain ⟨hstart, hstop⟩ := hstatements.row.between.1 statement hstatement
      obtain ⟨hstart', hstop'⟩ := (hstatements.nests statement hstatement).within node hnode
      exact ⟨by omega, node.span.start_le_stop, by omega⟩
  · exact fun node hnode => (hrows node hnode).between.1
  · exact fun node hnode => (hrows node hnode).between.2
  · intro statement hstatement node hnode
    exact ((hstatements.nests statement hstatement node hnode).2).imp_left Span.uncorrected_of_lt
  · intro level read tree hwithin hderives
    obtain ⟨start, stop, hread⟩ := hlaid.exists_of_infix hwithin
    exact (hderives.lie hread).nests tree (List.mem_singleton_self tree)
  · intro read tree hwithin hderives
    obtain ⟨start, stop, hread⟩ := hlaid.exists_of_infix hwithin
    exact (hderives.lie hread).nests
  · intro bound start htokens hbound
    have hcourse := body_course (statementWithin_course (Text.lineEnd text) bound) start hbound
    have hread : Cursor.Reads (.ofTokens tokens) start.behind.reverse start :=
      ⟨htokens.symm, by simp [Cursor.ofTokens]⟩
    exact (Course.lie hcourse (hread.laid hlaid).2).nests _ (List.mem_singleton_self _)

/-- A semicolon is missing behind parentheses, a brace closes nothing, and a body has no statement:
the first statement ends before the parenthesis that closes, and the body is at the end. -/
theorem readDocument_spansInOrder_broken :
    let text := "x = (1) \x7d if (b)".toList
    let tokens : List Token := [⟨.identifier, "x", 0, 1⟩, ⟨.symbol, "=", 2, 3⟩,
      ⟨.symbol, "(", 4, 5⟩, ⟨.number, "1", 5, 6⟩, ⟨.symbol, ")", 6, 7⟩, ⟨.symbol, "\x7d", 8, 9⟩,
      ⟨.keyword, "if", 10, 12⟩, ⟨.symbol, "(", 13, 14⟩, ⟨.identifier, "b", 14, 15⟩,
      ⟨.symbol, ")", 15, 16⟩]
    tokenize text = .ok tokens ∧ ∃ reading, readDocument text = .ok reading ∧
      SpansInOrder text tokens reading ∧ reading.statements = [
        .assignment (.between 0 6) "=" (.identifier (.between 0 1) "x")
          (.literal (.between 5 6) (.ofNumeral "1") "1" "number"),
        .ifStatement (.between 10 16) (.identifier (.between 14 15) "b") (.block (.point 16) [])
          .absent] := by
  intro text tokens
  have htokens : tokenize text = .ok tokens := by decide +kernel
  obtain ⟨reading, hreading, hspans⟩ := readDocument_spansInOrder htokens
  exact ⟨htokens, reading, hreading, hspans, (reading_eq htokens hreading).1⟩

end NeutronLang
