import NeutronLang.Grammar.Statement
import NeutronLang.Proofs.FramedExpressions
import NeutronLang.Proofs.FramedReaders

/-!
# Bodies inside a frame

A statement ends inside a frame where it ends outside, and so does a body, if the statements in it
do. A list of statements is the exception: at the end of the document it goes on inside, so
`statements_framed` says that the list inside is the list outside, continued. In a body that cannot
happen unless the body is left open, which shows on the record (`framed_of_list`).
-/

namespace NeutronLang.Grammar

variable {frame : Frame} {start middle stop : Cursor} {read : List Token}
  {bound bound' count count' : Nat} {lineEnd lineEnd' : Int → Int}

/-! ## Ends of statements -/

/-- The lines of the document end inside the frame where they end outside. -/
def KeepsLines (frame : Frame) (lineEnd lineEnd' : Int → Int) : Prop :=
  ∀ offset, frame.Covers offset →
    lineEnd' (offset + frame.distance) = lineEnd offset + frame.distance

/-- The answers are an offset in the text and its counterpart, moved by the `distance` of the
frame. -/
def IsOffset (frame : Frame) (_ : List Token) (offset offset' : Int) : Prop :=
  offset' = offset + frame.distance ∧ frame.Covers offset

/-- `terminate` ends a statement inside the frame where it does outside. -/
theorem terminate_framed (hlines : KeepsLines frame lineEnd lineEnd') (after : Clause)
    {offset : Int} (hoffset : frame.Covers offset) (hfits : frame.Fits start) :
    Recovering.Framed frame (IsOffset frame) start (terminate lineEnd after offset)
      (terminate lineEnd' after (offset + frame.distance)) := by
  have hplace := frame.index_cursor start
  refine .get (.acceptText (.inl (by decide)) hfits ?_ ?_)
  · have hevent : frame.event (.unterminated (.missingSemicolon after offset (lineEnd offset))
        start.index) = .unterminated (.missingSemicolon after (offset + frame.distance)
          (lineEnd' (offset + frame.distance))) (frame.cursor start).index := by
      rw [hlines offset hoffset, hplace]
      unfold SyntaxError.missingSemicolon
      rw [← Frame.span_between]
      rfl
    rw [← hevent]
    exact .record (.pure ⟨rfl, hoffset⟩)
  · intro token middle hread hfits' _
    have hevent : frame.event (.terminated after start.index) =
        .terminated after (frame.cursor start).index := by
      rw [hplace]
      rfl
    rw [← hevent]
    exact .record (.pure ⟨rfl, (hfits.covered_of_reads hread).2⟩)

/-! ## Bodies -/

/-- A place inside a statement: something has been read, and the document is not at its end
(`Frame.Inside`). -/
structure Midway (frame : Frame) (cursor : Cursor) : Prop where
  inside : frame.Inside cursor
  behind : cursor.behind ≠ []

/-- `Midway` holds of a place after a token that is no semicolon. -/
theorem midway_of_reads {token : Token} (hfits : frame.Fits start)
    (hread : start.Reads [token] stop)
    (hlexeme : token.lexeme ≠ ";") : Midway frame stop where
  inside := hfits.inside_of_reads hread hlexeme
  behind := by
    rw [hread.behind]
    simp

/-- `behind` is not empty any more once something has been read. -/
theorem behind_ne_of_reads (h : start.behind ≠ []) (hread : start.Reads read stop) :
    stop.behind ≠ [] := by
  rw [hread.behind]
  exact List.append_ne_nil_of_right_ne_nil _ h

/-- `lastStop` moves with the document after a token, and it lies in the text. -/
theorem lastStop_cursor (hfits : frame.Fits stop) (hbehind : stop.behind ≠ []) :
    (frame.cursor stop).lastStop = stop.lastStop + frame.distance ∧
      frame.Covers stop.lastStop := by
  obtain ⟨behind, ahead⟩ := stop
  obtain ⟨token, behind, rfl⟩ := List.exists_cons_of_ne_nil hbehind
  have hmem : token ∈ Cursor.tokens ⟨token :: behind, ahead⟩ := by simp [Cursor.tokens]
  exact ⟨rfl, (hfits.covered token hmem).2⟩

/-- `spanTo` from inside a statement moves with the document, and it lies in the text. -/
theorem spanTo_cursor (hfits : frame.Fits start) (hinside : frame.Inside start)
    (hread : start.Reads read stop) (hbehind : stop.behind ≠ []) :
    (frame.cursor start).spanTo (frame.cursor stop) = frame.span (start.spanTo stop) ∧
      frame.Covers (start.spanTo stop).start ∧ frame.Covers (start.spanTo stop).stop := by
  obtain ⟨hlast, hcovers⟩ := lastStop_cursor (hfits.of_reads hread) hbehind
  obtain ⟨behind, ahead⟩ := start
  cases ahead with
  | nil =>
    have hahead : frame.ahead = [] := hinside rfl
    have hnothing : read = [] := (List.append_eq_nil_iff.mp hread.ahead.symm).1
    rw [hnothing] at hread
    obtain rfl := hread.eq_of_nil
    have hspan : (frame.cursor ⟨behind, []⟩).spanTo (frame.cursor ⟨behind, []⟩) =
        .point (frame.cursor ⟨behind, []⟩).lastStop := by
      simp [Cursor.spanTo, Frame.cursor, hahead]
    rw [hspan, hlast]
    exact ⟨rfl, hcovers, hcovers⟩
  | cons token ahead =>
    have hmem : token ∈ Cursor.tokens ⟨behind, token :: ahead⟩ := by simp [Cursor.tokens]
    have hstart := (hfits.covered token hmem).1
    refine ⟨?_, hstart, Frame.covers_between hstart hcovers⟩
    show Span.between (frame.token token).start (frame.cursor stop).lastStop = _
    rw [hlast]
    exact (frame.span_between _ _).symm

/-- A body and its counterpart, whose span and statements are moved by the `frame`. The body lies in
the text. -/
structure MatchesBody (frame : Frame) (body body' : Body) : Prop where
  eq : body' = ⟨frame.span body.span, body.statements.map frame.node⟩
  start : frame.Covers body.span.start
  stop : frame.Covers body.span.stop

/-- The answers are a body and its counterpart (`MatchesBody`). -/
def IsBody (frame : Frame) (_ : List Token) (body body' : Body) : Prop :=
  MatchesBody frame body body'

/-- The node of a body `Matches` its counterpart. -/
theorem MatchesBody.node {body body' : Body} (h : MatchesBody frame body body') :
    frame.Matches body.node body'.node where
  eq := by
    rw [h.eq]
    simp [Body.node, Node.mapSpans]
  present := rfl
  start := h.start
  stop := h.stop

/-- From each place within `bound` and `bound'` that is not at the end of the document, `statement`
does outside what `statement'` does inside. -/
def StatementFramed (frame : Frame) (bound bound' : Nat)
    (statement statement' : Recovering (Option Node)) : Prop :=
  ∀ start, frame.Fits start → frame.Within bound bound' start → frame.Inside start →
    Recovering.Framed frame (Attempt.IsStatement frame start) start statement statement'

/-- What is read of a list inside the frame, if what was `found` before is put before it. -/
def prepended (frame : Frame) (found : List Node) (events : List Event)
    (more : Traced (List Node × Cursor)) : Traced (List Node × Cursor) where
  value := (found.map frame.node ++ more.value.1, more.value.2)
  events := events.map frame.event ++ more.events

/-- What reading a list by `statements` gives outside a frame and inside. Inside, the list is the
same, continued from where it ends outside. -/
inductive ListAgrees (frame : Frame) (closing : Option String)
    (statement' : Recovering (Option Node)) (start : Cursor) :
    Traced (List Node × Cursor) → Traced (List Node × Cursor) → Prop where
  | kept {read : List Token} {found : List Node} {stop : Cursor} {events : List Event}
      {rest : Nat} :
      start.Reads read stop → (stop.atEnd || closing.any stop.sees) = true →
      stop.ahead.length + frame.ahead.length ≤ rest →
      ListAgrees frame closing statement' start ⟨(found, stop), events⟩
        (prepended frame found events
          (statements closing statement' rest (frame.cursor stop)))
  | cut {outcome outcome' : Traced (List Node × Cursor)} {event : Event} :
      frame.ahead ≠ [] → event ∈ outcome.events → event.isCut = true →
      ListAgrees frame closing statement' start outcome outcome'

/-- `statements` end, or go on with a statement. -/
theorem statements_succ (closing : Option String) (statement : Recovering (Option Node))
    (bound : Nat) (start : Cursor) :
    statements closing statement (bound + 1) start =
      if start.atEnd || closing.any start.sees then ⟨([], start), []⟩
      else
        let first := statement start
        let more := statements closing statement bound first.value.2
        ⟨(first.value.1.toList ++ more.value.1, more.value.2), first.events ++ more.events⟩ := by
  have hends : (listEnds closing start).value = (start.atEnd || closing.any start.sees, start) :=
    rfl
  rw [statements]
  show (⟨_, [] ++ _⟩ : Traced (List Node × Cursor)) = _
  rw [List.nil_append, hends]
  dsimp only
  cases start.atEnd || closing.any start.sees with
  | true => rfl
  | false =>
    show (⟨_, [] ++ (_ ++ (_ ++ []))⟩ : Traced (List Node × Cursor)) = _
    rw [List.nil_append, List.append_nil]
    rfl

/-- `statements` inside the frame are those outside, continued from where these end. -/
theorem statements_framed {closing : Option String}
    (hclosing : ∀ lexeme ∈ closing, opensStatement lexeme = false)
    {statement statement' : Recovering (Option Node)}
    (hstatement : StatementFramed frame bound bound' statement statement')
    (hfits : frame.Fits start) (hbounds : frame.Within bound bound' start)
    (hcounts : frame.Within count count' start) :
    ListAgrees frame closing statement' start (statements closing statement count start)
      (statements closing statement' count' (frame.cursor start)) := by
  induction count generalizing count' start with
  | zero =>
    have hend : start.ahead = [] := List.length_eq_zero_iff.mp (Nat.le_zero.mp hcounts.outside)
    exact .kept (.refl start) (by simp [Cursor.atEnd, hend]) hcounts.inside
  | succ count ih =>
    cases hends : start.atEnd || closing.any start.sees with
    | true =>
      rw [statements_succ, if_pos hends]
      exact .kept (.refl start) hends hcounts.inside
    | false =>
      obtain ⟨hmore, hclose⟩ := Bool.or_eq_false_iff.mp hends
      have hahead : start.ahead ≠ [] := fun hnil => by simp [Cursor.atEnd, hnil] at hmore
      have hinside : frame.Inside start := fun hnil => absurd hnil hahead
      obtain ⟨_, count', -, rfl⟩ := hcounts.exists_succ hahead
      -- the list goes on inside as well: the same token is next, and it does not close the list
      have hends' :
          ((frame.cursor start).atEnd || closing.any (frame.cursor start).sees) = false := by
        rw [Frame.atEnd_cursor hinside, hmore, Bool.false_or]
        cases closing with
        | none => rfl
        | some lexeme =>
          rw [Option.any_some, frame.sees_cursor (hclosing lexeme rfl)]
          exact hclose
      have hfirst := hstatement start hfits hbounds hinside
      unfold Recovering.Framed at hfirst
      rw [statements_succ, statements_succ, if_neg (by simp [hends]), if_neg (by simp [hends'])]
      generalize statement start = first at hfirst
      generalize statement' (frame.cursor start) = first' at hfirst
      cases hfirst with
      | kept hread hanswer =>
        obtain ⟨rfl, hne⟩ := hanswer
        have hcounts := hcounts.of_reads_ne hread (hne hahead)
        have hlist := ih (hfits.of_reads hread) (hbounds.of_reads hread) hcounts
        rename_i read middle answer events
        dsimp only
        generalize statements closing statement count middle = more at hlist
        generalize statements closing statement' count' (frame.cursor middle) = more' at hlist
        cases hlist with
        | @kept _ found stop events' rest hmore hends hrest =>
          -- what is put before the rest of the list and then before all of it may be put there at
          -- once
          have hprepended (list : Traced (List Node × Cursor)) :
              (⟨((answer.map frame.node).toList ++ (prepended frame found events' list).value.1,
                (prepended frame found events' list).value.2), events.map frame.event ++
                  (prepended frame found events' list).events⟩ : Traced (List Node × Cursor)) =
                prepended frame (answer.toList ++ found) (events ++ events') list := by
            cases answer <;> simp [prepended]
          rw [hprepended]
          exact .kept (hread.trans hmore) hends hrest
        | cut hahead hmem hcut => exact .cut hahead (List.mem_append_right _ hmem) hcut
      | cut hahead hmem hcut => exact .cut hahead (List.mem_append_left _ hmem) hcut

/-- `statements` that end where they start are empty. -/
theorem statements_of_ends {closing : Option String} {statement : Recovering (Option Node)}
    (h : (start.atEnd || closing.any start.sees) = true) :
    statements closing statement count start = ⟨([], start), []⟩ := by
  cases count with
  | zero => rfl
  | succ count => rw [statements_succ, if_pos h]

/-- A reader that begins with `statements` goes on in the same way inside and outside, if it shows
where the document ends before the list is closed. -/
theorem framed_of_list {α : Type} {R : List Token → α → α → Prop} {lexeme : String}
    {statement statement' : Recovering (Option Node)} {next next' : List Node → Recovering α}
    (hlexeme : opensStatement lexeme = false) (hfits : frame.Fits start)
    (hlist : ListAgrees frame (some lexeme) statement' start
      (statements (some lexeme) statement count start)
      (statements (some lexeme) statement' count' (frame.cursor start)))
    (hnext : ∀ read found stop, start.Reads read stop → frame.Fits stop → frame.Inside stop →
      Recovering.Framed frame (fun more => R (read ++ more)) stop (next found)
        (next' (found.map frame.node)))
    (hcut : ∀ found stop, stop.ahead = [] →
      ∃ event ∈ (next found stop).events, event.isCut = true) :
    Recovering.Framed frame R start (statements (some lexeme) statement count >>= next)
      (statements (some lexeme) statement' count' >>= next') := by
  unfold Recovering.Framed
  show Recovering.Agrees frame R start
    (statements (some lexeme) statement count start >>= fun (x, middle) => next x middle)
    (statements (some lexeme) statement' count' (frame.cursor start) >>= fun (x, middle) =>
      next' x middle)
  generalize statements (some lexeme) statement count start = outcome at hlist
  generalize statements (some lexeme) statement' count' (frame.cursor start) = outcome' at hlist
  cases hlist with
  | @kept read found stop events rest hread hends hrest =>
    -- a list may stop at the end of the document; then the frame goes on, but that is on record
    by_cases hinside : frame.Inside stop
    · have hends' : ((frame.cursor stop).atEnd ||
          (some lexeme).any (frame.cursor stop).sees) = true := by
        rw [Frame.atEnd_cursor hinside, Option.any_some, frame.sees_cursor hlexeme]
        exact hends
      have hnone : prepended frame found events
          (statements (some lexeme) statement' rest (frame.cursor stop)) =
            ⟨(found.map frame.node, frame.cursor stop), events.map frame.event⟩ := by
        rw [statements_of_ends hends', prepended, List.append_nil, List.append_nil]
      rw [hnone]
      exact .after events hread (hnext read found stop hread (hfits.of_reads hread) hinside)
    · obtain ⟨hend, hahead⟩ := Classical.not_imp.mp hinside
      obtain ⟨event, hmem, hcut⟩ := hcut found stop hend
      exact .cut hahead (List.mem_append_right _ hmem) hcut
  | cut hahead hmem hcut => exact .cut hahead (List.mem_append_left _ hmem) hcut

/-- From each place within `bound` and `bound'` and inside a statement, `body` does outside what
`body'` does inside. -/
def BodyFramed (frame : Frame) (bound bound' : Nat) (body body' : Recovering Body) : Prop :=
  ∀ start, frame.Fits start → frame.Within bound bound' start → Midway frame start →
    Recovering.Framed frame (IsBody frame) start body body'

/-- `body` is the same inside a frame, if the statements in it are. -/
theorem body_framed {statement statement' : Recovering (Option Node)}
    (hstatement : StatementFramed frame bound bound' statement statement') :
    BodyFramed frame bound bound' (body statement bound) (body statement' bound') := by
  intro start hfits hbounds hmidway
  have hstart := frame.index_cursor start
  refine .get (.acceptText (.inl (by decide)) hfits ?_ ?_)
  · -- a body without braces is a statement
    refine .bind hfits (hstatement start hfits hbounds hmidway.inside) ?_
    rintro read found _ stop hread hfits' ⟨rfl, -⟩
    have hbehind := behind_ne_of_reads hmidway.behind hread
    obtain ⟨hspan, hfirst, hlast⟩ := spanTo_cursor hfits hmidway.inside hread hbehind
    refine .get (.pure ⟨?_, hfirst, hlast⟩)
    rw [hspan]
    cases found <;> rfl
  · intro opening middle hread hfits' _
    obtain ⟨hopening, -⟩ := hfits.covered_of_reads hread
    have hbounds' := hbounds.of_reads hread
    have hlist : ListAgrees frame (some "\x7d") statement' middle
        (statements (some "\x7d") statement bound middle)
        (statements (some "\x7d") statement' bound' (frame.cursor middle)) := by
      refine statements_framed ?_ hstatement hfits' hbounds' hbounds'
      rintro _ ⟨⟩
      decide
    refine framed_of_list (by decide) hfits' hlist ?_ ?_
    · intro read found stop hread' hfits' hinside
      have hstop := frame.index_cursor stop
      refine .get (.acceptText (.inl (by decide)) hfits' ?_ ?_)
      · -- no brace closes the body
        have hbehind : stop.behind ≠ [] := by
          rw [hread'.behind, hread.behind]
          simp
        obtain ⟨hlast, hcovers⟩ := lastStop_cursor hfits' hbehind
        have hevent : frame.event (.unclosed start.index) =
            .unclosed (frame.cursor start).index := by
          rw [hstart]
          rfl
        rw [← hevent, hlast]
        refine .record (.pure ⟨?_, hopening, Frame.covers_between hopening hcovers⟩)
        rw [frame.span_between]
        rfl
      · intro closing last hread hfits _
        obtain ⟨-, hclosing⟩ := hfits'.covered_of_reads hread
        have hevent : frame.event (.closed start.index stop.index) =
            .closed (frame.cursor start).index (frame.cursor stop).index := by
          rw [hstart, hstop]
          rfl
        rw [← hevent]
        refine .record (.pure ⟨?_, hopening, Frame.covers_between hopening hclosing⟩)
        rw [frame.span_between]
        rfl
    · -- where the list is cut by the end of the document the body is recorded as unclosed
      intro found stop hend
      obtain ⟨behind, ahead⟩ := stop
      obtain rfl : ahead = [] := hend
      exact ⟨.unclosed start.index, List.mem_cons_self, rfl⟩

end NeutronLang.Grammar
