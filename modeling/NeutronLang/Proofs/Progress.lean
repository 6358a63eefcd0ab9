import NeutronLang.Proofs.JoinedDocuments
import NeutronLang.Proofs.StatementSoundness

/-!
# Reading makes progress

Whatever the tokens are, reading them ends with a program. Each statement is read from at least one
token, each failure lies past the token that its attempt began with, and recovery goes on from
there; so no token is where two attempts begin, and there are no more errors than tokens.

All of this is said of courses first, by induction on them. The one invariant behind it is that what
a course records lies between its places (`Course.recorded`), and for an attempt past the
first token: then the attempts that are made one after the other begin at places further and further
on, those inside an attempt that fails included.
-/

namespace NeutronLang

/-- The place at which an event begins an attempt, if it does. -/
def Event.began? : Event → Option Nat
  | began start => some start
  | _ => none

/-- The places of an event are in order and lie between `first` and `last`. That an attempt is given
up lies past the token that it began with, and its error is found at that place and reported on a
token. -/
def Event.LiesBetween (first last : Nat) : Event → Prop
  | began start => first ≤ start ∧ start < last
  | completed start stop => first ≤ start ∧ start < stop ∧ stop ≤ last
  | terminated _ place => first ≤ place ∧ place < last
  | unterminated _ place => first ≤ place ∧ place ≤ last
  | closed start stop => first ≤ start ∧ start < stop ∧ stop < last
  | unclosed start => first ≤ start ∧ start < last
  | skipped _ start stop => first ≤ start ∧ start < stop ∧ stop ≤ last
  | abandoned error start failed resume =>
    first ≤ start ∧ start < failed ∧ failed ≤ resume ∧ resume ≤ last ∧
      error.index = some (failed : Int) ∧ error.token.isSome = true

/-- `LiesBetween` two places holds between any that are further apart. -/
theorem Event.LiesBetween.mono {event : Event} {first last before after : Nat}
    (h : event.LiesBetween first last) (hfirst : before ≤ first) (hlast : last ≤ after) :
    event.LiesBetween before after := by
  cases event <;> simp only [LiesBetween] at h ⊢ <;> first | omega | skip
  obtain ⟨hstart, hfailed, hresume, hstop, herror⟩ := h
  exact ⟨by omega, hfailed, hresume, by omega, herror⟩

/-- A record of events between two places, in which each attempt (`Event.began?`) begins further on
than those before it. -/
structure Recorded (first last : Nat) (events : List Event) : Prop where
  between : ∀ event ∈ events, event.LiesBetween first last
  begins : (events.filterMap Event.began?).Pairwise (· < ·)

namespace Recorded

variable {first middle last : Nat} {events more : List Event}

/-- `Recorded` holds of no events between any two places. -/
theorem nil : Recorded first last [] := ⟨by simp, by simp⟩

/-- `Recorded` between two places holds between any that are further apart. -/
theorem mono {before after : Nat} (h : Recorded first last events) (hfirst : before ≤ first)
    (hlast : last ≤ after) : Recorded before after events :=
  ⟨fun event hevent => (h.between event hevent).mono hfirst hlast, h.begins⟩

/-- What `began?` gives of the events on a record lies between its places. -/
theorem began_between (h : Recorded first last events) {start : Nat}
    (hstart : start ∈ events.filterMap Event.began?) : first ≤ start ∧ start < last := by
  obtain ⟨event, hevent, hbegan⟩ := List.mem_filterMap.mp hstart
  have hbetween := h.between event hevent
  cases event <;> cases hbegan
  exact hbetween

/-- `Recorded` holds of two records of what is read one after the other. -/
theorem append (h : Recorded first middle events) (hmore : Recorded middle last more)
    (hfirst : first ≤ middle) (hlast : middle ≤ last) : Recorded first last (events ++ more) where
  between event hevent := by
    rcases List.mem_append.mp hevent with hevent | hevent
    · exact (h.between event hevent).mono (Nat.le_refl _) hlast
    · exact (hmore.between event hevent).mono hfirst (Nat.le_refl _)
  begins := by
    rw [List.filterMap_append, List.pairwise_append]
    refine ⟨h.begins, hmore.begins, fun start hstart start' hstart' => ?_⟩
    exact Nat.lt_of_lt_of_le (h.began_between hstart).2 (hmore.began_between hstart').1

/-- `Recorded` stays true with one more event that begins no attempt. -/
theorem concat {event : Event} (h : Recorded first last events)
    (hevent : event.LiesBetween first last) (hbegan : event.began? = none) :
    Recorded first last (events ++ [event]) where
  between := by
    simpa using fun other hother => hother.elim (h.between other) fun heq => heq ▸ hevent
  begins := by
    rw [List.filterMap_append, List.filterMap_cons_none hbegan, List.filterMap_nil, List.append_nil]
    exact h.begins

/-- `Recorded` stays true when the beginning of an attempt is put before what is recorded behind its
first token. -/
theorem cons_began {start : Nat} (h : Recorded (start + 1) last events) (hlast : start < last) :
    Recorded start last (.began start :: events) := by
  have hbegan : Recorded start (start + 1) [.began start] :=
    ⟨by simp [Event.LiesBetween], by simp [Event.began?]⟩
  exact hbegan.append h (Nat.le_succ start) hlast

end Recorded

/-- `Reads` moves the place on by as many as tokens are read. -/
theorem Cursor.Reads.index_eq {start stop : Cursor} {read : List Token}
    (h : start.Reads read stop) : stop.index = start.index + read.length := by
  unfold Cursor.index
  rw [h.behind, List.length_append, List.length_reverse, Nat.add_comm]

/-- The next token is the one at its place. -/
theorem Cursor.Reads.getElem?_eq {start stop : Cursor} {token : Token} {read : List Token}
    (h : start.Reads (token :: read) stop) : start.tokens[start.index]? = some token := by
  unfold Cursor.tokens Cursor.index
  rw [List.getElem?_append_right (by simp), h.ahead]
  simp

namespace Grammar

variable {lineEnd : Int → Int} {start stop : Cursor} {events : List Event} {phrase : Phrase}

/-- A `Course` does not lead back. -/
theorem Course.index_le (h : Course lineEnd start phrase stop events) :
    start.index ≤ stop.index := by
  obtain ⟨read, hread, -⟩ := h.reads
  rw [hread.index_eq]
  exact Nat.le_add_right _ _

/-- `synchronize` does not lead back. -/
theorem index_le_synchronize (cursor : Cursor) : cursor.index ≤ cursor.synchronize.index := by
  obtain ⟨read, hread⟩ := exists_reads_synchronize cursor
  rw [hread.index_eq]
  exact Nat.le_add_right _ _

/-- The `Course` of an attempt leads past the token that it begins with. -/
theorem Course.index_lt {result : Except Failure Node}
    (h : Course lineEnd start (.attempt result) stop events) : start.index < stop.index := by
  obtain ⟨token, read, -, hread⟩ := h.exists_first
  rw [hread.index_eq, List.length_cons]
  omega

/-- `Reads` leads past a token that is read. -/
theorem index_lt_of_reads {token : Token} {read : List Token}
    (h : start.Reads (token :: read) stop) : start.index < stop.index := by
  rw [h.index_eq, List.length_cons]
  omega

/-- The event with which a statement `Ends` is recorded where it ends. -/
theorem Ends.recorded {after : Clause} {offset final : Int} {event : Event}
    (h : Ends lineEnd after offset start final stop event) :
    Recorded start.index stop.index [event] := by
  cases h with
  | semicolon _ hread =>
    exact Recorded.nil.concat ⟨Nat.le_refl _, index_lt_of_reads hread⟩ rfl
  | missing => exact Recorded.nil.concat ⟨Nat.le_refl _, Nat.le_refl _⟩ rfl

/-- The place from which on a `Phrase` records events: that after the first token of an attempt. -/
def Phrase.recordsFrom (start : Cursor) : Phrase → Nat
  | .attempt _ => start.index + 1
  | _ => start.index

/-- The error of a failure is reported on a token, if there are any at all. -/
theorem isSome_token_error {failure : Failure} {token : Token} {read : List Token}
    (h : start.Reads (token :: read) failure.cursor) : failure.error.token.isSome = true := by
  show failure.cursor.offender?.isSome = true
  obtain ⟨last, hlast⟩ := exists_last_of_reads h
  unfold Cursor.offender?
  rw [hlast]
  cases failure.cursor.ahead.head? <;> rfl

/-- The events of a `Course` lie between its places and, for an attempt, past its first token. -/
theorem Course.recorded (h : Course lineEnd start phrase stop events) :
    Recorded (phrase.recordsFrom start) stop.index events := by
  induction h with
  | listEnd | noAlternate | atEnd | returns | failed | conditionalFailed => exact .nil
  | listStep _ hfirst hrest ih ihrest => exact ih.append ihrest hfirst.index_le hrest.index_le
  | closedBody _ hopening hlist _ hclosing ih =>
    have hstart := index_lt_of_reads hopening
    have hinner := hlist.index_le
    have hstop := index_lt_of_reads hclosing
    exact (ih.mono (Nat.le_of_lt hstart) (Nat.le_of_lt hstop)).concat
      ⟨Nat.le_refl _, by omega, hstop⟩ rfl
  | unclosedBody _ hopening hlist _ _ ih =>
    have hstart := index_lt_of_reads hopening
    have hinner := hlist.index_le
    exact (ih.mono (Nat.le_of_lt hstart) (Nat.le_refl _)).concat ⟨Nat.le_refl _, by omega⟩ rfl
  | singleBody _ _ _ ih => exact ih
  | @skipped _ middle _ _ hread =>
    have hlt : _ < middle.synchronize.index :=
      Nat.lt_of_lt_of_le (index_lt_of_reads hread) (index_le_synchronize middle)
    exact (Recorded.nil.cons_began hlt).concat ⟨Nat.le_refl _, hlt, Nat.le_refl _⟩ rfl
  | completed hattempt ih =>
    have hstart := hattempt.index_lt
    exact (ih.cons_began hstart).concat ⟨Nat.le_refl _, hstart, Nat.le_refl _⟩ rfl
  | @abandoned _ failure _ hattempt ih =>
    have hstart := hattempt.index_lt
    have hstop := index_le_synchronize failure.cursor
    obtain ⟨token, read, -, hread⟩ := hattempt.exists_first
    -- the attempt has recorded nothing behind its failure, and recovery goes on from there
    exact ((ih.mono (Nat.le_refl _) hstop).cons_began (by omega)).concat
      ⟨Nat.le_refl _, hstart, hstop, Nat.le_refl _, rfl, isSome_token_error hread⟩ rfl
  | declaration _ hkeyword _ hread hends =>
    exact hends.recorded.mono (index_lt_of_reads (hkeyword.cons hread)) (Nat.le_refl _)
  | ifStatement _ hkeyword _ ih =>
    exact ih.mono (index_lt_of_reads hkeyword) (Nat.le_refl _)
  | whileStatement _ _ _ _ hhead _ ih | forStatement _ _ _ _ _ _ _ _ hhead _ ih
  | function _ _ _ _ _ hhead _ ih | classDeclaration _ _ hhead _ _ ih =>
    exact ih.mono (index_lt_of_reads hhead) (Nat.le_refl _)
  | expression _ _ hread hends | assignment _ _ hread hends =>
    exact hends.recorded.mono (index_lt_of_reads hread) (Nat.le_refl _)
  | conditional _ _ _ hhead hbody hrest ih ihrest =>
    -- the body and the alternative follow one another, both behind the head
    have hinner := index_lt_of_reads hhead
    have hbodyIndex := hbody.index_le
    exact (ih.mono (Nat.le_of_lt hinner) (Nat.le_refl _)).append ihrest (by omega) hrest.index_le
  | otherwise _ hword _ _ ih | elseIf _ _ hword _ ih | elif _ hword _ ih =>
    exact ih.mono (Nat.le_of_lt (index_lt_of_reads hword)) (Nat.le_refl _)

/-- How many more errors than attempts a `Phrase` may record: an attempt that succeeds may lack its
semicolon, and it is not what begins it. -/
def Phrase.slack : Phrase → Nat
  | .attempt (.ok _) => 1
  | _ => 0

/-- A `Course` records no more errors than attempts, counting the one that it is itself. -/
theorem Course.errors_le (h : Course lineEnd start phrase stop events) :
    (events.filterMap Event.error?).length ≤
      (events.filterMap Event.began?).length + phrase.slack := by
  induction h with
  | listEnd | noAlternate | atEnd | returns | failed | conditionalFailed => exact Nat.zero_le _
  | listStep _ _ _ ih ihrest | conditional _ _ _ _ _ _ ih ihrest =>
    simp only [List.filterMap_append, List.length_append]
    exact Nat.le_trans (Nat.add_le_add ih ihrest) (by simp [Phrase.slack])
  | closedBody _ _ _ _ _ ih | unclosedBody _ _ _ _ _ ih =>
    simpa [List.filterMap_cons, Event.error?, Event.began?, Phrase.slack] using ih
  | skipped => simp [List.filterMap_cons, Event.error?]
  | completed _ ih | abandoned _ ih =>
    simpa [List.filterMap_cons, Event.error?, Event.began?, Phrase.slack] using ih
  | declaration _ _ _ _ hends | expression _ _ _ hends | assignment _ _ _ hends =>
    cases hends <;> simp [List.filterMap_cons, Event.error?, Phrase.slack]
  | singleBody _ _ _ ih | whileStatement _ _ _ _ _ _ ih | forStatement _ _ _ _ _ _ _ _ _ _ ih
  | function _ _ _ _ _ _ _ ih | classDeclaration _ _ _ _ _ ih | ifStatement _ _ _ ih
  | otherwise _ _ _ _ ih | elseIf _ _ _ _ ih | elif _ _ _ ih =>
    exact Nat.le_trans ih (Nat.le_add_right _ _)

/-- Whether the tokens of a place start where a document can have them. -/
def Nonnegative (cursor : Cursor) : Prop := ∀ token ∈ cursor.tokens, 0 ≤ token.start

/-- A span that stops with a token that is read stops no earlier than the document starts. -/
theorem Nonnegative.le_stop {read : List Token} {span : Span} (h : Nonnegative start)
    (hread : start.Reads read stop) (hspan : ∃ token ∈ read, span.start = token.start) :
    0 ≤ span.stop := by
  obtain ⟨token, htoken, hstart⟩ := hspan
  have hnonneg := (hread.forall_tokens h).2 token htoken
  exact Int.le_trans (hstart ▸ hnonneg) span.start_le_stop

/-- A semicolon is missing where the statement before it ends, which is where it was looked for. -/
theorem Ends.unterminated_nonneg {after : Clause} {offset final : Int} {event : Event}
    (h : Ends lineEnd after offset start final stop event) (hoffset : 0 ≤ offset) :
    ∀ error place, Event.unterminated error place ∈ [event] → 0 ≤ error.span.start := by
  cases h with
  | semicolon => simp
  | missing =>
    intro error place hmem
    cases List.mem_singleton.mp hmem
    exact hoffset

/-- A `Course` finds a semicolon missing no earlier than the document starts, if no token starts
earlier. -/
theorem Course.unterminated_nonneg (h : Course lineEnd start phrase stop events)
    (htokens : Nonnegative start) :
    ∀ error place, Event.unterminated error place ∈ events → 0 ≤ error.span.start := by
  induction h with
  | listEnd | noAlternate | atEnd | returns | failed | conditionalFailed | skipped => simp
  | listStep _ hfirst _ ih ihrest =>
    obtain ⟨read, hread, -⟩ := hfirst.reads
    intro error place hmem
    rcases List.mem_append.mp hmem with hmem | hmem
    · exact ih htokens error place hmem
    · exact ihrest (hread.forall_tokens htokens).1 error place hmem
  | closedBody _ hopening _ _ _ ih | unclosedBody _ hopening _ _ _ ih =>
    simpa using ih (hopening.forall_tokens htokens).1
  | singleBody _ _ _ ih => exact ih htokens
  | completed _ ih | abandoned _ ih => simpa using ih htokens
  | declaration _ hkeyword hbinding hread hends =>
    -- the report is not before the end of the statement, and that is not before its first token
    exact hends.unterminated_nonneg
      (htokens.le_stop hkeyword ⟨_, List.mem_cons_self, hbinding.start_eq⟩)
  | ifStatement _ hkeyword _ ih => exact ih (hkeyword.forall_tokens htokens).1
  | whileStatement _ _ _ _ hhead _ ih | forStatement _ _ _ _ _ _ _ _ hhead _ ih
  | function _ _ _ _ _ hhead _ ih | classDeclaration _ _ hhead _ _ ih
  | otherwise _ hhead _ _ ih | elseIf _ _ hhead _ ih | elif _ hhead _ ih =>
    exact ih (hhead.forall_tokens htokens).1
  | expression _ hderives hread hends =>
    exact hends.unterminated_nonneg (htokens.le_stop hread hderives.exists_start)
  | assignment _ hderives hread hends =>
    exact hends.unterminated_nonneg (htokens.le_stop hread hderives.exists_start)
  | conditional _ _ _ hhead hbody _ ih ihrest =>
    obtain ⟨read, hread, -⟩ := hbody.reads
    have hinner := (hhead.forall_tokens htokens).1
    intro error place hmem
    rcases List.mem_append.mp hmem with hmem | hmem
    · exact ih hinner error place hmem
    · exact ihrest (hread.forall_tokens hinner).1 error place hmem

/-- The span of a body is that of the tokens that it is read from. -/
theorem Course.spans {body : Body} (h : Course lineEnd start (.body body) stop events) :
    start.Spans stop body.span := by
  cases h with
  | closedBody _ hopening _ _ hclosing =>
    refine .tokens hopening.head?_ahead ?_
    rw [hclosing.behind]
    rfl
  | unclosedBody _ hopening _ _ hlast => exact .tokens hopening.head?_ahead hlast
  | singleBody _ _ hspan => exact hspan

/-- The `Failure` of a phrase that fails. -/
def Phrase.failure? : Phrase → Option Failure
  | .attempt result | .conditional _ result | .alternate result =>
    match result with
    | .ok _ => none
    | .error failure => some failure
  | .statement _ | .list .. | .body _ => none

/-- The failure of a phrase is due: `IsDue` holds of it. -/
theorem Course.isDue (h : Course lineEnd start phrase stop events) :
    ∀ failure ∈ phrase.failure?, failure.IsDue := by
  induction h with
  | failed _ hdue _ | conditionalFailed hdue _ =>
    rintro failure ⟨⟩
    exact hdue
  | @conditional _ _ _ _ _ _ _ _ _ _ result _ _ _ _ _ _ _ _ _ ihrest =>
    cases result with
    | ok node => rintro failure ⟨⟩
    | error failure => exact ihrest
  | ifStatement _ _ _ ih | elseIf _ _ _ _ ih | elif _ _ _ ih => exact ih
  | _ => rintro failure ⟨⟩

/-! ## Any tokens -/

/-- `statementsOf` records a `Course` through all the tokens. -/
theorem statementsOf_course (text : List Char) (tokens : List Token) :
    (statementsOf text tokens).value.2 = ⟨tokens.reverse, []⟩ ∧
      Course (Text.lineEnd text) (Cursor.ofTokens tokens)
        (.list none (statementsOf text tokens).value.1) ⟨tokens.reverse, []⟩
        (statementsOf text tokens).events := by
  have hcourse := statements_course (statementWithin_course (Text.lineEnd text) tokens.length) none
    (Nat.le_refl (Cursor.ofTokens tokens).ahead.length) (Nat.le_refl _)
  unfold Recovering.Follows at hcourse
  obtain ⟨read, hread, -⟩ := hcourse.reads
  have hends := hcourse.ends
  rw [Option.any_none, Bool.or_false] at hends
  have hstop := eq_of_atEnd hread hends
  rw [hstop] at hcourse
  exact ⟨hstop, hcourse⟩

/-- What follows a document starts a statement, as a frame asks, if nothing follows. -/
theorem opens_nil : ∀ token ∈ ([] : List Token).head?,
    token.startsStatement = true ∧ opensStatement token.lexeme = true := by
  simp

/-- Tokens lie in any text that is long enough, unless they start or stop before its start. -/
theorem exists_covering {tokens : List Token}
    (h : ∀ token ∈ tokens, 0 ≤ token.start ∧ 0 ≤ token.stop) :
    ∃ text : List Char, ∀ token ∈ tokens, (Frame.first text [] opens_nil).Covers token.start ∧
      (Frame.first text [] opens_nil).Covers token.stop := by
  suffices hlength : ∃ length : Nat, ∀ token ∈ tokens,
      token.start ≤ length ∧ token.stop ≤ length by
    obtain ⟨length, hlength⟩ := hlength
    refine ⟨List.replicate length ' ', fun token htoken => ?_⟩
    obtain ⟨hstart, hstop⟩ := h token htoken
    unfold Frame.Covers Frame.first
    rw [List.length_replicate]
    exact ⟨⟨hstart, (hlength token htoken).1⟩, hstop, (hlength token htoken).2⟩
  clear h
  induction tokens with
  | nil => exact ⟨0, by simp⟩
  | cons token tokens ih =>
    obtain ⟨length, hlength⟩ := ih
    refine ⟨length + token.start.toNat + token.stop.toNat, ?_⟩
    rintro other hother
    rcases List.mem_cons.mp hother with rfl | hother
    · omega
    · have := hlength other hother
      omega

/-- `Frame.first` around nothing leaves every place where it is. -/
theorem cursor_around (around : List Char) (cursor : Cursor) :
    (Frame.first around [] opens_nil).cursor cursor = cursor := by
  rw [Frame.cursor_first, List.append_nil]

/-- `statements` do not depend on the bounds on repetitions if these are not below the number of
tokens. -/
theorem statements_of_bounds (text : List Char) {tokens : List Token} {bound count : Nat}
    (h : ∀ token ∈ tokens, 0 ≤ token.start ∧ 0 ≤ token.stop)
    (hbound : tokens.length ≤ bound) (hcount : tokens.length ≤ count) :
    statements none (statementWithin (Text.lineEnd text) bound) count (Cursor.ofTokens tokens) =
      statementsOf text tokens := by
  obtain ⟨around, hcovers⟩ := exists_covering h
  -- in a frame around nothing the statements are the same, whatever the bounds there
  have hkeeps : KeepsLines (Frame.first around [] opens_nil) (Text.lineEnd text)
      (Text.lineEnd text) := by
    intro offset _
    show Text.lineEnd text (offset + 0) = Text.lineEnd text offset + 0
    rw [Int.add_zero, Int.add_zero]
  have hframed (bound count : Nat) (hbound : tokens.length ≤ bound)
      (hcount : tokens.length ≤ count) :=
    statements_behind rfl hcovers hkeeps (Nat.le_refl _) hbound (Nat.le_refl _) hcount
  rw [cursor_around] at hframed
  exact (hframed bound count hbound hcount).trans
    (hframed _ _ (Nat.le_refl _) (Nat.le_refl _)).symm

/-- `expressionWithin` does not depend on its bound if that is not below the number of tokens
ahead. -/
theorem expressionWithin_of_bound {bound : Nat}
    (h : ∀ token ∈ start.tokens, 0 ≤ token.start ∧ 0 ≤ token.stop)
    (hbound : start.ahead.length ≤ bound) : expressionWithin bound start = expression start := by
  show _ = expressionWithin start.ahead.length start
  by_cases hend : start.ahead = []
  · rw [expressionWithin_of_nil hend, expressionWithin_of_nil hend]
  obtain ⟨around, hcovers⟩ := exists_covering h
  have hnonempty : start.tokens ≠ [] := by simp [Cursor.tokens, hend]
  have hframed : Rule.Framed (Frame.first around [] opens_nil) _ start
      (expressionWithin start.ahead.length) (expressionWithin bound) :=
    expressionWithin_framed _ _ start ⟨hnonempty, hcovers, fun hne => absurd rfl hne⟩
      ⟨Nat.le_refl _, hbound⟩
  unfold Rule.Framed at hframed
  rw [cursor_around] at hframed
  generalize expressionWithin start.ahead.length start = result at hframed ⊢
  generalize expressionWithin bound start = result' at hframed ⊢
  cases hframed with
  | ok hread hanswer =>
    rw [cursor_around, hanswer.eq, Frame.node_first]
    rfl
  | error hread hinside =>
    unfold Frame.failure
    rw [cursor_around]
  | cut hne _ => exact absurd rfl hne

/-- What reading a document of tokens comes to by `Reading.ofTokens`, whatever the tokens are. -/
structure MakesProgress (text : List Char) (tokens : List Token) (reading : Reading) : Prop where
  /-- Reading takes a `Course` from the first token to the end, and gives a program. -/
  program : ∃ statements, reading.program =
      .program (.between 0 (programStop text tokens)) statements reading.errors ∧
    Course (Text.lineEnd text) (Cursor.ofTokens tokens) (.list none statements)
      ⟨tokens.reverse, []⟩ reading.events
  /-- The bounds on repetitions do not show in the reading. -/
  unbounded : ∀ bound count, tokens.length ≤ bound → tokens.length ≤ count →
    statements none (statementWithin (Text.lineEnd text) bound) count (Cursor.ofTokens tokens) =
      ⟨(reading.statements, ⟨tokens.reverse, []⟩), reading.events⟩
  /-- Whatever statement lacks its semicolon, the text has a place where it ends. -/
  liesIn : reading.liesIn text = true
  /-- Each attempt begins further on than those before it. -/
  begins : (reading.events.filterMap Event.began?).Pairwise (· < ·)
  /-- All that is recorded happens among the tokens. An attempt that is given up has failed past the
  token that it began with, and its error has a place and a token. -/
  between : ∀ event ∈ reading.events, event.LiesBetween 0 tokens.length
  /-- There are no more errors than tokens. -/
  errors : reading.errors.length ≤ tokens.length

/-- What each reader of statements comes to (`statementWithin`, `bodyWithin` and those that they
call), from any place among any tokens. The bounds are not below the number of tokens ahead. -/
structure StatementsAdvance (lineEnd : Int → Int) : Prop where
  /-- A statement is read from at least one token, if there is one. -/
  statement : ∀ (bound : Nat) (start : Cursor), start.ahead.length ≤ bound → start.ahead ≠ [] →
    ∃ first read, start.Reads (first :: read) (statementWithin lineEnd bound start).value.2
  /-- An attempt fails past its first token, with a failure that is due there, and what follows is
  searched for the next boundary. -/
  failure : ∀ (bound : Nat) (start : Cursor) (failure : Failure), start.ahead.length ≤ bound + 1 →
    (attempt lineEnd bound (bodyWithin lineEnd bound) start).run.value = .error failure →
    failure.IsDue ∧ (∃ first read, start.Reads (first :: read) failure.cursor) ∧
      start.resumeAfter failure = failure.cursor.synchronize
  /-- The span of a body is that of tokens that are there. -/
  body : ∀ (bound : Nat) (start : Cursor), start.ahead.length ≤ bound →
    start.Spans (bodyWithin lineEnd bound start).value.2
      (bodyWithin lineEnd bound start).value.1.span
  /-- The span of a return is that of tokens that are there. -/
  returned : ∀ (start middle stop : Cursor) (keyword : Token) (tree : Node),
    start.Reads [keyword] middle → returnStatement start middle = .ok (tree, stop) →
      start.Spans stop tree.span

/-- `StatementsAdvance` holds of any place among any tokens. -/
theorem statementsAdvance (lineEnd : Int → Int) : StatementsAdvance lineEnd where
  statement bound start hbound hahead := by
    obtain ⟨read, hread, hne⟩ := Course.reads (statementWithin_course lineEnd bound start hbound)
    obtain ⟨first, read, rfl⟩ := List.exists_cons_of_ne_nil (hne trivial hahead)
    exact ⟨first, read, hread⟩
  failure bound start failure hbound hfailure := by
    have hcourse := attempt_course (body_course (statementWithin_course lineEnd bound)) hbound
    unfold Attempt.Follows at hcourse
    rw [← bodyWithin, hfailure] at hcourse
    obtain ⟨more, -, hcourse⟩ := hcourse
    obtain ⟨first, read, -, hread⟩ := hcourse.exists_first
    exact ⟨hcourse.isDue failure rfl, ⟨first, read, hread⟩, hcourse.resumeAfter_eq⟩
  body bound start hbound :=
    Course.spans (body_course (statementWithin_course lineEnd bound) start hbound)
  returned start middle stop keyword tree hkeyword hreturn := by
    obtain ⟨_, _, _, last, -, -, hread, hlast, rfl⟩ := returnStatement_sound hkeyword hreturn
    exact .tokens hread.head?_ahead hlast

/-- A list of numbers in order between two others is no longer than these are apart. -/
theorem length_le_of_pairwise {places : List Nat} {first last : Nat} (hle : first ≤ last)
    (h : places.Pairwise (· < ·)) (hplaces : ∀ place ∈ places, first ≤ place ∧ place < last) :
    places.length + first ≤ last := by
  induction places generalizing first with
  | nil => simpa using hle
  | cons place places ih =>
    obtain ⟨hfirst, hlast⟩ := hplaces place List.mem_cons_self
    obtain ⟨hlt, hrest⟩ := List.pairwise_cons.mp h
    have hlength := ih hlast hrest fun other hother =>
      ⟨hlt other hother, (hplaces other (List.mem_cons_of_mem _ hother)).2⟩
    rw [List.length_cons]
    omega

/-- Reading is total, and it `MakesProgress`, on any tokens with offsets that are not negative. -/
theorem ofTokens_progress (text : List Char) {tokens : List Token}
    (h : ∀ token ∈ tokens, 0 ≤ token.start ∧ 0 ≤ token.stop) :
    MakesProgress text tokens (Reading.ofTokens text tokens) ∧
      StatementsAdvance (Text.lineEnd text) := by
  obtain ⟨hstop, hcourse⟩ := statementsOf_course text tokens
  have hrecorded : Recorded 0 tokens.length (statementsOf text tokens).events := by
    have hrecorded := hcourse.recorded
    rwa [Cursor.index, List.length_reverse] at hrecorded
  have hnonnegative : Nonnegative (Cursor.ofTokens tokens) := fun token htoken => (h token htoken).1
  refine ⟨⟨⟨_, rfl, hcourse⟩, ?_, ?_, hrecorded.begins, hrecorded.between, ?_⟩,
    statementsAdvance (Text.lineEnd text)⟩
  · intro bound count hbound hcount
    rw [statements_of_bounds text h hbound hcount, ← hstop]
    rfl
  · unfold Reading.liesIn
    rw [List.all_eq_true]
    intro event hevent
    cases event with
    | unterminated error place =>
      have hnonneg := hcourse.unterminated_nonneg hnonnegative error place hevent
      exact decide_eq_true (by omega)
    | _ => rfl
  · exact Nat.le_trans hcourse.errors_le
      (length_le_of_pairwise (Nat.zero_le _) hrecorded.begins fun _ => hrecorded.began_between)

/-- Tokens that overlap, as no lexer makes them, are read as a declaration without a semicolon. -/
theorem ofTokens_progress_overlapping :
    let tokens : List Token := [⟨.keyword, "var", 7, 2⟩, ⟨.identifier, "if", 0, 90⟩]
    (∀ token ∈ tokens, 0 ≤ token.start ∧ 0 ≤ token.stop) ∧
      (Reading.ofTokens [] tokens).errors.map (·.fault.code) = ["P003"] ∧
      MakesProgress [] tokens (Reading.ofTokens [] tokens) ∧
      StatementsAdvance (Text.lineEnd []) :=
  ⟨by decide, by decide, ofTokens_progress [] (by decide)⟩

end Grammar

end NeutronLang
