import NeutronLang.Grammar.Trace
import NeutronLang.Proofs.Reading
import NeutronLang.Proofs.Relocation
import NeutronLang.Proofs.Spelling

/-!
# Tokens inside a frame

The tokens of a document can stand among others: some behind them, some ahead, and all their offsets
moved by the same distance. `Frame` says how, and each thing that a reader deals with has a
counterpart inside the frame: a token, a place, a failure, an event. The tokens ahead have to open
with one that a statement can start with, since that is where reading would stop anyway.
-/

namespace NeutronLang

/-! ## Moving by a distance -/

/-- A span with both ends moved by `distance`. -/
def Span.shift (distance : Int) (span : Span) : Span where
  start := span.start + distance
  stop := span.stop + distance
  start_le_stop := Int.add_le_add_right span.start_le_stop distance

/-- `shift` of the span between two offsets is the span between the two moved. -/
@[simp] theorem Span.shift_between (distance start stop : Int) :
    (between start stop).shift distance = between (start + distance) (stop + distance) := by
  simp only [shift, between, mk.injEq, true_and]
  omega

/-- `shift` by nothing changes no span. -/
@[simp] theorem Span.shift_zero (span : Span) : span.shift 0 = span := by simp [shift]

/-- A token with its offsets moved by `distance`. -/
def Token.shift (distance : Int) (token : Token) : Token :=
  { token with start := token.start + distance, stop := token.stop + distance }

/-- `shift` moves the span of a token with it. -/
@[simp] theorem Token.span_shift (distance : Int) (token : Token) :
    (token.shift distance).span = token.span.shift distance :=
  (Span.shift_between distance token.start token.stop).symm

/-- `shift` by nothing changes no token. -/
@[simp] theorem Token.shift_zero (token : Token) : token.shift 0 = token := by simp [shift]

/-- An error with its offsets moved by `distance` and `count` tokens put before it. -/
def SyntaxError.shift (distance : Int) (count : Nat) (error : SyntaxError) : SyntaxError where
  fault := error.fault
  span := error.span.shift distance
  token := error.token.map (Token.shift distance)
  index := error.index.map (· + count)

/-- `shift` by nothing changes no error. -/
@[simp] theorem SyntaxError.shift_zero (error : SyntaxError) : error.shift 0 0 = error := by
  obtain ⟨fault, span, token, index⟩ := error
  simp only [shift, Span.shift_zero, mk.injEq, true_and]
  cases token <;> cases index <;> simp

/-- An event with its offsets moved by `distance` and `count` tokens put before it. -/
def Event.shift (distance : Int) (count : Nat) : Event → Event
  | began start => began (start + count)
  | completed start stop => completed (start + count) (stop + count)
  | terminated after place => terminated after (place + count)
  | unterminated error place => unterminated (error.shift distance count) (place + count)
  | closed start stop => closed (start + count) (stop + count)
  | unclosed start => unclosed (start + count)
  | skipped token start stop => skipped (token.shift distance) (start + count) (stop + count)
  | abandoned error start failed resume =>
    abandoned (error.shift distance count) (start + count) (failed + count) (resume + count)

/-- `shift` by nothing changes no event. -/
@[simp] theorem Event.shift_zero (event : Event) : event.shift 0 0 = event := by
  cases event <;> simp [shift]

/-- `shift` moves the error that an event is with it. -/
theorem Event.error?_shift (distance : Int) (count : Nat) (event : Event) :
    (event.shift distance count).error? = event.error?.map (SyntaxError.shift distance count) := by
  cases event <;> rfl

/-- An event shows that the tokens end too early: a body is left open, or an error is found at the
end. -/
def Event.isCut : Event → Bool
  | unclosed _ => true
  | event => event.error?.any (·.fault.code == "P010")

/-! ## Frames -/

/-- Whether a statement can start with a text, as the text of a word that is not reserved or is one
of the `statementKeywords`. -/
def opensStatement (lexeme : String) : Bool :=
  statementKeywords.contains lexeme ||
    (lexeme.toList.head?.any isWordStart && !keywords.contains lexeme)

/-- `opensStatement` holds of the text of a token of a document that a statement can start with. -/
theorem opensStatement_of_startsStatement {token : Token} (hspelled : Lexicon.Spelled token)
    (h : token.startsStatement = true) : opensStatement token.lexeme = true := by
  unfold Lexicon.Spelled at hspelled
  unfold Token.startsStatement at h
  unfold opensStatement
  -- A name is told by its text, as it is spelled with the start of a word and is not reserved.
  rcases Bool.or_eq_true_iff.mp h with hname | hword
  · rw [beq_iff_eq.mp hname] at hspelled
    unfold Lexicon.spells at hspelled
    cases htext : token.lexeme.toList with
    | nil =>
      rw [htext] at hspelled
      cases hspelled
    | cons c rest =>
      rw [htext] at hspelled
      have hword : (isWordStart c && !keywords.contains token.lexeme) = true := hspelled
      rw [List.head?_cons, Option.any_some, hword, Bool.or_true]
  · obtain ⟨-, hword⟩ := Bool.and_eq_true_iff.mp hword
    rw [hword, Bool.true_or]

/-- What stands around the tokens of a document when they are part of a longer list: tokens `behind`
and `ahead` of them, and a `distance` by which they are moved. -/
structure Frame where
  /-- How far the offsets of the document are moved. -/
  distance : Int
  /-- The length of the text of the document. -/
  length : Nat
  /-- The tokens before those of the document, the latest first. -/
  behind : List Token
  /-- The tokens after those of the document. -/
  ahead : List Token
  /-- The first of the tokens after can start a statement. -/
  opens : ∀ token ∈ ahead.head?,
    token.startsStatement = true ∧ opensStatement token.lexeme = true

namespace Frame

variable (frame : Frame)

/-- A token inside the frame, moved by its `distance`. -/
def token : Token → Token := Token.shift frame.distance

/-- A span inside the frame, moved by its `distance`. -/
def span : Span → Span := Span.shift frame.distance

/-- A tree inside the frame, every span of it moved by `Frame.span`. -/
abbrev node : Node → Node := Node.mapSpans frame.span

/-- A place inside the frame, with the tokens `behind` and `ahead` around it. -/
def cursor (cursor : Cursor) : Cursor where
  behind := cursor.behind.map frame.token ++ frame.behind
  ahead := cursor.ahead.map frame.token ++ frame.ahead

/-- A failure inside the frame: the same one at `Frame.cursor`. -/
def failure (failure : Failure) : Failure := ⟨failure.fault, frame.cursor failure.cursor⟩

/-- An error inside the frame (`SyntaxError.shift`). -/
def error : SyntaxError → SyntaxError := SyntaxError.shift frame.distance frame.behind.length

/-- An event inside the frame (`Event.shift`). -/
def event : Event → Event := Event.shift frame.distance frame.behind.length

/-- The end of the document is not reached, or it is the end inside the frame too. -/
def Inside (cursor : Cursor) : Prop := cursor.ahead = [] → frame.ahead = []

/-- An offset lies in the text of the document. -/
def Covers (offset : Int) : Prop := 0 ≤ offset ∧ offset ≤ frame.length

/-- A place among tokens that the frame can be put around: `Frame.cursor` then is one among all
tokens. -/
structure Fits (cursor : Cursor) : Prop where
  /-- There are tokens at all. -/
  nonempty : cursor.tokens ≠ []
  /-- The tokens lie in the text. -/
  covered : ∀ token ∈ cursor.tokens, frame.Covers token.start ∧ frame.Covers token.stop
  /-- Before further tokens the last of them is a semicolon. -/
  closed : frame.ahead ≠ [] → ∀ token ∈ cursor.tokens.getLast?, token.lexeme = ";"

variable {frame} {start stop : Cursor} {read : List Token}

/-- `Fits` holds of every place that reading leads to. -/
theorem Fits.of_reads (h : frame.Fits start) (hread : start.Reads read stop) :
    frame.Fits stop := by
  obtain ⟨hnonempty, hcovered, hclosed⟩ := h
  rw [← hread.tokens_eq] at hnonempty hcovered hclosed
  exact ⟨hnonempty, hcovered, hclosed⟩

/-- `Inside` holds after a token that is no semicolon. -/
theorem Fits.inside_of_reads {token : Token} (h : frame.Fits start)
    (hread : start.Reads [token] stop) (hlexeme : token.lexeme ≠ ";") : frame.Inside stop := by
  intro hend
  -- With tokens after the document its last one is a semicolon, and this is the last one.
  by_contra hahead
  have hlast : token ∈ stop.tokens.getLast? := by
    unfold Cursor.tokens
    rw [hend, hread.behind]
    simp
  exact hlexeme ((h.of_reads hread).closed hahead token hlast)

/-- A span inside the frame starts where the one outside does, moved. -/
@[simp] theorem span_start (frame : Frame) (span : Span) :
    (frame.span span).start = span.start + frame.distance := rfl

/-- A span inside the frame stops where the one outside does, moved. -/
@[simp] theorem span_stop (frame : Frame) (span : Span) :
    (frame.span span).stop = span.stop + frame.distance := rfl

/-- A span between two offsets is the one between the two moved. -/
@[simp] theorem span_between (frame : Frame) (first last : Int) :
    frame.span (.between first last) =
      .between (first + frame.distance) (last + frame.distance) :=
  Span.shift_between frame.distance first last

/-- A token inside the frame starts where the one outside does, moved. -/
@[simp] theorem token_start (frame : Frame) (token : Token) :
    (frame.token token).start = token.start + frame.distance := rfl

/-- A token inside the frame stops where the one outside does, moved. -/
@[simp] theorem token_stop (frame : Frame) (token : Token) :
    (frame.token token).stop = token.stop + frame.distance := rfl

/-- A token inside the frame has the text of the one outside. -/
@[simp] theorem token_lexeme (frame : Frame) (token : Token) :
    (frame.token token).lexeme = token.lexeme := rfl

/-- The span of a token inside the frame is that of the token, moved. -/
@[simp] theorem token_span (frame : Frame) (token : Token) :
    (frame.token token).span = frame.span token.span := Token.span_shift frame.distance token

/-- `Covers` holds of the ends of a token that is read. -/
theorem Fits.covered_of_reads {token : Token} (h : frame.Fits start)
    (hread : start.Reads [token] stop) : frame.Covers token.start ∧ frame.Covers token.stop := by
  refine h.covered token ?_
  unfold Cursor.tokens
  rw [hread.ahead]
  simp

/-- The first token after the document has no text of which `opensStatement` is false. -/
theorem lexeme_ne (frame : Frame) {lexeme : String} (h : opensStatement lexeme = false) :
    ∀ token ∈ frame.ahead.head?, token.lexeme ≠ lexeme := by
  rintro token htoken rfl
  have hopens := (frame.opens token htoken).2
  rw [h] at hopens
  cases hopens

/-- What follows the document is ahead inside the frame at the end of the document. -/
theorem ahead_cursor_of_end (h : start.ahead = []) :
    (frame.cursor start).ahead = frame.ahead := by
  unfold Frame.cursor
  rw [h]
  rfl

/-- What is next inside the frame at the end of the document has no text of which `opensStatement`
is false. -/
theorem ahead_lexeme_ne {lexeme : String} (hend : start.ahead = [])
    (h : opensStatement lexeme = false) :
    ∀ token ∈ (frame.cursor start).ahead.head?, token.lexeme ≠ lexeme := by
  rw [ahead_cursor_of_end hend]
  exact frame.lexeme_ne h

/-! ## Places inside a frame -/

/-- `index` inside the frame counts the tokens behind the frame too. -/
theorem index_cursor (frame : Frame) (cursor : Cursor) :
    (frame.cursor cursor).index = cursor.index + frame.behind.length := by
  simp [Frame.cursor, Cursor.index]

/-- `next?` inside the frame is that outside, before the end of the document. -/
theorem next?_cursor (h : frame.Inside start) :
    (frame.cursor start).next? = start.next?.map frame.token := by
  obtain ⟨behind, ahead⟩ := start
  cases ahead with
  | nil =>
    have hahead : frame.ahead = [] := h rfl
    simp [Frame.cursor, Cursor.next?, hahead]
  | cons token ahead => rfl

/-- `atEnd` inside the frame is that outside, before the end of the document. -/
theorem atEnd_cursor (h : frame.Inside start) : (frame.cursor start).atEnd = start.atEnd := by
  obtain ⟨behind, ahead⟩ := start
  cases ahead with
  | nil =>
    have hahead : frame.ahead = [] := h rfl
    simp [Frame.cursor, Cursor.atEnd, hahead]
  | cons token ahead => rfl

/-- `sees` is the same inside the frame for a text of which `opensStatement` is false. -/
theorem sees_cursor (frame : Frame) {lexeme : String} (h : opensStatement lexeme = false)
    (cursor : Cursor) :
    (frame.cursor cursor).sees lexeme = cursor.sees lexeme := by
  obtain ⟨behind, ahead⟩ := cursor
  cases ahead with
  | nil =>
    have hne := frame.lexeme_ne h
    unfold Frame.cursor Cursor.sees Cursor.next?
    cases hhead : frame.ahead.head? with
    | none => simp [hhead]
    | some token =>
      have htoken := hne token (by rw [hhead]; rfl)
      simp [hhead, htoken]
  | cons token ahead => rfl

/-- `advance` is the same inside the frame, before the end of the document. -/
theorem advance_cursor (h : frame.Inside start) :
    (frame.cursor start).advance = frame.cursor start.advance := by
  obtain ⟨behind, ahead⟩ := start
  cases ahead with
  | nil =>
    have hahead : frame.ahead = [] := h rfl
    simp [Frame.cursor, Cursor.advance, hahead]
  | cons token ahead => rfl

/-- `accept` takes a token inside the frame as outside, if what follows the document is not wanted
or nothing does. -/
theorem accept_cases (frame : Frame) {start : Cursor} {wanted : Token → Bool}
    (hshift : ∀ token, wanted (frame.token token) = wanted token)
    (hend : start.ahead = [] → ∀ token ∈ frame.ahead.head?, wanted token = false) :
    (∃ token middle, start.Reads [token] middle ∧ wanted token = true ∧
      start.accept wanted = (some token, middle) ∧
      (frame.cursor start).accept wanted = (some (frame.token token), frame.cursor middle)) ∨
    ((∀ token ∈ start.ahead.head?, wanted token = false) ∧
      start.accept wanted = (none, start) ∧
      (frame.cursor start).accept wanted = (none, frame.cursor start)) := by
  obtain ⟨behind, ahead⟩ := start
  cases ahead with
  | nil =>
    refine .inr ⟨by simp, rfl, Cursor.accept_of_not_wanted ?_⟩
    -- here alone the frame is looked at: what follows the document must not be taken
    exact hend rfl
  | cons token ahead =>
    have hread : Cursor.Reads ⟨behind, token :: ahead⟩ [token] ⟨token :: behind, ahead⟩ :=
      ⟨rfl, rfl⟩
    have hread' : (frame.cursor ⟨behind, token :: ahead⟩).Reads [frame.token token]
      (frame.cursor ⟨token :: behind, ahead⟩) := ⟨rfl, rfl⟩
    cases hwanted : wanted token with
    | true =>
      exact .inl ⟨token, _, hread, hwanted, Cursor.accept_of_wanted hwanted hread,
        Cursor.accept_of_wanted ((hshift token).trans hwanted) hread'⟩
    | false =>
      refine .inr ⟨?_, Cursor.accept_of_not_wanted ?_, Cursor.accept_of_not_wanted ?_⟩
      · rintro _ ⟨⟩
        exact hwanted
      · rintro _ ⟨⟩
        exact hwanted
      · rintro _ ⟨⟩
        exact (hshift token).trans hwanted

/-- The first token after the document does not have a text of which `opensStatement` is false, and
there is no such token where `Inside` holds at the end of the document. -/
theorem lexeme_beq_eq_false (frame : Frame) {start : Cursor} {lexeme : String}
    (h : opensStatement lexeme = false ∨ frame.Inside start) (hend : start.ahead = []) :
    ∀ token ∈ frame.ahead.head?, (token.lexeme == lexeme) = false := by
  intro token htoken
  rcases h with hlexeme | hinside
  · exact beq_eq_false_iff_ne.mpr (frame.lexeme_ne hlexeme token htoken)
  · rw [hinside hend] at htoken
    cases htoken

/-- `boundaryFrom` stops inside the frame where it stops outside, at the end of the document if
nowhere before. -/
theorem boundaryFrom_append (behind ahead : List Token) :
    Cursor.boundaryFrom (behind.map frame.token ++ frame.behind)
        (ahead.map frame.token ++ frame.ahead) =
      frame.cursor (Cursor.boundaryFrom behind ahead) := by
  -- Along the recursion of the search, which goes no further inside than outside.
  fun_induction Cursor.boundaryFrom behind ahead with
  | case1 behind =>
    unfold Frame.cursor
    cases hahead : frame.ahead with
    | nil => rfl
    | cons first rest =>
      -- The first token after the document starts a statement, so recovery stops there.
      have hfirst : first ∈ frame.ahead.head? := by rw [hahead]; rfl
      have hstarts := (frame.opens first hfirst).1
      have hne := frame.lexeme_ne (by decide : opensStatement ";" = false) first hfirst
      have hboundary : Cursor.isBoundary first = true := by
        unfold Cursor.isBoundary
        rw [hstarts, Bool.or_true]
      show Cursor.boundaryFrom _ (first :: rest) = _
      rw [Cursor.boundaryFrom, if_neg (by simpa using hne), if_pos hboundary]
      rfl
  | case2 behind token ahead hsemicolon =>
    show Cursor.boundaryFrom _ (frame.token token :: (ahead.map frame.token ++ frame.ahead)) = _
    rw [Cursor.boundaryFrom, if_pos (by exact hsemicolon)]
    rfl
  | case3 behind token ahead hsemicolon hboundary =>
    show Cursor.boundaryFrom _ (frame.token token :: (ahead.map frame.token ++ frame.ahead)) = _
    rw [Cursor.boundaryFrom, if_neg (by exact hsemicolon), if_pos (by exact hboundary)]
    rfl
  | case4 behind token ahead hsemicolon hboundary ih =>
    show Cursor.boundaryFrom _ (frame.token token :: (ahead.map frame.token ++ frame.ahead)) = _
    rw [Cursor.boundaryFrom, if_neg (by exact hsemicolon), if_neg (by exact hboundary)]
    exact ih

/-- `synchronize` goes on inside the frame where it goes on outside. -/
theorem synchronize_cursor (cursor : Cursor) :
    (frame.cursor cursor).synchronize = frame.cursor cursor.synchronize :=
  boundaryFrom_append cursor.behind cursor.ahead

/-- `resumeAfter` gives a failed attempt up inside the frame where it does outside. -/
theorem resumeAfter_cursor (h : frame.Inside start) (failure : Failure) :
    (frame.cursor start).resumeAfter (frame.failure failure) =
      frame.cursor (start.resumeAfter failure) := by
  unfold Cursor.resumeAfter Frame.failure
  simp only [synchronize_cursor, index_cursor, advance_cursor h, Nat.add_le_add_iff_right]
  split <;> rfl

/-- `error` of a failure before the end of the document is the same inside the frame. -/
theorem error_failure {failure : Failure} (hfits : frame.Fits failure.cursor)
    (h : frame.Inside failure.cursor) :
    (frame.failure failure).error = frame.error failure.error := by
  obtain ⟨fault, behind, ahead⟩ := failure
  unfold Failure.error SyntaxError.onToken Frame.error SyntaxError.shift
  have hindex := frame.index_cursor ⟨behind, ahead⟩
  -- An error is placed on the next token or, at the end, on the last one.
  have hoffender : ∃ token, Cursor.offender? ⟨behind, ahead⟩ = some token ∧
      (frame.cursor ⟨behind, ahead⟩).offender? = some (frame.token token) := by
    cases ahead with
    | cons token ahead => exact ⟨token, rfl, rfl⟩
    | nil =>
      have hahead : frame.ahead = [] := h rfl
      cases behind with
      | nil => exact absurd rfl hfits.nonempty
      | cons token behind => exact ⟨token, rfl, by simp [Frame.cursor, Cursor.offender?, hahead]⟩
  obtain ⟨token, houtside, hinside⟩ := hoffender
  simp only [Frame.failure, houtside, hinside, hindex, Option.map_some, Option.getD_some]
  simp [Frame.token]

end Frame

end NeutronLang
