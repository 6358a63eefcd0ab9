import NeutronLang.Proofs.Documents
import NeutronLang.Proofs.FramedStatements
import NeutronLang.Proofs.JoinedTexts

/-!
# Two documents on lines of their own

A document put after another is read as it is alone, and so is the document before it, whatever is
wrong with the statements of either. The first must not end too early: it closes its comments and
its bodies, its last token is a semicolon, and no error is found at its end; and the second has to
open with a token that a statement can start with. Each of the two stands in a frame among the
tokens of the other, so what is proved about frames applies to the one and then to the other.
-/

namespace NeutronLang

open Grammar Lexicon

/-! ## The two frames -/

/-- The `Frame` around the tokens of the first of two documents: those of the second stand behind
them. -/
def Frame.first (text : List Char) (ahead : List Token)
    (opens : ∀ token ∈ ahead.head?,
      token.startsStatement = true ∧ opensStatement token.lexeme = true) : Frame where
  distance := 0
  length := text.length
  behind := []
  ahead := ahead
  opens := opens

/-- The `Frame` around the tokens of the second of two documents: those of the first stand before
them. -/
def Frame.second (distance : Int) (text : List Char) (behind : List Token) : Frame where
  distance := distance
  length := text.length
  behind := behind
  ahead := []
  opens := by simp

/-- `Covers` holds of the ends of the tokens of a document. -/
theorem Frame.covers_of_tokenize {frame : Frame} {text : List Char} {tokens : List Token}
    (h : tokenize text = .ok tokens) (hlength : frame.length = text.length) :
    ∀ token ∈ tokens, frame.Covers token.start ∧ frame.Covers token.stop := by
  intro token htoken
  obtain ⟨hpos, hlt, hle⟩ := (tokenize_eq_ok_iff.mp h).within token htoken
  unfold Frame.Covers
  rw [hlength]
  constructor <;> constructor <;> omega

section

variable {text : List Char} {ahead : List Token}
  {opens : ∀ token ∈ ahead.head?,
    token.startsStatement = true ∧ opensStatement token.lexeme = true}

/-- `Frame.first` moves no node. -/
theorem Frame.node_first : (first text ahead opens).node = id := by
  have hspan : (first text ahead opens).span = id := funext Span.shift_zero
  unfold Frame.node
  rw [hspan]
  exact funext Node.mapSpans_id

/-- `Frame.first` moves no event. -/
theorem Frame.event_first : (first text ahead opens).event = id := funext Event.shift_zero

/-- `Frame.first` has the tokens of the second document ahead. -/
theorem Frame.cursor_first (cursor : Cursor) :
    (first text ahead opens).cursor cursor = ⟨cursor.behind, cursor.ahead ++ ahead⟩ := by
  have htoken : (first text ahead opens).token = id := funext Token.shift_zero
  unfold Frame.cursor
  rw [htoken, List.map_id, List.map_id]
  show (⟨cursor.behind ++ [], _⟩ : Cursor) = _
  rw [List.append_nil]
  rfl

end

/-- A document is read up to its end. -/
theorem eq_of_atEnd {tokens read : List Token} {stop : Cursor}
    (hread : (Cursor.ofTokens tokens).Reads read stop) (hend : stop.atEnd = true) :
    stop = ⟨tokens.reverse, []⟩ := by
  obtain ⟨behind, ahead⟩ := stop
  obtain ⟨hahead, hbehind⟩ := hread
  obtain rfl : ahead = [] := List.isEmpty_iff.mp hend
  obtain rfl : tokens = read := by simpa [Cursor.ofTokens] using hahead
  obtain rfl : behind = tokens.reverse := by simpa [Cursor.ofTokens] using hbehind
  rfl

/-! ## The statements of a document -/

/-- What reading the statements of a document gives, by `statementWithin`. -/
def statementsOf (text : List Char) (tokens : List Token) : Traced (List Node × Cursor) :=
  statements none (statementWithin (Text.lineEnd text) tokens.length) tokens.length
    (Cursor.ofTokens tokens)

/-- `readDocument` gives the statements that reading its tokens gives, and the events. -/
theorem reading_eq {text : List Char} {tokens : List Token} {reading : Reading}
    (htokens : tokenize text = .ok tokens) (hreading : readDocument text = .ok reading) :
    reading.statements = (statementsOf text tokens).value.1 ∧
      reading.events = (statementsOf text tokens).events := by
  obtain ⟨reading', hreading', hprogram, hevents⟩ := exists_reading htokens
  obtain rfl := Except.ok.inj (hreading.symm.trans hreading')
  refine ⟨?_, hevents⟩
  unfold Reading.statements
  rw [hprogram]
  rfl

/-- `statements` of the first document are read before tokens of a second, and reading goes on with
those. -/
theorem statements_first {text : List Char} {tokens ahead : List Token} {lineEnd : Int → Int}
    {bound : Nat} (htokens : tokenize text = .ok tokens)
    (hlines : ∀ offset : Int, 0 ≤ offset → offset ≤ text.length →
      lineEnd offset = Text.lineEnd text offset)
    (hlast : ∀ token ∈ tokens.getLast?, token.lexeme = ";")
    (hopens : ∀ token ∈ ahead.head?,
      token.startsStatement = true ∧ opensStatement token.lexeme = true)
    (hbound : tokens.length + ahead.length ≤ bound)
    (hcut : ∀ event ∈ (statementsOf text tokens).events, event.isCut = false) :
    ∃ rest, ahead.length ≤ rest ∧
      statements none (statementWithin lineEnd bound) bound ⟨[], tokens ++ ahead⟩ =
        (let more := statements none (statementWithin lineEnd bound) rest ⟨tokens.reverse, ahead⟩
        ⟨((statementsOf text tokens).value.1 ++ more.value.1, more.value.2),
          (statementsOf text tokens).events ++ more.events⟩) := by
  cases tokens with
  | nil => exact ⟨bound, by simpa using hbound, rfl⟩
  | cons token tokens =>
    have hfits : (Frame.first text ahead hopens).Fits (Cursor.ofTokens (token :: tokens)) :=
      ⟨by simp [Cursor.tokens, Cursor.ofTokens], Frame.covers_of_tokenize htokens rfl,
        fun _ => hlast⟩
    have hbounds : (Frame.first text ahead hopens).Within (token :: tokens).length bound
        (Cursor.ofTokens (token :: tokens)) := ⟨Nat.le_refl _, hbound⟩
    -- the first document is not moved, so its lines end where they did
    have hkeeps : KeepsLines (Frame.first text ahead hopens) (Text.lineEnd text) lineEnd := by
      rintro offset ⟨hpos, hle⟩
      show lineEnd (offset + 0) = Text.lineEnd text offset + 0
      rw [Int.add_zero, Int.add_zero, hlines offset hpos hle]
    have hlist : ListAgrees (Frame.first text ahead hopens) none (statementWithin lineEnd bound)
        (Cursor.ofTokens (token :: tokens)) (statementsOf text (token :: tokens))
        (statements none (statementWithin lineEnd bound) bound
          ((Frame.first text ahead hopens).cursor (Cursor.ofTokens (token :: tokens)))) :=
      statements_framed (by simp) (statementWithin_framed hkeeps _ bound) hfits hbounds hbounds
    have hcursor : (Frame.first text ahead hopens).cursor (Cursor.ofTokens (token :: tokens)) =
        ⟨[], token :: tokens ++ ahead⟩ := Frame.cursor_first _
    rw [hcursor] at hlist
    generalize statementsOf text (token :: tokens) = outcome at hlist hcut ⊢
    generalize statements none (statementWithin lineEnd bound) bound
      ⟨[], token :: tokens ++ ahead⟩ = outcome' at hlist ⊢
    cases hlist with
    | @kept read found stop events rest hread hends hrest =>
      obtain rfl := eq_of_atEnd hread (by simpa using hends)
      refine ⟨rest, by simpa [Frame.first] using hrest, ?_⟩
      rw [Frame.cursor_first, prepended, Frame.node_first, Frame.event_first]
      simp
    | cut _ hmem hevent =>
      -- nothing is cut, so reading goes on behind the document
      rw [hcut _ hmem] at hevent
      cases hevent

/-- `statements` with no tokens after them are read inside a frame as outside, whatever the
bounds. -/
theorem statements_behind {frame : Frame} {tokens : List Token} {lineEnd lineEnd' : Int → Int}
    {bound bound' count count' : Nat} (hahead : frame.ahead = [])
    (hcovers : ∀ token ∈ tokens, frame.Covers token.start ∧ frame.Covers token.stop)
    (hlines : KeepsLines frame lineEnd lineEnd') (hbound : tokens.length ≤ bound)
    (hbound' : tokens.length ≤ bound') (hcount : tokens.length ≤ count)
    (hcount' : tokens.length ≤ count') :
    let outcome := statements none (statementWithin lineEnd bound) count (Cursor.ofTokens tokens)
    statements none (statementWithin lineEnd' bound') count'
        (frame.cursor (Cursor.ofTokens tokens)) =
      ⟨(outcome.value.1.map frame.node, frame.cursor ⟨tokens.reverse, []⟩),
        outcome.events.map frame.event⟩ := by
  dsimp only
  cases tokens with
  | nil =>
    have hend : ((frame.cursor (Cursor.ofTokens [])).atEnd ||
        Option.any (frame.cursor (Cursor.ofTokens [])).sees none) = true := by
      simp [Frame.cursor, Cursor.ofTokens, Cursor.atEnd, hahead]
    have hempty : statements none (statementWithin lineEnd bound) count (Cursor.ofTokens []) =
        ⟨([], Cursor.ofTokens []), []⟩ := statements_of_ends rfl
    rw [hempty, statements_of_ends hend]
    rfl
  | cons token tokens =>
    have hfits : frame.Fits (Cursor.ofTokens (token :: tokens)) :=
      ⟨by simp [Cursor.tokens, Cursor.ofTokens], hcovers, fun hne => absurd hahead hne⟩
    -- nothing stands behind the document, so the bounds inside are those outside
    have hlength : (token :: tokens).length + frame.ahead.length = (token :: tokens).length := by
      rw [hahead, List.length_nil, Nat.add_zero]
    have hbounds : frame.Within bound bound' (Cursor.ofTokens (token :: tokens)) :=
      ⟨hbound, Nat.le_trans (Nat.le_of_eq hlength) hbound'⟩
    have hcounts : frame.Within count count' (Cursor.ofTokens (token :: tokens)) :=
      ⟨hcount, Nat.le_trans (Nat.le_of_eq hlength) hcount'⟩
    have hlist : ListAgrees frame none (statementWithin lineEnd' bound')
        (Cursor.ofTokens (token :: tokens))
        (statements none (statementWithin lineEnd bound) count (Cursor.ofTokens (token :: tokens)))
        (statements none (statementWithin lineEnd' bound') count'
          (frame.cursor (Cursor.ofTokens (token :: tokens)))) :=
      statements_framed (by simp) (statementWithin_framed hlines bound bound') hfits hbounds hcounts
    generalize statements none (statementWithin lineEnd bound) count
      (Cursor.ofTokens (token :: tokens)) = outcome at hlist ⊢
    generalize statements none (statementWithin lineEnd' bound') count'
      (frame.cursor (Cursor.ofTokens (token :: tokens))) = outcome' at hlist ⊢
    cases hlist with
    | @kept read found stop events rest hread hends hrest =>
      obtain rfl := eq_of_atEnd hread (by simpa using hends)
      have hend : ((frame.cursor ⟨(token :: tokens).reverse, []⟩).atEnd ||
          Option.any (frame.cursor ⟨(token :: tokens).reverse, []⟩).sees none) = true := by
        simp [Frame.cursor, Cursor.atEnd, hahead]
      unfold prepended
      rw [statements_of_ends hend, List.append_nil, List.append_nil]
    | cut hne hmem hevent => exact absurd hahead hne

/-- `statements` of the second document are read behind tokens of a first. -/
theorem statements_second {text : List Char} {tokens behind : List Token} {distance : Int}
    {lineEnd : Int → Int} {bound rest : Nat} (htokens : tokenize text = .ok tokens)
    (hlines : ∀ offset : Int, 0 ≤ offset → offset ≤ text.length →
      lineEnd (offset + distance) = Text.lineEnd text offset + distance)
    (hbound : tokens.length ≤ bound) (hrest : tokens.length ≤ rest) :
    ∃ stop, statements none (statementWithin lineEnd bound) rest
        ⟨behind, tokens.map (Token.shift distance)⟩ =
      ⟨((statementsOf text tokens).value.1.map (Node.mapSpans (Span.shift distance)), stop),
        (statementsOf text tokens).events.map (Event.shift distance behind.length)⟩ := by
  have hcursor : (Frame.second distance text behind).cursor (Cursor.ofTokens tokens) =
      ⟨behind, tokens.map (Token.shift distance)⟩ := by
    show (⟨_, _ ++ []⟩ : Cursor) = _
    rw [List.append_nil]
    rfl
  rw [← hcursor]
  exact ⟨_, statements_behind rfl (Frame.covers_of_tokenize htokens rfl)
    (fun offset hoffset => hlines offset hoffset.1 hoffset.2) (Nat.le_refl _) hbound
    (Nat.le_refl _) hrest⟩

/-! ## Joined documents -/

/-- `isCut` is false for an event that is no error at the end of the tokens and no open body. -/
theorem Event.isCut_eq_false {event : Event}
    (herror : ∀ error ∈ event.error?, error.fault.code ≠ "P010")
    (hunclosed : ∀ start, event ≠ .unclosed start) : event.isCut = false := by
  cases event with
  | unclosed start => exact absurd rfl (hunclosed start)
  | unterminated error place => exact beq_eq_false_iff_ne.mpr (herror error rfl)
  | abandoned error start failed resume => exact beq_eq_false_iff_ne.mpr (herror error rfl)
  | began | completed | terminated | closed | skipped => rfl

/-- A malformed statement never damages the text after the next boundary. Let two documents be put
on lines of their own, the first of which closes its comments and its bodies, has a semicolon for
its last token, if it has any, and no error at its end, while a statement can start with the first
token of the second. Then the joined document has the statements of the first and after them those
of the second, and it has the syntax errors of the first and after them those of the second; those
of the second are moved by the length of the first and one. -/
theorem readDocument_joined {first second : List Char} {firstTokens secondTokens : List Token}
    {firstReading secondReading : Reading}
    (hfirstTokens : tokenize first = .ok firstTokens)
    (hsecondTokens : tokenize second = .ok secondTokens)
    (hcomments : ClosesComments first)
    (hlast : ∀ token ∈ firstTokens.getLast?, token.lexeme = ";")
    (hfirst : readDocument first = .ok firstReading)
    (hsecond : readDocument second = .ok secondReading)
    (herrors : ∀ error ∈ firstReading.errors, error.fault.code ≠ "P010")
    (hbodies : ∀ start, Event.unclosed start ∉ firstReading.events)
    (hopens : ∃ token ∈ secondTokens.head?, token.startsStatement = true) :
    ∃ reading, readDocument (first ++ '\n' :: second) = .ok reading ∧
      reading.statements = firstReading.statements ++
        secondReading.statements.map (Node.mapSpans (Span.shift (first.length + 1))) ∧
      reading.errors = firstReading.errors ++
        secondReading.errors.map (SyntaxError.shift (first.length + 1) firstTokens.length) := by
  obtain ⟨hstatements, hevents⟩ := reading_eq hfirstTokens hfirst
  obtain ⟨hstatements', hevents'⟩ := reading_eq hsecondTokens hsecond
  obtain ⟨token, htoken, hstarts⟩ := hopens
  have hjoinedTokens := tokenize_joined hfirstTokens hsecondTokens hcomments
  obtain ⟨reading, hreading, -, -⟩ := exists_reading hjoinedTokens
  obtain ⟨hstatements'', hevents''⟩ := reading_eq hjoinedTokens hreading
  -- the first document stands before the tokens of the second ...
  have hcut : ∀ event ∈ (statementsOf first firstTokens).events, event.isCut = false := by
    intro event hevent
    rw [← hevents] at hevent
    refine Event.isCut_eq_false (fun error herror => herrors error ?_) ?_
    · exact List.mem_filterMap.mpr ⟨event, hevent, herror⟩
    · rintro start rfl
      exact hbodies start hevent
  have hahead : ∀ token ∈ (secondTokens.map (Token.shift (first.length + 1))).head?,
      token.startsStatement = true ∧ opensStatement token.lexeme = true := by
    obtain ⟨rest, rfl⟩ := List.head?_eq_some_iff.mp htoken
    have hspelled := spelled_of_tokenize hsecondTokens token List.mem_cons_self
    rintro _ ⟨⟩
    exact ⟨hstarts, opensStatement_of_startsStatement hspelled hstarts⟩
  obtain ⟨rest, hrest, hjoined⟩ := statements_first hfirstTokens
    (fun offset hpos hle => lineEnd_first second hpos hle) hlast hahead
    (Nat.le_of_eq List.length_append.symm) hcut
  -- ... and the second behind those of the first
  have hbound : secondTokens.length ≤
      (firstTokens ++ secondTokens.map (Token.shift (first.length + 1))).length := by simp
  obtain ⟨stop, hjoined'⟩ := statements_second hsecondTokens
    (fun offset hpos hle => lineEnd_second first hpos hle) hbound (by simpa using hrest)
  rw [hjoined'] at hjoined
  refine ⟨reading, hreading, ?_, ?_⟩
  · rw [hstatements'', hstatements, hstatements']
    exact congrArg (·.value.1) hjoined
  · unfold Reading.errors
    rw [hevents'', hevents, hevents']
    have herrors := congrArg (fun outcome => outcome.events.filterMap Event.error?) hjoined
    refine herrors.trans ?_
    rw [List.filterMap_append, List.filterMap_map, List.map_filterMap, List.length_reverse]
    congr 2
    exact funext (Event.error?_shift _ _)

/-- After a statement that fails, the second document is read as it is alone, with its own error. -/
theorem readDocument_joined_assignment :
    ∃ firstReading secondReading reading, readDocument "x = ;".toList = .ok firstReading ∧
      firstReading.errors.map (·.fault.code) = ["P001"] ∧
      readDocument "y z;".toList = .ok secondReading ∧
      secondReading.errors.map (·.fault.code) = ["P003"] ∧
      readDocument ("x = ;".toList ++ '\n' :: "y z;".toList) = .ok reading ∧
      reading.statements = firstReading.statements ++
        secondReading.statements.map (Node.mapSpans (Span.shift 6)) ∧
      reading.errors = firstReading.errors ++ secondReading.errors.map (SyntaxError.shift 6 3) := by
  have hfirstTokens : tokenize "x = ;".toList = .ok [⟨.identifier, "x", 0, 1⟩,
      ⟨.symbol, "=", 2, 3⟩, ⟨.symbol, ";", 4, 5⟩] := by decide +kernel
  have hsecondTokens : tokenize "y z;".toList = .ok [⟨.identifier, "y", 0, 1⟩,
      ⟨.identifier, "z", 2, 3⟩, ⟨.symbol, ";", 3, 4⟩] := by decide +kernel
  have hpieces : (Lexer.pieces "x = ;".toList).1 = [⟨some .identifier, ['x']⟩, ⟨none, [' ']⟩,
      ⟨some .symbol, ['=']⟩, ⟨none, [' ']⟩, ⟨some .symbol, [';']⟩] := by decide +kernel
  have hcomments : ClosesComments "x = ;".toList := by
    unfold ClosesComments
    rw [hpieces]
    decide
  obtain ⟨firstReading, hfirst, -, hevents⟩ := exists_reading hfirstTokens
  obtain ⟨secondReading, hsecond, -, hevents'⟩ := exists_reading hsecondTokens
  have hcodes : firstReading.errors.map (·.fault.code) = ["P001"] := by
    unfold Reading.errors
    rw [hevents]
    decide
  have hcodes' : secondReading.errors.map (·.fault.code) = ["P003"] := by
    unfold Reading.errors
    rw [hevents']
    decide
  have herrors : ∀ error ∈ firstReading.errors, error.fault.code ≠ "P010" := by
    unfold Reading.errors
    rw [hevents]
    decide
  -- a body that is not closed would be an event of the kind that is cut
  have hbodies : ∀ start, Event.unclosed start ∉ firstReading.events := by
    have hcut : ∀ event ∈ firstReading.events, event.isCut = false := by
      rw [hevents]
      decide
    intro start hstart
    cases hcut _ hstart
  obtain ⟨reading, hreading, hjoined⟩ := readDocument_joined hfirstTokens hsecondTokens hcomments
    (by decide) hfirst hsecond herrors hbodies ⟨_, rfl, by decide⟩
  exact ⟨firstReading, secondReading, reading, hfirst, hcodes, hsecond, hcodes', hreading, hjoined⟩

end NeutronLang
