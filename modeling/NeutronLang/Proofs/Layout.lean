import NeutronLang.Proofs.BareChecks
import NeutronLang.Proofs.BareStatements
import NeutronLang.Proofs.JoinedDocuments
import NeutronLang.Validation

/-!
# Layout does not matter

What is said of a document does not depend on blanks, line breaks and comments, nor on whether a
logical operator is spelled as a word or with signs. Documents whose tokens are alike have the same
statements, the same errors and, whatever the settings, the same diagnostics, in the same order and
but for where they are (`readDocument_alike`).
-/

namespace NeutronLang

open Grammar Node

/-- The problem without its `span`. -/
def Problem.withoutSpan (problem : Problem) : Problem := { problem with span := .point 0 }

/-- The diagnostic without its range, from `start` to `stop`. -/
def Diagnostic.withoutRange (diagnostic : Diagnostic) : Diagnostic :=
  { diagnostic with start := .start, stop := .start }

/-! ## What depends on bare tokens only -/

/-- `statements` of bare tokens are those of the tokens, without layout, and so are the events. -/
theorem statementsOf_bare (text : List Char) (tokens : List Token) :
    statements none (statementWithin noLineEnd tokens.length) tokens.length
        (Cursor.ofTokens (tokens.map Token.bare)) =
      ⟨((statementsOf text tokens).value.1.map withoutSpans,
        (statementsOf text tokens).value.2.bare),
        (statementsOf text tokens).events.map Event.bare⟩ :=
  bares_statements (bares_statementWithin (Text.lineEnd text) tokens.length) none tokens.length
    (Cursor.ofTokens tokens)

/-- The errors on a record are bare if its events are. -/
theorem errors_bare (events : List Event) :
    (events.filterMap Event.error?).map SyntaxError.bare =
      (events.map Event.bare).filterMap Event.error? := by
  rw [List.map_filterMap, List.filterMap_map]
  exact congrArg (List.filterMap · events) (funext fun event => event.error?_bare.symm)

namespace Reading

variable {reading other : Reading}

/-- `checkStatements` finds type errors in statements without spans where it finds them in the
statements. -/
theorem mismatches_bare (reading : Reading) (nested : Bool) :
    (reading.mismatches nested).map TypeMismatch.bare =
      (checkStatements nested (reading.statements.map withoutSpans) []).2.mismatches := by
  have hcheck := Check.bares_trees reading.statements ⟨.empty nested, []⟩
  exact (congrArg (·.2.mismatches) hcheck).symm

/-- The problems of a document, without their spans, are those of its statements and errors without
layout. -/
theorem problems_withoutSpan
    (hstatements : reading.statements.map withoutSpans = other.statements.map withoutSpans)
    (herrors : reading.errors.map SyntaxError.bare = other.errors.map SyntaxError.bare)
    (nested : Bool) : (reading.problems nested).map Problem.withoutSpan =
      (other.problems nested).map Problem.withoutSpan := by
  have hsyntax (reading : Reading) :
      (reading.errors.map SyntaxError.problem).map Problem.withoutSpan =
        (reading.errors.map SyntaxError.bare).map SyntaxError.problem := by
    rw [List.map_map, List.map_map]
    rfl
  have htypes (reading : Reading) :
      ((reading.mismatches nested).map TypeMismatch.problem).map Problem.withoutSpan =
        ((reading.mismatches nested).map TypeMismatch.bare).map TypeMismatch.problem := by
    rw [List.map_map, List.map_map]
    rfl
  unfold problems
  rw [List.map_append, List.map_append, hsyntax, hsyntax, htypes, htypes, herrors,
    mismatches_bare, mismatches_bare, hstatements]

/-- The diagnostics of a document, without their ranges, are those of its problems without their
spans. -/
theorem diagnostics_withoutRange (reading : Reading) (text : List Char) (settings : Settings) :
    (reading.diagnostics text settings).map Diagnostic.withoutRange =
      (((reading.problems settings.nested).map Problem.withoutSpan).take settings.maxProblems).map
        (Diagnostic.ofProblem [] Diagnostic.defaultSource) := by
  unfold diagnostics
  rw [← List.map_take, List.map_map, List.map_map]
  rfl

end Reading

/-! ## Documents -/

/-- What two readings of documents have in common that differ in layout only: all that
`withoutSpans`, `Event.bare` and their like keep. -/
structure SameVerdict (text text' : List Char) (reading reading' : Reading) : Prop where
  /-- The statements are the same, but for their spans. -/
  statements : reading.statements.map withoutSpans = reading'.statements.map withoutSpans
  /-- The events are the same in the same order, but for the places of their tokens. -/
  events : reading.events.map Event.bare = reading'.events.map Event.bare
  /-- The syntax errors are the same, but for their spans. -/
  errors : reading.errors.map SyntaxError.bare = reading'.errors.map SyntaxError.bare
  /-- The problems, type errors among them, have the same messages, codes and help. -/
  problems : ∀ nested, (reading.problems nested).map Problem.withoutSpan =
    (reading'.problems nested).map Problem.withoutSpan
  /-- Whatever the settings, the diagnostics are the same, but for their ranges. -/
  diagnostics : ∀ file settings,
    (validate file text settings).diagnostics.map Diagnostic.withoutRange =
      (validate file text' settings).diagnostics.map Diagnostic.withoutRange

/-- Documents whose tokens are `Token.Alike` are read and judged in the same way (`SameVerdict`). -/
theorem readDocument_alike {text text' : List Char} {tokens tokens' : List Token}
    (h : tokenize text = .ok tokens) (h' : tokenize text' = .ok tokens')
    (halike : List.Forall₂ Token.Alike tokens tokens') :
    ∃ reading reading', readDocument text = .ok reading ∧ readDocument text' = .ok reading' ∧
      SameVerdict text text' reading reading' := by
  obtain ⟨reading, hreading, -⟩ := exists_reading h
  obtain ⟨reading', hreading', -⟩ := exists_reading h'
  obtain ⟨hstatements, hevents⟩ := reading_eq h hreading
  obtain ⟨hstatements', hevents'⟩ := reading_eq h' hreading'
  -- both are read from the same bare tokens
  have hbare := statementsOf_bare text tokens
  rw [Token.map_bare_eq halike, halike.length_eq, statementsOf_bare text' tokens',
    Traced.mk.injEq, Prod.mk.injEq, ← hstatements, ← hstatements', ← hevents, ← hevents'] at hbare
  have htrees := hbare.1.1.symm
  have hrecords := hbare.2.symm
  have herrors : reading.errors.map SyntaxError.bare = reading'.errors.map SyntaxError.bare := by
    unfold Reading.errors
    rw [errors_bare, errors_bare, hrecords]
  have hproblems := Reading.problems_withoutSpan htrees herrors
  refine ⟨reading, reading', hreading, hreading', htrees, hrecords, herrors, hproblems, ?_⟩
  intro file settings
  unfold validate
  split
  · rw [hreading, hreading']
    dsimp only
    rw [Reading.diagnostics_withoutRange, Reading.diagnostics_withoutRange, hproblems]
  · rfl

/-- A comment, line breaks and another spelling of a conjunction: the same value is missing. -/
theorem readDocument_alike_conjunction :
    let text := "var int n = a and b; n = ; // none".toList
    let text' := "var int n =\n  a && b;\nn=;".toList
    let tokens : List Token := [⟨.keyword, "var", 0, 3⟩, ⟨.keyword, "int", 4, 7⟩,
      ⟨.identifier, "n", 8, 9⟩, ⟨.symbol, "=", 10, 11⟩, ⟨.identifier, "a", 12, 13⟩,
      ⟨.keyword, "and", 14, 17⟩, ⟨.identifier, "b", 18, 19⟩, ⟨.symbol, ";", 19, 20⟩,
      ⟨.identifier, "n", 21, 22⟩, ⟨.symbol, "=", 23, 24⟩, ⟨.symbol, ";", 25, 26⟩]
    let tokens' : List Token := [⟨.keyword, "var", 0, 3⟩, ⟨.keyword, "int", 4, 7⟩,
      ⟨.identifier, "n", 8, 9⟩, ⟨.symbol, "=", 10, 11⟩, ⟨.identifier, "a", 14, 15⟩,
      ⟨.operator, "and", 16, 18⟩, ⟨.identifier, "b", 19, 20⟩, ⟨.symbol, ";", 20, 21⟩,
      ⟨.identifier, "n", 22, 23⟩, ⟨.symbol, "=", 23, 24⟩, ⟨.symbol, ";", 24, 25⟩]
    tokenize text = .ok tokens ∧ tokenize text' = .ok tokens' ∧
      List.Forall₂ Token.Alike tokens tokens' ∧
      (∃ reading reading', readDocument text = .ok reading ∧ readDocument text' = .ok reading' ∧
        SameVerdict text text' reading reading') ∧
      (statementsOf text tokens).errors.map (·.fault.code) = ["P001"] := by
  intro text text' tokens tokens'
  have h : tokenize text = .ok tokens := by decide +kernel
  have h' : tokenize text' = .ok tokens' := by decide +kernel
  have halike : List.Forall₂ Token.Alike tokens tokens' := by decide
  exact ⟨h, h', halike, readDocument_alike h h' halike, by decide⟩

end NeutronLang
