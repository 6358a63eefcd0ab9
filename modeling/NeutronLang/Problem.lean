import NeutronLang.Span

/-!
# Problems

What every stage has to say about a document comes down to a problem: a message about a span, with
the code of its kind and advice where there is some. All problems are errors.
-/

namespace NeutronLang

/-- A problem of a document: what a `SyntaxError`, a `TypeMismatch` and an `OpenString` have in
common. -/
structure Problem where
  message : String
  span : Span
  code : Option String
  help : Option String
deriving DecidableEq

namespace Problem

/-- The report of a problem on its own, for callers that have only offsets to go by. Diagnostics
have lines instead (`Diagnostic.text`). -/
def report (problem : Problem) : String :=
  let help := match problem.help with
    | some text => if text.isEmpty then "" else s!"  help: {text}\n"
    | none => ""
  s!"ERROR: {problem.message}\n  --> offsets {problem.span.text}\n" ++ help

end Problem

end NeutronLang
