import NeutronLang.Diagnostic
import NeutronLang.Note
import NeutronLang.Settings
import NeutronLang.Typing.Checker

/-!
# Validation

All that there is to say about a document: its syntax errors in the order in which they were found,
then its type errors. A document with a string that is never closed has no diagnostics.
-/

namespace NeutronLang

/-- What `validate` gives: the diagnostics, and notes on how they were found. -/
structure Validation where
  diagnostics : List Diagnostic
  notes : List Note

namespace Reading

/-- The type errors that `checkStatements` finds in a document. -/
def mismatches (reading : Reading) (nested : Bool) : List TypeMismatch :=
  (checkStatements nested reading.statements []).2.mismatches

/-- All problems of a document: syntax errors (`Reading.errors`), then type errors
(`mismatches`). -/
def problems (reading : Reading) (nested : Bool) : List Problem :=
  reading.errors.map SyntaxError.problem ++
    (reading.mismatches nested).map TypeMismatch.problem

/-- The diagnostics of the `problems` of a document, as many of them as the settings allow. -/
def diagnostics (reading : Reading) (text : List Char) (settings : Settings) : List Diagnostic :=
  ((reading.problems settings.nested).take settings.maxProblems).map
    (Diagnostic.ofProblem text Diagnostic.defaultSource)

end Reading

/-- Validates a document, which is called `file` in the notes. -/
def validate (file : String) (text : List Char) (settings : Settings) : Validation :=
  if settings.enabled then
    match readDocument text with
    | .error fault => ⟨[], [.unparsable file fault]⟩
    | .ok reading =>
      let diagnostics := reading.diagnostics text settings
      ⟨diagnostics, reading.notes file ++
        [.checked (reading.mismatches settings.nested).length,
         .validated file diagnostics.length]⟩
  else ⟨[], []⟩

end NeutronLang
