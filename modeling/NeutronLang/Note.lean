import NeutronLang.Document

/-!
# Notes

What the stages have to say about their own work, for whoever wants to follow it. Each note
belongs to a stage, and all but one are of interest only when something is being looked into.
-/

namespace NeutronLang

/-- A note about the work on a file, told by `Note.text`. -/
inductive Note where
  | tokenized (file : String) (count : Nat)
  | skipping (file : String) (token : Token)
  | resuming (file : String) (error : SyntaxError) (index : Nat)
  | parsed (file : String) (statements errors : Nat)
  | checked (mismatches : Nat)
  | unparsable (file : String) (fault : OpenString)
  | validated (file : String) (problems : Nat)
  | finished (files status : Nat)

namespace Note

/-- Whether a note is a warning, and so is shown to everyone. -/
def isWarning : Note → Bool
  | unparsable .. => true
  | _ => false

/-- The stage that a note comes from. -/
def stage : Note → String
  | tokenized .. => "neutron.lexer.lexer"
  | skipping .. | resuming .. | parsed .. => "neutron.parser.parser"
  | checked .. => "neutron.analyzer.type_checker"
  | unparsable .. | validated .. => "neutron.validation"
  | finished .. => "neutron.cli"

/-- The message of a note; `elapsed` is the time that a validation took. -/
def message (elapsed : String) : Note → String
  | tokenized file count => s!"{file}: {count} tokens"
  | skipping file token => s!"{file}: skipping unexpected {token.text} at {token.start}"
  | resuming file error index =>
    s!"{file}: {error.fault.message} at {error.span.start}, resuming at token {index}"
  | parsed file statements errors =>
    s!"{file}: parsed {statements} statements, {errors} syntax errors"
  | checked mismatches => s!"type check finished: {mismatches} mismatches"
  | unparsable file fault => s!"{file}: cannot parse: {fault.problem.message}"
  | validated file problems =>
    if problems = 0 then s!"{file}: no problems ({elapsed} ms)"
    else s!"{file}: {problems} problems ({elapsed} ms)"
  | finished files status => s!"checked {files} files, exit status {status}"

/-- A note with its level and its `stage`. -/
def text (elapsed : String) (note : Note) : String :=
  let level := if note.isWarning then "WARNING" else "DEBUG"
  s!"{level} {note.stage}: {note.message elapsed}"

/-- The note that an `Event` gives rise to, if there is one. -/
def ofEvent? (file : String) : Event → Option Note
  | .skipped token _ _ => some (.skipping file token)
  | .abandoned error _ _ resume => some (.resuming file error resume)
  | .began _ | .completed _ _ | .terminated _ _ | .unterminated _ _ | .closed _ _
  | .unclosed _ => none

end Note

/-- The notes on the reading of `file`. Where no tokens were looked for there is nothing to say. -/
def Reading.notes (reading : Reading) (file : String) : List Note :=
  match reading.tokenCount with
  | none => []
  | some count =>
    .tokenized file count :: reading.events.filterMap (Note.ofEvent? file) ++
      [.parsed file reading.statements.length reading.errors.length]

end NeutronLang
