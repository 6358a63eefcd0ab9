import NeutronLang.Problem
import NeutronLang.Json.Basic

/-!
# Diagnostics

Problems as editors want them: with lines and characters, both counted from zero, in the place of
offsets.
-/

namespace NeutronLang

/-- A place in a text by its line and the characters before it on that line. -/
structure Position where
  line : Nat
  character : Nat
deriving DecidableEq

namespace Position

/-- The start of a text. -/
def start : Position := ⟨0, 0⟩

/-- The place after one more character `c`. Only a line feed starts a new line. -/
def after (position : Position) (c : Char) : Position :=
  if c = '\n' then ⟨position.line + 1, 0⟩ else ⟨position.line, position.character + 1⟩

/-- The place of an offset of `text`; offsets outside it stand for the end that they lie beyond. -/
def ofOffset (text : List Char) (offset : Int) : Position :=
  (text.take offset.toNat).foldl after start

/-- A position as JSON. -/
def json (position : Position) : Json :=
  .object [("line", .nat position.line), ("character", .nat position.character)]

end Position

/-- A `Problem` ready to be shown in an editor, with `Position`s in the place of offsets. -/
structure Diagnostic where
  start : Position
  stop : Position
  message : String
  /-- The label of the tool that found the problem. -/
  source : String
  /-- The code of the problem, empty if it has none. -/
  code : String
deriving DecidableEq

namespace Diagnostic

/-- The label that diagnostics carry where no other `source` is asked for. -/
def defaultSource : String := "Neutron Type Checker"

/-- The number that editors know errors by. -/
def severity : Nat := 1

/-- The diagnostic of a problem in a text, whose offsets become positions by `ofOffset`. -/
def ofProblem (text : List Char) (source : String) (problem : Problem) : Diagnostic where
  start := .ofOffset text problem.span.start
  stop := .ofOffset text problem.span.stop
  message := problem.message
  source := source
  code := problem.code.getD ""

/-- A diagnostic as JSON. An empty code is left out. -/
def json (diagnostic : Diagnostic) : Json :=
  let code := if diagnostic.code.isEmpty then [] else [("code", Json.text diagnostic.code)]
  .object ([("severity", .nat severity),
    ("range", .object [("start", diagnostic.start.json), ("end", diagnostic.stop.json)]),
    ("message", .text diagnostic.message), ("source", .text diagnostic.source)] ++ code)

/-- The place of a diagnostic, its line and character counted from one. -/
def place (diagnostic : Diagnostic) : String :=
  s!"{diagnostic.start.line + 1}:{diagnostic.start.character + 1}"

/-- A diagnostic in one sentence, for callers that print it without a file. -/
def text (diagnostic : Diagnostic) : String := s!"{diagnostic.place}: {diagnostic.message}"

/-- A diagnostic of a file, as the command line prints it: its `place` after the path. -/
def inFile (diagnostic : Diagnostic) (path : String) : String :=
  s!"{path}:{diagnostic.place}: error: {diagnostic.message} [{diagnostic.source}]"

end Diagnostic

end NeutronLang
