import NeutronLang.CommandLine.Options
import NeutronLang.Json.Writer
import NeutronLang.Node.Record
import NeutronLang.Text.Utf8
import NeutronLang.Validation

/-!
# Reports of the command line

What the command line has to say about each file, apart from all others: what it prints, what it
notes, and a status. The status of the whole is kept from file to file, each of which may raise it.

Which trees can be printed is not the command line's to decide. The JSON encoder gives up on a value
that is nested too deeply for it, and what it takes is a parameter here (`Encoder`).
-/

namespace NeutronLang.CommandLine

/-- Why a file has no text; `ReadFault.message` says it. -/
inductive ReadFault where
  /-- The system's reason for not giving its bytes, and its number. -/
  | system (number : Nat) (reason : String)
  | encoding (fault : Text.Utf8Fault)
deriving DecidableEq

namespace ReadFault

/-- There is no such file. -/
def notFound : ReadFault := system 2 "No such file or directory"

/-- The path is that of a directory. -/
def isDirectory : ReadFault := system 21 "Is a directory"

/-- A part of the path that should be a directory is a file. -/
def notDirectory : ReadFault := system 20 "Not a directory"

/-- The message about a file without a text. -/
def message (path : String) : ReadFault → String
  | system number reason => s!"[Errno {number}] {reason}: {Text.quoted path}"
  | encoding fault => fault.message

end ReadFault

/-- The bytes of a file or, with a `ReadFault`, why there are none. -/
abbrev Contents := Except ReadFault (List UInt8)

/-- The text of a file (`decodeUtf8`), with its newlines unified. -/
def textOf (contents : Contents) : Except ReadFault (List Char) := do
  let bytes ← contents
  match Text.decodeUtf8 0 bytes with
  | .ok text => return Text.unifyNewlines text
  | .error fault => throw (.encoding fault)

/-- Which values the JSON encoder can spread over lines. It calls itself once for each list and
object around what it writes, and gives up where no more calls are allowed (`Encoder.upTo`). -/
abbrev Encoder := Json → Bool

namespace Encoder

/-- The encoder that is allowed `limit` calls of itself. -/
def upTo (limit : Nat) : Encoder := fun value => value.depth ≤ limit

/-- The encoder as the command line runs it, with `1000` calls allowed in all. A few of these are
under way when it starts. -/
def standard : Encoder := upTo 990

end Encoder

/-- What is said beside the output, on the `stderr` of a `Report`. -/
inductive Message where
  | unreadable (path : String) (fault : ReadFault)
  | unparsable (path : String) (fault : OpenString)
  /-- The encoder has given up on the tree of a file. -/
  | tooDeep (path : String)
  | note (note : Note)

namespace Message

/-- Whether a message is shown: notes that are no warnings only to those who ask for them
(`verbose`). -/
def isShown (verbose : Bool) : Message → Bool
  | note found => verbose || found.isWarning
  | _ => true

/-- The text of a message; `elapsed` is the time that a validation took. -/
def text (elapsed : String) : Message → String
  | unreadable path fault => s!"{path}: cannot read file: {fault.message path}"
  | unparsable path fault => s!"{path}: cannot parse: {fault.problem.message}"
  | tooDeep path => s!"{path}: AST is nested too deeply to print as JSON"
  | note found => found.text elapsed

end Message

/-- What there is to say about a file, or about several that are put together by `Report.append`. -/
structure Report where
  /-- The exit status: 0 without problems, 1 with some, 2 if a file cannot be read. -/
  status : Nat
  /-- What is printed, each item followed by a newline. -/
  output : List String
  messages : List Message

namespace Report

/-- The report without anything to say. -/
def empty : Report := ⟨0, [], []⟩

/-- The status after one more file: `2`, for what cannot be read, settles it, and problems count
where there were none so far. -/
def statusAfter (before file : Nat) : Nat :=
  if file = 2 then 2 else if file = 1 ∧ before = 0 then 1 else before

/-- One report after another, with `statusAfter` the second. -/
def append (first second : Report) : Report :=
  ⟨statusAfter first.status second.status, first.output ++ second.output,
    first.messages ++ second.messages⟩

/-- The `output` of a report as one text. -/
def stdout (report : Report) : String := String.join (report.output.map (· ++ "\n"))

/-- The messages of a report that are shown (`Message.isShown`), as one text. -/
def stderr (report : Report) (verbose : Bool) (elapsed : String) : String :=
  String.join ((report.messages.filter (·.isShown verbose)).map (·.text elapsed ++ "\n"))

end Report

/-- The syntax tree of a file as it is printed, under the path of the file. -/
def treeJson (path : String) (program : Node) : Json :=
  .object [("file", .text path), ("ast", program.json)]

/-- The report with the syntax tree of a file. A tree that the `encoder` gives up on is a problem,
and nothing of it is printed. -/
def treeReport (path : String) (text : List Char) (encoder : Encoder) : Report :=
  match readDocument text with
  | .error fault => ⟨1, [], [.unparsable path fault]⟩
  | .ok reading =>
    let tree := treeJson path reading.program
    let notes := (reading.notes path).map .note
    if encoder tree then ⟨0, [tree.lines], notes⟩ else ⟨1, [], notes ++ [.tooDeep path]⟩

/-- The report with the diagnostics of a file, which are those that `validate` finds. -/
def diagnosticReport (options : Options) (path : String) (text : List Char) : Report :=
  let validation := validate path text ⟨options.enabled, options.maxProblems, options.nested⟩
  let found := validation.diagnostics
  let output :=
    if options.json then
      [(Json.object [("file", .text path),
        ("diagnostics", .list (found.map Diagnostic.json))]).line]
    else found.map (·.inFile path)
  ⟨if found.isEmpty then 0 else 1, output, validation.notes.map .note⟩

/-- The report on one file: `treeReport` or `diagnosticReport`, as the options ask for. -/
def fileReport (options : Options) (path : String) (contents : Contents) (encoder : Encoder) :
    Report :=
  match textOf contents with
  | .error fault => ⟨2, [], [.unreadable path fault]⟩
  | .ok text =>
    if options.dumpTree then treeReport path text encoder
    else diagnosticReport options path text

/-- The last words of a run, after the reports on all files. -/
def closing (options : Options) (status : Nat) : Report :=
  ⟨status, [], [.note (.finished options.files.length status)]⟩

/-- The report on all files of a command line: a `fileReport` on each, and what is said in
`closing`. -/
def report (options : Options) (contents : String → Contents) (encoder : Encoder := .standard) :
    Report :=
  let files := (options.files.map fun path => fileReport options path (contents path) encoder).foldl
    Report.append .empty
  files.append (closing options files.status)

/-- What the command line says to the question for its version. -/
def versionText : String := "neutron-check 0.1.0"

/-- The status of a command line that ends early, which is 0 only for `version`. -/
def Exit.status : Exit → Nat
  | version => 0
  | usage => 2
  | noLimit => 1

/-- What a command line that ends early prints. -/
def Exit.output : Exit → List String
  | version => [versionText]
  | usage | noLimit => []

end NeutronLang.CommandLine
