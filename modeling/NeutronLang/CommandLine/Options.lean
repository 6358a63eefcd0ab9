import NeutronLang.Decimal.Numeral

/-!
# Options of the command line

The words of the command line are first told apart: arguments, flags with or without a value of
their own, and words that only look like flags. They are then read in order. The files are the
arguments of the first run of them; whatever is left over makes the command line wrong, once the
rest is read.
-/

namespace NeutronLang.CommandLine

/-- What the command line asks for, as `Options.ofWords` reads it. -/
structure Options where
  files : List String
  /-- Whether files are checked at all. -/
  enabled : Bool
  /-- Whether constructs have variables of their own. -/
  nested : Bool
  /-- How many problems are reported for a file at most. -/
  maxProblems : Nat
  /-- Whether diagnostics are printed as JSON. -/
  json : Bool
  /-- Whether the syntax trees are printed in the place of diagnostics. -/
  dumpTree : Bool
  /-- Whether all notes are shown. -/
  verbose : Bool
deriving DecidableEq

/-- Why the command line ends before any file is looked at; `Exit.status` and `Exit.output`
follow. -/
inductive Exit where
  /-- The version is asked for. -/
  | version
  /-- The words are not those of a command line. -/
  | usage
  /-- The limit on problems was set, but to no value. -/
  | noLimit
deriving DecidableEq

/-- The flags, spelled as in `Flag.ofWord?`. -/
inductive Flag where
  | noTypeCheck
  | scopedSymbols
  | maxProblems
  | format
  | dumpAst
  | verbose
  | version
deriving DecidableEq

/-- The flag that a word is, as it stands. -/
def Flag.ofWord? : String → Option Flag
  | "--no-type-check" => some noTypeCheck
  | "--scoped-symbols" => some scopedSymbols
  | "--max-problems" => some maxProblems
  | "--format" => some format
  | "--dump-ast" => some dumpAst
  | "-v" | "--verbose" => some verbose
  | "--version" => some version
  | _ => none

/-- Whether a flag has a value. -/
def Flag.hasValue : Flag → Bool
  | maxProblems | format => true
  | _ => false

/-- A word of the command line, as `classify` takes it. -/
inductive Word where
  | argument (text : String)
  /-- The word after which all others are arguments. -/
  | divider
  | flag (flag : Flag)
  /-- A flag with a value in the same word. -/
  | flagWith (flag : Flag) (value : String)
  /-- The short flag with letters after it, which are flags too. -/
  | cluster (letters : List Char)
  | unknown
deriving DecidableEq

/-- A text without the line feed at its end, if it has one. -/
def withoutLastNewline (text : List Char) : List Char :=
  if text.getLast? = some '\n' then text.dropLast else text

/-- Whether a word is a negative number, which no flag looks like. Its line may be ended. -/
def isNegativeNumber (word : List Char) : Bool :=
  match withoutLastNewline word with
  | '-' :: rest =>
    let isDigit (c : Char) : Bool := (Decimal.digitValue? c).isSome
    match rest.dropWhile isDigit with
    | [] => !rest.isEmpty
    | '.' :: places => !places.isEmpty && places.all isDigit
    | _ => false
  | _ => false

/-- A word that starts with a dash and is no flag as it stands. -/
def dashedWord (word : String) : Word :=
  let text := word.toList
  let name := text.takeWhile (· ≠ '=')
  let value := String.ofList ((text.dropWhile (· ≠ '=')).drop 1)
  if text.length ≤ 1 then .argument word
  else
    match if text.contains '=' then Flag.ofWord? (String.ofList name) else none with
    | some flag => if name.length = 2 then .cluster value.toList else .flagWith flag value
    | none =>
      if text.take 2 == ['-', 'v'] then .cluster (text.drop 2)
      else if isNegativeNumber text || text.contains ' ' then .argument word
      else .unknown

/-- What a word is, before any `dividerText`. -/
def classify (word : String) : Word :=
  if word.toList.head? = some '-' then
    match Flag.ofWord? word with
    | some flag => .flag flag
    | none => dashedWord word
  else .argument word

/-- The word after which all others are arguments. -/
def dividerText : String := "--"

/-- What the words of a command line are, after the `dividerText` and before it. -/
def words : List String → List Word
  | [] => []
  | word :: rest =>
    if word = dividerText then .divider :: rest.map .argument else classify word :: words rest

/-- What has been read of a command line, on the way to its `Options`. -/
structure Draft where
  files : Option (List String)
  enabled : Bool
  nested : Bool
  /-- The limit on problems, which may be set to no value. -/
  maxProblems : Option Int
  json : Bool
  dumpTree : Bool
  verbose : Bool
  /-- Whether a word was left over. -/
  stray : Bool

namespace Draft

/-- The draft in which nothing is asked for yet. -/
def standard : Draft := ⟨none, true, false, some 1000, false, false, false, false⟩

/-- Reads a flag that has no value (`Flag.hasValue`). -/
def turnOn (draft : Draft) : Flag → Except Exit Draft
  | .noTypeCheck => .ok { draft with enabled := false }
  | .scopedSymbols => .ok { draft with nested := true }
  | .dumpAst => .ok { draft with dumpTree := true }
  | .verbose => .ok { draft with verbose := true }
  | .version => .error .version
  | .maxProblems | .format => .error .usage

/-- Reads a flag with its `value`. The divider in the place of a value is no value at all. -/
def assign (draft : Draft) (flag : Flag) (value : String) : Except Exit Draft :=
  match flag with
  | .maxProblems =>
    if value = dividerText then .ok { draft with maxProblems := none }
    else
      match Decimal.readInt? value.toList with
      | some count => .ok { draft with maxProblems := some count }
      | none => .error .usage
  | .format =>
    if value = "text" || value = dividerText then .ok { draft with json := false }
    else if value = "json" then .ok { draft with json := true }
    else .error .usage
  | _ => .error .usage

/-- Reads a `run` of arguments: the files, unless there are some already. -/
def takeRun (draft : Draft) (run : List Word) : Draft :=
  let arguments := run.filterMap fun
    | .argument text => some text
    | _ => none
  if draft.files.isNone && !arguments.isEmpty then { draft with files := some arguments }
  else { draft with stray := true }

end Draft

/-- Whether a word belongs to a run of arguments. -/
def Word.isFree : Word → Bool
  | argument _ | divider => true
  | _ => false

/-- Reads words in order into a `Draft`. -/
def read (draft : Draft) : List Word → Except Exit Draft
  | [] => .ok draft
  | .flag flag :: rest =>
    if flag.hasValue then
      match rest with
      | .argument value :: rest => do read (← draft.assign flag value) rest
      | _ => .error .usage
    else do read (← draft.turnOn flag) rest
  | .flagWith flag value :: rest => do read (← draft.assign flag value) rest
  | .cluster letters :: rest =>
    if !letters.isEmpty && letters.all (· == 'v') then read { draft with verbose := true } rest
    else .error .usage
  | .unknown :: rest => read { draft with stray := true } rest
  | word :: rest =>
    read (draft.takeRun (word :: rest.takeWhile Word.isFree)) (rest.dropWhile Word.isFree)
termination_by words => words.length
decreasing_by
  all_goals have := (List.dropWhile_suffix Word.isFree (l := rest)).length_le
  all_goals simp only [List.length_cons]
  all_goals omega

/-- The options that a command line asks for, as its `words` are read. -/
def Options.ofWords (command : List String) : Except Exit Options := do
  let draft ← read .standard (words command)
  match draft.files with
  | some files =>
    if draft.stray then .error .usage
    else
      match draft.maxProblems with
      | none => .error .noLimit
      | some limit =>
        if limit < 0 then .error .usage
        else
          return ⟨files, draft.enabled, draft.nested, limit.toNat, draft.json, draft.dumpTree,
            draft.verbose⟩
  | none => .error .usage

end NeutronLang.CommandLine
