import NeutronLang.Validation
import NeutronLang.Validator

/-!
# Sessions

What an editor does with a validator. The validator calls back into the editor, to ask for
settings and to hand over diagnostics, and the editor may use those calls to do more with the
validator before it returns. Such steps wait in two queues of scripts, one for each kind of call;
a call runs the oldest script of its queue.

A session keeps a record of what happens, in which an operation is known by the revision that its
beginning gave to the document.
-/

namespace NeutronLang

/-- A step of an editor, carried out by `perform`. -/
inductive Step where
  | validate (uri text : String)
  | diagnostics (uri : String)
  | close (uri : String)
  /-- Validates all the given documents; the first failure ends it. -/
  | revalidate (texts : List (String × String))
  /-- Sets the settings of a document, which are looked at when they are asked for. -/
  | configure (uri : String) (value : Json)
  | unconfigure (uri : String)
  /-- Has steps wait for a question about settings. -/
  | onSettings (steps : List Step)
  /-- Has steps wait for diagnostics to be handed over. -/
  | onPublish (steps : List Step)
  /-- Has the next hand-over of diagnostics that ends fail. -/
  | failPublish
deriving Inhabited

/-- Why an `Operation` of a session fails. -/
inductive SessionFault where
  | settings (fault : SettingsFault)
  | publish

/-- How a `Step` ends. -/
inductive Answer where
  | nothing
  /-- The diagnostics of a document, or none if a later operation has begun on it. -/
  | diagnostics (found : Option (List Diagnostic))
  | documents (found : List (String × Option (List Diagnostic)))
  | failed (fault : SessionFault)

/-- Something that happens in a `Session`. The operations on one document are told apart by their
revisions. -/
inductive Happening where
  /-- A validation of a text begins or, where there is no text, a close. -/
  | began (uri : String) (revision : Nat) (text : Option String)
  /-- A validation has its settings, or ends because they are wrong. -/
  | answered (uri : String) (revision : Nat) (settings : Except SettingsFault Settings)
  /-- The result of a validation is kept. -/
  | kept (uri : String) (revision : Nat) (found : List Diagnostic)
  /-- A close forgets what was kept. -/
  | forgot (uri : String) (revision : Nat)
  /-- The result of a validation is dropped, since a later operation has begun. -/
  | dropped (uri : String) (revision : Nat)
  /-- Diagnostics are handed over. -/
  | published (uri : String) (revision : Nat) (found : List Diagnostic)
  /-- The hand-over of diagnostics ends, well or not. -/
  | received (uri : String) (revision : Nat) (well : Bool)
  | finished (step : Step) (answer : Answer)

/-- The state of a session: a `Validator`, with what is still to come from its callbacks and the
`record` of what has happened. -/
structure Session where
  validator : Validator
  /-- The settings that the editor has for documents. -/
  settings : List (String × Json)
  /-- Whether the validator asks for settings at all. -/
  asks : Bool
  /-- Whether the validator hands diagnostics over at all. -/
  publishes : Bool
  onSettings : List (List Step)
  onPublish : List (List Step)
  /-- Whether the next hand-over that ends fails. -/
  failing : Bool
  /-- What has happened, the latest first. -/
  record : List Happening

/-- An operation of a `Session`, which may fail with a `SessionFault` and keeps what it did
before. -/
abbrev Operation (α : Type) := ExceptT SessionFault (StateM Session) α

namespace Session

/-- The session at the start, with the empty `Validator`. -/
def start (settings : List (String × Json)) (asks publishes : Bool) : Session where
  validator := .empty
  settings := settings
  asks := asks
  publishes := publishes
  onSettings := []
  onPublish := []
  failing := false
  record := []

/-- Puts an event on the `record`. -/
def note (happening : Happening) : StateM Session Unit :=
  modify fun session => { session with record := happening :: session.record }

/-- Changes the state of the `Validator`. -/
def change (f : Validator → Validator) : StateM Session Unit :=
  modify fun session => { session with validator := f session.validator }

/-- Begins the validation of `text` or, without a text, a close; the answer is its revision. -/
def begin (uri : String) (text : Option String) : StateM Session Nat := do
  change (·.begin uri)
  let revision := (← get).validator.revision uri
  note (.began uri revision text)
  return revision

section

-- How the steps of a script are run while an operation waits for its call to return.
variable (runScript : List Step → StateM Session Unit)

/-- Runs the oldest script in `onSettings`, which waits for a question about settings. -/
def answerQuestion : StateM Session Unit := do
  match (← get).onSettings with
  | [] => pure ()
  | script :: rest =>
    modify ({ · with onSettings := rest })
    runScript script

/-- Runs the oldest script in `onPublish`, which waits for diagnostics. -/
def receiveDiagnostics : StateM Session Unit := do
  match (← get).onPublish with
  | [] => pure ()
  | script :: rest =>
    modify ({ · with onPublish := rest })
    runScript script

/-- Asks the editor for the settings of a document. -/
def askedSettings (uri : String) : StateM Session (Except SettingsFault Settings) := do
  if !(← get).asks then return .ok .standard
  answerQuestion runScript
  return ((← get).settings.lookup uri).elim (.ok .standard) Settings.ofJson

/-- The settings of a document for the validation of a `revision`, which wrong settings end. -/
def settingsFor (uri : String) (revision : Nat) : Operation Settings := do
  let answer ← askedSettings runScript uri
  note (.answered uri revision answer)
  match answer with
  | .ok settings => return settings
  | .error fault => throw (.settings fault)

/-- Hands diagnostics over to the editor, with `.published` on the record before and `.received`
after. -/
def publish (uri : String) (revision : Nat) (found : List Diagnostic) : Operation Unit := do
  if !(← get).publishes then return ()
  note (.published uri revision found)
  receiveDiagnostics runScript
  let failing := (← get).failing
  modify ({ · with failing := false })
  note (.received uri revision !failing)
  if failing then throw .publish

/-- Validates a document. There is no answer if a later operation on it has begun. -/
def validateDocument (uri text : String) : Operation (Option (List Diagnostic)) := do
  let revision ← begin uri (some text)
  let settings ← settingsFor runScript uri revision
  let found := (validate uri text.toList settings).diagnostics
  if (← get).validator.revision uri = revision then
    change (·.keep uri found)
    note (.kept uri revision found)
    publish runScript uri revision found
    return some found
  else
    note (.dropped uri revision)
    return none

/-- Closes a document: it is forgotten, and the editor is handed an empty list. -/
def closeDocument (uri : String) : Operation Unit := do
  let revision ← begin uri none
  change (·.forget uri)
  note (.forgot uri revision)
  publish runScript uri revision []

/-- Validates documents in order, each by `validateDocument`. -/
def revalidate : List (String × String) → Operation (List (String × Option (List Diagnostic)))
  | [] => pure []
  | (uri, text) :: texts => do
    let found ← validateDocument runScript uri text
    return (uri, found) :: (← revalidate texts)

/-- Does what a `Step` says. -/
def perform : Step → Operation Answer
  | .validate uri text => return .diagnostics (← validateDocument runScript uri text)
  | .diagnostics uri => return .diagnostics (some ((← get).validator.diagnostics uri))
  | .close uri => do
    closeDocument runScript uri
    return .nothing
  | .revalidate texts => return .documents (← revalidate runScript texts)
  | .configure uri value => do
    modify fun session => { session with settings := Validator.put session.settings uri value }
    return .nothing
  | .unconfigure uri => do
    modify fun session =>
      { session with settings := session.settings.filter (·.1 != uri) }
    return .nothing
  | .onSettings steps => do
    modify fun session => { session with onSettings := session.onSettings ++ [steps] }
    return .nothing
  | .onPublish steps => do
    modify fun session => { session with onPublish := session.onPublish ++ [steps] }
    return .nothing
  | .failPublish => do
    modify ({ · with failing := true })
    return .nothing

/-- Runs a step to its end. A failure is its `Answer`, and concerns no other step. -/
def runStep (step : Step) : StateM Session Unit := do
  match ← (perform runScript step).run with
  | .ok answer => note (.finished step answer)
  | .error fault => note (.finished step (.failed fault))

end

/-- Runs steps one after the other by `runStep`, in which calls may be nested to `depth`. -/
def runSteps : (depth : Nat) → List Step → StateM Session Unit
  | 0, steps => steps.forM (runStep fun _ => pure ())
  | depth + 1, steps => steps.forM (runStep (runSteps depth))

mutual

/-- How many scripts a step holds. -/
def scriptsOf : Step → Nat
  | .onSettings steps | .onPublish steps => scriptCount steps + 1
  | _ => 0

/-- How many scripts steps hold (`scriptsOf`), which is also how deep their calls can nest. -/
def scriptCount : List Step → Nat
  | [] => 0
  | step :: steps => scriptsOf step + scriptCount steps

end

/-- Runs steps one by one at `depth`. Each answer is the session after a step. -/
def stages (depth : Nat) (session : Session) : List Step → List Session
  | [] => []
  | step :: steps =>
    let after := ((runSteps depth [step]).run { session with record := [] }).2
    after :: stages depth after steps

/-- Runs the steps of an editor at the depth that `scriptCount` allows, for callers that follow a
session. Each answer is the session after a step, with the record of it. -/
def play (session : Session) (steps : List Step) : List Session :=
  session.stages (scriptCount steps) steps

end Session

end NeutronLang
