import NeutronLang.Grammar.Rule

/-!
# Reading with a record

Statements are read with a record of what happens to the tokens: which attempts begin and end
where, which semicolons and braces end what, what is skipped, and which errors are found. An
`Attempt` at a statement may fail and keeps its record when it does; a `Recovering` reader never
fails. That the reader of a whole document is of the second kind is what keeps syntax errors from
escaping it.
-/

namespace NeutronLang

/-- Something that happens to the tokens while statements are read; places are token indices. What
is an error among them is told by `Event.error?`. -/
inductive Event where
  /-- An attempt at a statement begins. -/
  | began (start : Nat)
  /-- The attempt that began at `start` has read a statement, up to `stop`. -/
  | completed (start stop : Nat)
  /-- The semicolon at `place` ends a statement. -/
  | terminated (after : Clause) (place : Nat)
  /-- A statement ends at `place` without its semicolon. -/
  | unterminated (error : SyntaxError) (place : Nat)
  /-- The brace at `stop` closes the body that the one at `start` opens. -/
  | closed (start stop : Nat)
  /-- The body that the brace at `start` opens is still open at the end. -/
  | unclosed (start : Nat)
  /-- No statement starts with the token at `start`: it is skipped, and all up to `stop`. -/
  | skipped (token : Token) (start stop : Nat)
  /-- The attempt that began at `start` fails at `failed`; reading goes on at `resume`. -/
  | abandoned (error : SyntaxError) (start failed resume : Nat)
deriving DecidableEq

/-- The syntax error that an event is. -/
def Event.error? : Event → Option SyntaxError
  | unterminated error _ => some error
  | abandoned error _ _ _ => some error
  | began _ | completed _ _ | terminated _ _ | closed _ _ | unclosed _ | skipped _ _ _ => none

/-- A value with the record of what happened on the way to it, which grows from step to step
(`Traced.bind_eq`). -/
structure Traced (α : Type) where
  value : α
  events : List Event

namespace Traced

/-- The syntax errors on a record (`Event.error?`), in the order in which they were found. -/
def errors {α : Type} (traced : Traced α) : List SyntaxError := traced.events.filterMap Event.error?

/-- One step after another: the record of the first comes before that of the second. -/
instance : Monad Traced where
  pure value := ⟨value, []⟩
  bind first next :=
    let second := next first.value
    ⟨second.value, first.events ++ second.events⟩

/-- `pure` records nothing. -/
@[simp] theorem pure_eq {α : Type} (value : α) : (pure value : Traced α) = ⟨value, []⟩ := rfl

/-- `>>=` puts the records of two steps one after the other. -/
@[simp] theorem bind_eq {α β : Type} (first : Traced α) (next : α → Traced β) :
    first >>= next = ⟨(next first.value).value, first.events ++ (next first.value).events⟩ := rfl

/-- How steps are grouped does not show in their record. -/
instance : LawfulMonad Traced :=
  LawfulMonad.mk' Traced
    (fun x => by
      show (⟨x.value, x.events ++ []⟩ : Traced _) = x
      simp)
    (fun _ _ => rfl)
    (fun x f g => by simp [List.append_assoc])

end Traced

/-- A reader that records `Event`s and never fails. -/
abbrev Recovering (α : Type) := StateT Cursor Traced α

/-- A reader that records `Event`s and may fail. It comes to a `Recovering` one by
`Attempt.recover`. -/
abbrev Attempt (α : Type) := StateT Cursor (ExceptT Failure Traced) α

/-- Records an event. -/
def record (event : Event) : Recovering Unit := fun cursor => ⟨((), cursor), [event]⟩

/-- A rule is an attempt that records nothing. -/
instance : MonadLift Rule Attempt where
  monadLift rule := fun cursor => ExceptT.mk ⟨rule cursor, []⟩

/-- A reader that never fails is an attempt that does not. -/
instance : MonadLift Recovering Attempt where
  monadLift reader := fun cursor =>
    let outcome := reader cursor
    ExceptT.mk ⟨.ok outcome.value, outcome.events⟩

namespace Cursor

/-- Whether recovery stops before a token: at a brace, and where a statement can start. -/
def isBoundary (token : Token) : Bool :=
  token.lexeme == "\x7b" || token.lexeme == "\x7d" || token.startsStatement

/-- The next place from which reading can go on, `behind` having been read and `ahead` not. -/
def boundaryFrom (behind : List Token) : (ahead : List Token) → Cursor
  | [] => ⟨behind, []⟩
  | token :: ahead =>
    if token.lexeme == ";" then ⟨token :: behind, ahead⟩
    else if isBoundary token then ⟨behind, token :: ahead⟩
    else boundaryFrom (token :: behind) ahead

/-- The next place from which reading can go on: after a semicolon, or before a token that
`isBoundary`. -/
def synchronize (cursor : Cursor) : Cursor := boundaryFrom cursor.behind cursor.ahead

/-- Where reading goes on after an attempt has failed, by `synchronize`; that is never where the
attempt began. -/
def resumeAfter (start : Cursor) (failure : Failure) : Cursor :=
  let resume := failure.cursor.synchronize
  if resume.index ≤ start.index then start.advance else resume

end Cursor

/-- Tries to read and, where that fails, goes on at `resumeAfter` with the failure on the record. -/
def Attempt.recover {α : Type} (attempt : Attempt (Option α)) : Recovering (Option α) :=
    fun start =>
  let outcome := (attempt start).run
  match outcome.value with
  | .ok answer => ⟨answer, outcome.events⟩
  | .error failure =>
    let resume := start.resumeAfter failure
    ⟨(none, resume), outcome.events ++
      [.abandoned failure.error start.index failure.cursor.index resume.index]⟩

end NeutronLang
