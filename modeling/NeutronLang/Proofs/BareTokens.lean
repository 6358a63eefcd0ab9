import Mathlib.Data.List.Forall2
import NeutronLang.Grammar.Statement
import NeutronLang.Proofs.Relocation

/-!
# Bare tokens

A token says more than its text and its kind: where it stands, and, by its kind, whether a logical
operator is spelled as a word or with signs. `Token.bare` takes both away. Tokens that differ in
nothing else (`Token.Alike`) have the same bare token, so what a reader does of bare tokens it does
of all that are alike.

The same is done here with whatever tokens are part of: cursors, failures, syntax errors and events.
Nothing by which a cursor is moved or asked notices.
-/

namespace NeutronLang

open Grammar

/-! ## Tokens -/

/-- The token without its place. A logical operator is a word, however it is spelled. -/
def Token.bare (token : Token) : Token where
  kind := if token.kind == .operator && logicalOperators.contains token.lexeme then .keyword
    else token.kind
  lexeme := token.lexeme
  start := 0
  stop := 0

/-- Tokens are alike if they have the same text and the same kind. A logical operator may also be a
word in the one place and signs in the other. -/
def Token.Alike (token other : Token) : Prop :=
  token.lexeme = other.lexeme ∧ (token.kind = other.kind ∨ token.lexeme ∈ logicalOperators ∧
    token.kind ∈ [TokenKind.keyword, .operator] ∧ other.kind ∈ [TokenKind.keyword, .operator])

instance (token other : Token) : Decidable (token.Alike other) :=
  inferInstanceAs (Decidable (_ ∧ _))

namespace Token

variable {token other : Token}

/-- `bare` tokens are the same of tokens that are `Alike`. -/
theorem Alike.bare_eq (h : token.Alike other) : token.bare = other.bare := by
  obtain ⟨hlexeme, hkind | ⟨hlogical, hkind, hkind'⟩⟩ := h
  · unfold bare
    rw [hlexeme, hkind]
  · -- a logical operator that is a word or signs is a word without layout
    have hkeyword {token : Token} (hlogical : token.lexeme ∈ logicalOperators)
        (hkind : token.kind ∈ [TokenKind.keyword, .operator]) : token.bare.kind = .keyword := by
      simp only [List.mem_cons, List.not_mem_nil, or_false] at hkind
      rcases hkind with hkind | hkind <;> simp [bare, hkind, hlogical]
    have hkinds := (hkeyword hlogical hkind).trans (hkeyword (hlexeme ▸ hlogical) hkind').symm
    unfold bare at hkinds ⊢
    rw [mk.injEq]
    exact ⟨hkinds, hlexeme, rfl, rfl⟩

/-- `bare` leaves the text of a token as it is. -/
@[simp] theorem lexeme_bare (token : Token) : token.bare.lexeme = token.lexeme := rfl

/-- `bare` leaves tokens as they are that are neither words nor signs. -/
theorem kind_bare_beq (token : Token) (kind : TokenKind) (hkeyword : kind ≠ .keyword)
    (hoperator : kind ≠ .operator) : (token.bare.kind == kind) = (token.kind == kind) := by
  rw [Bool.eq_iff_iff, beq_iff_eq, beq_iff_eq]
  unfold bare
  dsimp only
  split
  · next hlogical =>
    rw [Bool.and_eq_true, beq_iff_eq] at hlogical
    rw [hlogical.1]
    exact ⟨fun h => absurd h.symm hkeyword, fun h => absurd h.symm hoperator⟩
  · rfl

/-- `bare` leaves it as it is whether another word than the logical operators is reserved. -/
theorem isKeyword_bare_and (token : Token) (wanted : String → Bool)
    (h : ∀ word ∈ logicalOperators, wanted word = false) :
    (token.bare.isKeyword && wanted token.lexeme) = (token.isKeyword && wanted token.lexeme) := by
  by_cases hlogical : token.lexeme ∈ logicalOperators
  · rw [h _ hlogical, Bool.and_false, Bool.and_false]
  · have hbare : token.bare.kind = token.kind := by simp [bare, hlogical]
    rw [isKeyword, isKeyword, hbare]

/-- `bare` leaves it as it is whether a token is a name. -/
@[simp] theorem isIdentifier_bare (token : Token) : token.bare.isIdentifier = token.isIdentifier :=
  token.kind_bare_beq .identifier (by decide) (by decide)

/-- `bare` leaves it as it is whether a token starts a statement. -/
@[simp] theorem startsStatement_bare (token : Token) :
    token.bare.startsStatement = token.startsStatement := by
  have hkeyword := token.isKeyword_bare_and statementKeywords.contains (by decide)
  unfold startsStatement
  rw [isIdentifier_bare, lexeme_bare, hkeyword]

/-- `bare` tokens are the same of tokens that are `Alike` one by one. -/
theorem map_bare_eq {tokens others : List Token} (h : List.Forall₂ Alike tokens others) :
    tokens.map bare = others.map bare := by
  induction h with
  | nil => rfl
  | cons hfirst _ ih => rw [List.map_cons, List.map_cons, hfirst.bare_eq, ih]

end Token

/-! ## Cursors -/

namespace Cursor

/-- The place among the bare tokens (`Token.bare`). -/
def bare (cursor : Cursor) : Cursor := ⟨cursor.behind.map Token.bare, cursor.ahead.map Token.bare⟩

variable (cursor : Cursor)

/-- `index` of the place among the bare tokens is that of the place. -/
@[simp] theorem index_bare : cursor.bare.index = cursor.index := List.length_map ..

/-- `bare` leaves as many tokens ahead. -/
@[simp] theorem length_ahead_bare : cursor.bare.ahead.length = cursor.ahead.length :=
  List.length_map ..

/-- `next?` among the bare tokens is the bare one. -/
@[simp] theorem next?_bare : cursor.bare.next? = cursor.next?.map Token.bare := List.head?_map

/-- `atEnd` is the same among the bare tokens. -/
@[simp] theorem atEnd_bare : cursor.bare.atEnd = cursor.atEnd := by
  unfold atEnd
  rw [bare, List.isEmpty_map]

/-- `sees` is the same among the bare tokens. -/
@[simp] theorem sees_bare (lexeme : String) : cursor.bare.sees lexeme = cursor.sees lexeme := by
  unfold sees
  rw [next?_bare, Option.any_map]
  rfl

/-- `advance` leads to the same place among the bare tokens. -/
@[simp] theorem advance_bare : cursor.bare.advance = cursor.advance.bare := by
  obtain ⟨behind, ahead⟩ := cursor
  cases ahead <;> rfl

/-- `lastStop` among the bare tokens is nowhere. -/
@[simp] theorem lastStop_bare : cursor.bare.lastStop = 0 := by
  obtain ⟨behind, ahead⟩ := cursor
  cases behind <;> rfl

/-- `spanTo` among the bare tokens is nowhere. -/
@[simp] theorem spanTo_bare (start stop : Cursor) : start.bare.spanTo stop.bare = .point 0 := by
  obtain ⟨behind, ahead⟩ := start
  cases ahead with
  | nil =>
    show Span.point (Cursor.bare ⟨behind, []⟩).lastStop = .point 0
    rw [lastStop_bare]
  | cons first ahead =>
    show Span.between 0 stop.bare.lastStop = .point 0
    rw [lastStop_bare]
    rfl

/-- `offender?` among the bare tokens is the bare one. -/
@[simp] theorem offender?_bare : cursor.bare.offender? = cursor.offender?.map Token.bare := by
  obtain ⟨behind, ahead⟩ := cursor
  cases ahead <;> cases behind <;> rfl

/-- `accept` takes a bare token if the token is wanted. -/
theorem accept_bare {wanted : Token → Bool} (h : ∀ token, wanted token.bare = wanted token) :
    cursor.bare.accept wanted =
      ((cursor.accept wanted).1.map Token.bare, (cursor.accept wanted).2.bare) := by
  unfold accept
  rw [next?_bare, advance_bare]
  cases cursor.next? with
  | none => rfl
  | some token =>
    dsimp only [Option.map_some]
    rw [h]
    split <;> rfl

/-- `synchronize` leads to the same boundary among the bare tokens. -/
@[simp] theorem synchronize_bare : cursor.bare.synchronize = cursor.synchronize.bare := by
  suffices hfrom : ∀ behind ahead, boundaryFrom (List.map Token.bare behind)
      (List.map Token.bare ahead) = (boundaryFrom behind ahead).bare from hfrom _ _
  intro behind ahead
  fun_induction boundaryFrom behind ahead with
  | case1 => rfl
  | case2 behind token ahead hsemicolon => simp [boundaryFrom, hsemicolon, bare]
  | case3 behind token ahead hsemicolon hboundary =>
    have hboundary : isBoundary token.bare = true := by
      rwa [isBoundary, Token.lexeme_bare, Token.startsStatement_bare]
    simp [boundaryFrom, hsemicolon, hboundary, bare]
  | case4 behind token ahead hsemicolon hboundary ih =>
    have hboundary : isBoundary token.bare = false := by
      rwa [isBoundary, Token.lexeme_bare, Token.startsStatement_bare, ← Bool.not_eq_true]
    rw [List.map_cons] at ih
    simp [boundaryFrom, hsemicolon, hboundary, ih]

end Cursor

/-! ## Errors and events -/

/-- The failure at the place among the bare tokens (`Cursor.bare`). -/
def Failure.bare (failure : Failure) : Failure := { failure with cursor := failure.cursor.bare }

/-- The error without the place of its token, which is `Token.bare`. -/
def SyntaxError.bare (error : SyntaxError) : SyntaxError :=
  { error with span := .point 0, token := error.token.map Token.bare }

/-- The event without the places of its tokens in the text; an error in it is `SyntaxError.bare`. -/
def Event.bare : Event → Event
  | unterminated error place => unterminated error.bare place
  | skipped token start stop => skipped token.bare start stop
  | abandoned error start failed resume => abandoned error.bare start failed resume
  | event => event

/-- `error` of a bare failure is the bare error. -/
theorem Failure.error_bare (failure : Failure) : failure.bare.error = failure.error.bare := by
  unfold error bare SyntaxError.onToken SyntaxError.bare
  dsimp only
  rw [Cursor.offender?_bare, Cursor.index_bare]
  cases failure.cursor.offender? <;> rfl

/-- `unexpected` among the bare tokens is the bare failure. -/
theorem Cursor.unexpected_bare (cursor : Cursor) :
    cursor.bare.unexpected = cursor.unexpected.bare := by
  obtain ⟨behind, ahead⟩ := cursor
  cases ahead <;> rfl

/-- `missing` among the bare tokens is the bare failure. -/
theorem Cursor.missing_bare (cursor : Cursor) (wanted : Wanted) :
    cursor.bare.missing wanted = (cursor.missing wanted).bare := by
  unfold missing Failure.bare
  rw [atEnd_bare]

/-- `resumeAfter` leads to the same place among the bare tokens. -/
theorem Cursor.resumeAfter_bare (start : Cursor) (failure : Failure) :
    start.bare.resumeAfter failure.bare = (start.resumeAfter failure).bare := by
  have hresume : failure.bare.cursor.synchronize = failure.cursor.synchronize.bare :=
    failure.cursor.synchronize_bare
  unfold resumeAfter
  dsimp only
  rw [hresume, index_bare, index_bare, advance_bare]
  split <;> rfl

/-- `error?` of a bare event is the bare error. -/
theorem Event.error?_bare (event : Event) :
    event.bare.error? = event.error?.map SyntaxError.bare := by
  cases event <;> rfl

end NeutronLang
