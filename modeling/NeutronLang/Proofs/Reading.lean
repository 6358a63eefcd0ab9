import NeutronLang.Grammar.Expression

/-!
# What rules read

`Cursor.Reads` says which tokens lie between two places. The lemmas about single rules state when a
rule succeeds and what it then has read, so that proofs about larger rules take a reading apart into
the readings of its steps and never unfold the cursor.
-/

namespace NeutronLang

/-- The `tokens` that lie between a place and a later one. -/
structure Cursor.Reads (start : Cursor) (tokens : List Token) (stop : Cursor) : Prop where
  /-- The tokens are the first of those ahead. -/
  ahead : start.ahead = tokens ++ stop.ahead
  /-- The tokens are behind afterwards. -/
  behind : stop.behind = tokens.reverse ++ start.behind

namespace Cursor.Reads

variable {start middle stop : Cursor} {tokens more : List Token}

/-- `Reads` holds of no tokens between a place and itself. -/
theorem refl (cursor : Cursor) : cursor.Reads [] cursor := ⟨rfl, rfl⟩

/-- `Reads` no tokens leads to the same place. -/
theorem eq_of_nil (h : start.Reads [] stop) : stop = start := by
  obtain ⟨behind, ahead⟩ := start
  obtain ⟨behind', ahead'⟩ := stop
  obtain ⟨hahead, hbehind⟩ := h
  obtain rfl : ahead = ahead' := hahead
  obtain rfl : behind' = behind := hbehind
  rfl

/-- `Reads` holds of two readings one after the other. -/
theorem trans (h : start.Reads tokens middle) (hmore : middle.Reads more stop) :
    start.Reads (tokens ++ more) stop where
  ahead := by rw [h.ahead, hmore.ahead, List.append_assoc]
  behind := by rw [hmore.behind, h.behind, List.reverse_append, List.append_assoc]

/-- `Reads` holds of one token before others. -/
theorem cons {token : Token} (h : start.Reads [token] middle) (hmore : middle.Reads more stop) :
    start.Reads (token :: more) stop := h.trans hmore

/-- `Reads` can be cut between any two of its tokens. -/
theorem exists_middle (h : start.Reads (tokens ++ more) stop) :
    ∃ middle, start.Reads tokens middle ∧ middle.Reads more stop := by
  refine ⟨⟨tokens.reverse ++ start.behind, more ++ stop.ahead⟩, ⟨?_, rfl⟩, ⟨rfl, ?_⟩⟩
  · rw [h.ahead, List.append_assoc]
  · rw [h.behind, List.reverse_append, List.append_assoc]

/-- `Reads` can be cut after its first token. -/
theorem exists_after_first {token : Token} (h : start.Reads (token :: more) stop) :
    ∃ middle, start.Reads [token] middle ∧ middle.Reads more stop :=
  exists_middle h

/-- The first token that is read is the next one where the reading starts. -/
theorem head?_ahead {token : Token} (h : start.Reads (token :: more) stop) :
    start.ahead.head? = some token := by
  rw [h.ahead]
  rfl

/-- The next token where a reading starts is the first token that is read. -/
theorem eq_of_mem_head? {token found : Token} (h : start.Reads (token :: more) stop)
    (hfound : found ∈ start.ahead.head?) : token = found := by
  rw [h.head?_ahead] at hfound
  exact Option.some.inj hfound

/-- `sees` depends on the first token that is read. -/
theorem sees_eq {token : Token} (h : start.Reads (token :: more) stop) (lexeme : String) :
    start.sees lexeme = (token.lexeme == lexeme) := by
  unfold Cursor.sees
  rw [Cursor.next?, h.head?_ahead]
  rfl

/-- The two places of a reading, by the tokens around it. -/
theorem exists_eq (h : start.Reads tokens stop) :
    ∃ behind rest, start = ⟨behind, tokens ++ rest⟩ ∧ stop = ⟨tokens.reverse ++ behind, rest⟩ := by
  obtain ⟨behind, ahead⟩ := start
  obtain ⟨behind', ahead'⟩ := stop
  obtain ⟨hahead, hbehind⟩ := h
  exact ⟨behind, ahead', congrArg (Cursor.mk behind) hahead, congrArg (Cursor.mk · ahead') hbehind⟩

/-- `Reads` leaves as many tokens fewer ahead as are read. -/
theorem length_ahead (h : start.Reads tokens stop) :
    start.ahead.length = tokens.length + stop.ahead.length := by
  rw [h.ahead, List.length_append]

/-- `Reads` of one token leaves one fewer ahead. -/
theorem length_ahead_token {token : Token} (h : start.Reads [token] stop) :
    start.ahead.length = stop.ahead.length + 1 := by
  rw [h.length_ahead, List.length_singleton, Nat.add_comm]

/-- `Reads` keeps the tokens as a whole. -/
theorem tokens_eq (h : start.Reads tokens stop) : stop.tokens = start.tokens := by
  unfold Cursor.tokens
  rw [h.behind, h.ahead]
  simp

/-- What holds of all tokens holds of those that are read and of all tokens afterwards. -/
theorem forall_tokens {P : Token → Prop} (h : start.Reads tokens stop)
    (hall : ∀ token ∈ start.tokens, P token) :
    (∀ token ∈ stop.tokens, P token) ∧ ∀ token ∈ tokens, P token := by
  refine ⟨fun token htoken => hall token (h.tokens_eq ▸ htoken), fun token htoken => hall token ?_⟩
  unfold Cursor.tokens
  rw [h.ahead]
  exact List.mem_append_right _ (List.mem_append_left _ htoken)

/-- `Reads` keeps the tokens, and what holds of all of them holds of those that are read. -/
theorem keeps {all : List Token} {P : Token → Prop} (h : start.Reads tokens stop)
    (htokens : start.tokens = all) (hall : ∀ token ∈ all, P token) :
    stop.tokens = all ∧ ∀ token ∈ tokens, P token :=
  ⟨h.tokens_eq.trans htokens, (h.forall_tokens (htokens ▸ hall)).2⟩

end Cursor.Reads

/-- `Reads` holds of the tokens at the start of those ahead. -/
theorem Cursor.reads_append (behind tokens rest : List Token) :
    Cursor.Reads ⟨behind, tokens ++ rest⟩ tokens ⟨tokens.reverse ++ behind, rest⟩ := ⟨rfl, rfl⟩

/-- `sees` is true of the text of the next token. -/
theorem Cursor.sees_eq_true_iff {cursor : Cursor} {lexeme : String} :
    cursor.sees lexeme = true ↔ ∃ token ∈ cursor.ahead.head?, token.lexeme = lexeme := by
  unfold Cursor.sees
  rw [Cursor.next?]
  cases cursor.ahead.head? <;> simp

/-- `Cursor.accept` takes a token that is wanted. -/
theorem Cursor.accept_of_wanted {start stop : Cursor} {wanted : Token → Bool} {token : Token}
    (hwanted : wanted token = true) (h : start.Reads [token] stop) :
    start.accept wanted = (some token, stop) := by
  obtain ⟨behind, rest, rfl, rfl⟩ := h.exists_eq
  show (if wanted token = true then _ else _) = _
  rw [if_pos hwanted]
  rfl

/-- `Cursor.accept` leaves a token where it is that is not wanted. -/
theorem Cursor.accept_of_not_wanted {start : Cursor} {wanted : Token → Bool}
    (h : ∀ token ∈ start.ahead.head?, wanted token = false) :
    start.accept wanted = (none, start) := by
  obtain ⟨behind, ahead⟩ := start
  cases ahead with
  | nil => rfl
  | cons token ahead =>
    show (if wanted token = true then _ else _) = _
    rw [if_neg (by simp [h token rfl])]

namespace Rule

variable {α β : Type} {start stop : Cursor} {x : α} {y : β}

/-- `>>=` succeeds where both of its rules do. -/
theorem bind_eq_ok_iff {rule : Rule α} {next : α → Rule β} :
    (rule >>= next) start = .ok (y, stop) ↔
      ∃ x middle, rule start = .ok (x, middle) ∧ next x middle = .ok (y, stop) := by
  show (rule start >>= fun (x, middle) => next x middle) = _ ↔ _
  cases rule start with
  | ok result => exact ⟨fun h => ⟨_, _, rfl, h⟩, by rintro ⟨_, _, h, h'⟩; cases h; exact h'⟩
  | error failure =>
    constructor
    · rintro ⟨⟩
    · rintro ⟨_, _, h, -⟩
      cases h

/-- `>>=` goes on with the second rule where the first stopped. -/
theorem bind_of_eq_ok {rule : Rule α} {next : α → Rule β} (h : rule start = .ok (x, stop)) :
    (rule >>= next) start = next x stop := by
  show (rule start >>= fun (x, middle) => next x middle) = _
  rw [h]
  rfl

/-- `pure` answers without reading. -/
theorem pure_eq_ok_iff {answer : α} :
    (pure answer : Rule α) start = .ok (x, stop) ↔ x = answer ∧ stop = start := by
  show Except.ok (answer, start) = Except.ok (x, stop) ↔ _
  rw [Except.ok.injEq, Prod.mk.injEq, eq_comm (a := answer), eq_comm (a := start)]

/-- `next?` reads nothing. -/
theorem next?_eq_ok_iff {token? : Option Token} :
    (next? : Rule (Option Token)) start = .ok (token?, stop) ↔
      token? = start.ahead.head? ∧ stop = start := by
  show Except.ok (start.next?, start) = Except.ok (token?, stop) ↔ _
  rw [Except.ok.injEq, Prod.mk.injEq, eq_comm, eq_comm (a := start)]
  rfl

/-- `accept` reads a token that is wanted. -/
theorem accept_of_wanted {wanted : Token → Bool} {token : Token} (hwanted : wanted token = true)
    (h : start.Reads [token] stop) :
    (accept wanted : Rule (Option Token)) start = .ok (some token, stop) :=
  congrArg Except.ok (Cursor.accept_of_wanted hwanted h)

/-- A reader of any kind that begins with `accept` goes on as `Cursor.accept` says. -/
theorem run_accept_bind {m : Type → Type} [Monad m] [LawfulMonad m] {α : Type}
    (wanted : Token → Bool) (next : Option Token → StateT Cursor m α) (start : Cursor) :
    (accept wanted >>= next) start =
      next (start.accept wanted).1 (start.accept wanted).2 := pure_bind _ _

/-- `accept` leaves a token where it is that is not wanted. -/
theorem accept_of_not_wanted {wanted : Token → Bool}
    (h : ∀ token ∈ start.ahead.head?, wanted token = false) :
    (accept wanted : Rule (Option Token)) start = .ok (none, start) :=
  congrArg Except.ok (Cursor.accept_of_not_wanted h)

/-- `acceptText` reads a token with the text asked for. -/
theorem acceptText_of_eq {token : Token} {lexeme : String} (hlexeme : token.lexeme = lexeme)
    (h : start.Reads [token] stop) :
    (acceptText lexeme : Rule (Option Token)) start = .ok (some token, stop) :=
  accept_of_wanted (beq_iff_eq.mpr hlexeme) h

/-- `acceptText` leaves a token with another text where it is. -/
theorem acceptText_of_ne {lexeme : String}
    (h : ∀ token ∈ start.ahead.head?, token.lexeme ≠ lexeme) :
    (acceptText lexeme : Rule (Option Token)) start = .ok (none, start) :=
  accept_of_not_wanted fun token htoken => beq_eq_false_iff_ne.mpr (h token htoken)

/-- `accept` reads a token that is wanted, and else nothing. -/
theorem accept_eq_ok {wanted : Token → Bool} {token? : Option Token}
    (h : (accept wanted : Rule (Option Token)) start = .ok (token?, stop)) :
    (∃ token, token? = some token ∧ wanted token = true ∧ start.Reads [token] stop) ∨
      (token? = none ∧ (∀ token ∈ start.ahead.head?, wanted token = false) ∧ stop = start) := by
  obtain ⟨behind, ahead⟩ := start
  by_cases hwanted : ∃ token ∈ ahead.head?, wanted token = true
  · obtain ⟨token, hhead, hwanted⟩ := hwanted
    obtain ⟨rest, rfl⟩ := List.head?_eq_some_iff.mp hhead
    have hreads := Cursor.reads_append behind [token] rest
    rw [List.singleton_append] at hreads
    rw [accept_of_wanted hwanted hreads] at h
    cases h
    exact .inl ⟨token, rfl, hwanted, hreads⟩
  · have hnot : ∀ token ∈ ahead.head?, wanted token = false := fun token htoken =>
      Bool.eq_false_iff.mpr fun h => hwanted ⟨token, htoken, h⟩
    rw [accept_of_not_wanted hnot] at h
    cases h
    exact .inr ⟨rfl, hnot, rfl⟩

/-- `require` reads a token that is accepted. -/
theorem require_eq_ok_iff {accepted : Token → Bool} {wanted : Wanted} {token : Token} :
    require accepted wanted start = .ok (token, stop) ↔
      accepted token = true ∧ start.Reads [token] stop := by
  unfold require
  rw [bind_eq_ok_iff]
  constructor
  · rintro ⟨token?, middle, haccept, hnext⟩
    rcases accept_eq_ok haccept with ⟨found, rfl, haccepted, hreads⟩ | ⟨rfl, -, -⟩
    · obtain ⟨rfl, rfl⟩ := pure_eq_ok_iff.mp hnext
      exact ⟨haccepted, hreads⟩
    · cases hnext
  · rintro ⟨haccepted, hreads⟩
    exact ⟨some token, stop, accept_of_wanted haccepted hreads, rfl⟩

/-- `expect` reads a token with the text asked for. -/
theorem expect_eq_ok_iff {lexeme : String} {wanted : Wanted} {token : Token} :
    expect lexeme wanted start = .ok (token, stop) ↔
      token.lexeme = lexeme ∧ start.Reads [token] stop := by
  unfold expect
  rw [require_eq_ok_iff, beq_iff_eq]

/-- `name` reads an identifier as a node. -/
theorem name_eq_ok_iff {wanted : Wanted} {node : Node} :
    name wanted start = .ok (node, stop) ↔
      ∃ token, token.isIdentifier = true ∧ node = token.node ∧ start.Reads [token] stop := by
  unfold name
  rw [bind_eq_ok_iff]
  constructor
  · rintro ⟨token, middle, hrequire, hnext⟩
    obtain ⟨hidentifier, hreads⟩ := require_eq_ok_iff.mp hrequire
    obtain ⟨rfl, rfl⟩ := pure_eq_ok_iff.mp hnext
    exact ⟨token, hidentifier, rfl, hreads⟩
  · rintro ⟨token, hidentifier, rfl, hreads⟩
    exact ⟨token, stop, require_eq_ok_iff.mpr ⟨hidentifier, hreads⟩, rfl⟩

/-- `sees` depends on the next token and reads nothing. -/
theorem sees_eq_ok_iff {lexeme : String} {seen : Bool} :
    (sees lexeme : Rule Bool) start = .ok (seen, stop) ↔
      seen = start.sees lexeme ∧ stop = start := by
  show Except.ok (start.sees lexeme, start) = Except.ok (seen, stop) ↔ _
  rw [Except.ok.injEq, Prod.mk.injEq, eq_comm, eq_comm (a := start)]

end Rule

namespace Grammar

variable {start next stop : Cursor} {token : Token} {tree : Node} {expression : Rule Node}
  {bound : Nat}

/-- `operand` goes on as its first token decides. -/
theorem operand_of_reads (h : start.Reads [token] next) :
    operand bound expression start =
      match literal? token with
      | some node => .ok (node, next)
      | none =>
        if isOperandName token then
          suffixes (Rule.items bound expression ")" .callCloseParen) bound token.node next
        else if isSymbol "(" token then
          (do
            let inner ← expression
            let _ ← Rule.expect ")" .expressionCloseParen
            return inner : Rule Node) next
        else if isSymbol "[" token then arrayRest bound expression token.start next
        else if isSymbol "\x7b" token then objectRest bound expression token.start next
        else (Rule.unexpected : Rule Node) start := by
  obtain ⟨behind, rest, rfl, rfl⟩ := h.exists_eq
  show (operand bound expression) ⟨behind, token :: rest⟩ = _
  unfold operand
  rw [Rule.bind_of_eq_ok (Rule.next?_eq_ok_iff.mpr ⟨rfl, rfl⟩)]
  simp only [List.head?_cons]
  cases literal? token with
  | some node => rfl
  | none =>
    simp only
    cases isOperandName token <;> cases isSymbol "(" token <;> cases isSymbol "[" token <;>
      cases isSymbol "\x7b" token <;> rfl

/-- `operand` finds nothing at the end. -/
theorem operand_of_nil (h : start.ahead = []) :
    operand bound expression start = (Rule.unexpected : Rule Node) start := by
  obtain ⟨behind, ahead⟩ := start
  obtain rfl : ahead = [] := h
  rfl

end Grammar

end NeutronLang
