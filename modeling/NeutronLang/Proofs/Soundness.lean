import NeutronLang.Proofs.Derivation
import NeutronLang.Proofs.Reading

/-!
# The reader of expressions reads phrases

Whatever a rule for expressions reads is a phrase of the grammar, and the tree that it answers with
is that of the phrase. Every rule is treated as one that takes the rules below it as parameters, so
each step of the reader has one lemma here, and the recursion is tied together once, in
`expressionWithin_yields`.

Climbing needs an invariant. The left operand that it has built so far is a phrase of some level,
and the operator ahead, if there is one, does not bind more tightly than that level
(`climb_yields`). It is kept since the operand after an operator takes all tighter ones.
-/

namespace NeutronLang

/-- A rule that, from no more tokens than `bound`, reads phrases of one sort only. -/
def Rule.Yields {α : Type} (rule : Rule α) (bound : Nat) (phrase : List Token → α → Prop) : Prop :=
  ∀ start x stop, start.ahead.length ≤ bound → rule start = .ok (x, stop) →
    ∃ tokens, start.Reads tokens stop ∧ phrase tokens x

namespace Grammar

variable {α : Type} {bound : Nat}

/-- `moreItems` yields phrases after commas. -/
theorem moreItems_yields {item : Rule α} {phrase : List Token → α → Prop}
    (hitem : item.Yields bound phrase) (count : Nat) :
    (Rule.moreItems item count).Yields bound fun tokens found =>
      ∃ parts : List (List Token × α), found = parts.map (·.2) ∧
        (∀ part ∈ parts, phrase part.1 part.2) ∧
        ∀ first, Separated (first :: parts.map (·.1)) (first ++ tokens) := by
  induction count with
  | zero =>
    intro start found stop _ h
    obtain ⟨rfl, rfl⟩ := Rule.pure_eq_ok_iff.mp h
    exact ⟨[], .refl _, [], rfl, by simp, fun first => by simpa using .single⟩
  | succ count ih =>
    intro start found stop hbound h
    obtain ⟨comma?, middle, hcomma, hnext⟩ := Rule.bind_eq_ok_iff.mp h
    rcases Rule.accept_eq_ok hcomma with ⟨comma, rfl, htext, hreads⟩ | ⟨rfl, -, rfl⟩
    · obtain ⟨x, afterItem, hx, hnext⟩ := Rule.bind_eq_ok_iff.mp hnext
      obtain ⟨xs, last, hxs, hnext⟩ := Rule.bind_eq_ok_iff.mp hnext
      obtain ⟨rfl, rfl⟩ := Rule.pure_eq_ok_iff.mp hnext
      -- each comma and item leave fewer tokens ahead, so the bound still holds for the rest
      have hlength := hreads.length_ahead
      obtain ⟨tokens, hread, hphrase⟩ := hitem _ _ _ (by omega) hx
      have hlength' := hread.length_ahead
      obtain ⟨more, hmore, parts, rfl, hparts, hseparated⟩ := ih _ _ _ (by omega) hxs
      exact ⟨comma :: (tokens ++ more), hreads.cons (hread.trans hmore), (tokens, x) :: parts, rfl,
        List.forall_mem_cons.mpr ⟨hphrase, hparts⟩,
        fun _ => .cons (beq_iff_eq.mp htext) (hseparated tokens)⟩
    · obtain ⟨rfl, rfl⟩ := Rule.pure_eq_ok_iff.mp hnext
      exact ⟨[], .refl _, [], rfl, by simp, fun first => by simpa using .single⟩

/-- `items` yields phrases with commas between them, and the token that closes them. -/
theorem items_yields {item : Rule α} {phrase : List Token → α → Prop}
    (hitem : item.Yields bound phrase) (count : Nat) (close : String) (wanted : Wanted) :
    (Rule.items count item close wanted).Yields bound fun tokens found =>
      ∃ (inner : List Token) (parts : List (List Token × α)), tokens = inner ++ [found.2] ∧
        found.2.lexeme = close ∧ found.1 = parts.map (·.2) ∧
        (∀ part ∈ parts, phrase part.1 part.2) ∧ Separated (parts.map (·.1)) inner := by
  intro start found stop hbound h
  obtain ⟨xs, middle, hxs, h⟩ := Rule.bind_eq_ok_iff.mp h
  obtain ⟨closing, last, hclosing, h⟩ := Rule.bind_eq_ok_iff.mp h
  obtain ⟨rfl, rfl⟩ := Rule.pure_eq_ok_iff.mp h
  obtain ⟨htext, hclose⟩ := Rule.expect_eq_ok_iff.mp hclosing
  -- The closing token is the same in both cases, so only what stands before it is left to show.
  suffices hbefore : ∃ (inner : List Token) (parts : List (List Token × α)),
      start.Reads inner middle ∧ xs = parts.map (·.2) ∧
      (∀ part ∈ parts, phrase part.1 part.2) ∧ Separated (parts.map (·.1)) inner by
    obtain ⟨inner, parts, hread, hxs, hparts, hseparated⟩ := hbefore
    exact ⟨inner ++ [closing], hread.trans hclose, inner, parts, rfl, htext, hxs, hparts,
      hseparated⟩
  obtain ⟨seen, place, hsees, hxs⟩ := Rule.bind_eq_ok_iff.mp hxs
  obtain ⟨-, rfl⟩ := Rule.sees_eq_ok_iff.mp hsees
  cases seen with
  | true =>
    obtain ⟨rfl, rfl⟩ := Rule.pure_eq_ok_iff.mp hxs
    exact ⟨[], [], .refl _, rfl, by simp, .nil⟩
  | false =>
    obtain ⟨x, afterItem, hx, hxs⟩ := Rule.bind_eq_ok_iff.mp hxs
    obtain ⟨more, last, hmore, hxs⟩ := Rule.bind_eq_ok_iff.mp hxs
    obtain ⟨rfl, rfl⟩ := Rule.pure_eq_ok_iff.mp hxs
    obtain ⟨tokens, hread, hphrase⟩ := hitem _ _ _ hbound hx
    have hlength := hread.length_ahead
    obtain ⟨rest, hrest, parts, rfl, hparts, hseparated⟩ :=
      moreItems_yields hitem count _ _ _ (by omega) hmore
    exact ⟨tokens ++ rest, (tokens, x) :: parts, hread.trans hrest, rfl,
      List.forall_mem_cons.mpr ⟨hphrase, hparts⟩, hseparated tokens⟩

/-- `suffixes` yields a longer phrase after a name. -/
theorem suffixes_yields {arguments : Rule (List Node × Token)}
    (harguments : arguments.Yields bound fun tokens found =>
      ∃ (inner : List Token) (parts : List (List Token × Node)), tokens = inner ++ [found.2] ∧
        found.2.lexeme = ")" ∧ found.1 = parts.map (·.2) ∧
        (∀ part ∈ parts, Derives 1 part.1 part.2) ∧ Separated (parts.map (·.1)) inner)
    (count : Nat) {before : List Token} {left : Node} (hleft : Derives pathLevel before left) :
    (suffixes arguments count left).Yields bound fun tokens tree =>
      Derives pathLevel (before ++ tokens) tree := by
  -- The name grows to the left of where reading goes on, so the phrase before it must be general.
  induction count generalizing before left with
  | zero =>
    intro start tree stop _ h
    obtain ⟨rfl, rfl⟩ := Rule.pure_eq_ok_iff.mp h
    exact ⟨[], .refl _, by simpa using hleft⟩
  | succ count ih =>
    intro start tree stop hbound h
    obtain ⟨sign?, middle, hsign, hnext⟩ := Rule.bind_eq_ok_iff.mp h
    rcases Rule.accept_eq_ok hsign with ⟨sign, rfl, htext, hreads⟩ | ⟨rfl, -, rfl⟩
    · have hlength := hreads.length_ahead
      simp only [Bool.or_eq_true, beq_iff_eq] at htext hnext
      split at hnext
      · next hparen =>
        obtain ⟨⟨found, closing⟩, place, hfound, hnext⟩ := Rule.bind_eq_ok_iff.mp hnext
        obtain ⟨tokens, hread, inner, parts, rfl, hclosing, rfl, hparts, hseparated⟩ :=
          harguments _ _ _ (by omega) hfound
        have hlength' := hread.length_ahead
        -- The call is the longer name that further suffixes follow.
        have hcall := Derives.call hparen hclosing hleft hparts hseparated
        obtain ⟨more, hmore, htree⟩ := ih hcall _ _ _ (by omega) hnext
        refine ⟨sign :: (inner ++ [closing]) ++ more, (hreads.cons hread).trans hmore, ?_⟩
        show Derives pathLevel (before ++ (sign :: (inner ++ [closing]) ++ more)) tree
        rw [← List.append_assoc]
        exact htree
      · next hparen =>
        have hdot := htext.resolve_left hparen
        obtain ⟨node, place, hname, hnext⟩ := Rule.bind_eq_ok_iff.mp hnext
        obtain ⟨name, hidentifier, rfl, hread⟩ := Rule.name_eq_ok_iff.mp hname
        have hlength' := hread.length_ahead
        have hmember := Derives.member hdot hidentifier hleft
        obtain ⟨more, hmore, htree⟩ := ih hmember _ _ _ (by omega) hnext
        refine ⟨[sign, name] ++ more, (hreads.cons hread).trans hmore, ?_⟩
        show Derives pathLevel (before ++ ([sign, name] ++ more)) tree
        rw [← List.append_assoc]
        exact htree
    · obtain ⟨rfl, rfl⟩ := Rule.pure_eq_ok_iff.mp hnext
      exact ⟨[], .refl _, by simpa using hleft⟩

/-- `property` yields the tokens and the node of its `PropertyParts`. -/
theorem property_yields {expression : Rule Node} (h : expression.Yields bound (Derives 1)) :
    (property expression).Yields bound fun tokens tree =>
      ∃ parts : PropertyParts, tokens = parts.tokens ∧ tree = parts.node ∧
        parts.key.kind = .string ∧ parts.colon.lexeme = ":" ∧
        Derives 1 parts.valueTokens parts.value := by
  intro start tree stop hbound hread
  obtain ⟨key, place, hkey, hnext⟩ := Rule.bind_eq_ok_iff.mp hread
  obtain ⟨colon, place', hcolon, hnext⟩ := Rule.bind_eq_ok_iff.mp hnext
  obtain ⟨value, place'', hvalue, hnext⟩ := Rule.bind_eq_ok_iff.mp hnext
  obtain ⟨rfl, rfl⟩ := Rule.pure_eq_ok_iff.mp hnext
  obtain ⟨hstring, hkey⟩ := Rule.require_eq_ok_iff.mp hkey
  obtain ⟨htext, hcolon⟩ := Rule.expect_eq_ok_iff.mp hcolon
  have hlength := hkey.length_ahead
  have hlength' := hcolon.length_ahead
  obtain ⟨tokens, hreads, hderives⟩ := h _ _ _ (by omega) hvalue
  exact ⟨key :: colon :: tokens, hkey.cons (hcolon.cons hreads), ⟨key, colon, tokens, value⟩, rfl,
    rfl, beq_iff_eq.mp hstring, htext, hderives⟩

/-- Properties that were read as phrases have `PropertyParts`. -/
theorem exists_propertyParts {phrases : List (List Token × Node)}
    (h : ∀ phrase ∈ phrases, ∃ parts : PropertyParts, phrase.1 = parts.tokens ∧
      phrase.2 = parts.node ∧ parts.key.kind = .string ∧ parts.colon.lexeme = ":" ∧
      Derives 1 parts.valueTokens parts.value) :
    ∃ properties : List PropertyParts, phrases = properties.map (fun p => (p.tokens, p.node)) ∧
      (∀ parts ∈ properties, parts.key.kind = .string ∧ parts.colon.lexeme = ":") ∧
      ∀ parts ∈ properties, Derives 1 parts.valueTokens parts.value := by
  induction phrases with
  | nil => exact ⟨[], rfl, by simp, by simp⟩
  | cons phrase phrases ih =>
    obtain ⟨properties, rfl, hsigns, hvalues⟩ := ih fun p hp => h p (List.mem_cons_of_mem _ hp)
    obtain ⟨parts, htokens, hnode, hkey, hcolon, hvalue⟩ := h phrase List.mem_cons_self
    exact ⟨parts :: properties, by rw [List.map_cons, ← htokens, ← hnode],
      List.forall_mem_cons.mpr ⟨⟨hkey, hcolon⟩, hsigns⟩,
      List.forall_mem_cons.mpr ⟨hvalue, hvalues⟩⟩

/-- `operand` yields phrases of the level of operands, if the expressions inside are read as
phrases. -/
theorem operand_yields {expression : Rule Node} (h : expression.Yields bound (Derives 1))
    (count : Nat) : (operand count expression).Yields (bound + 1) (Derives operandLevel) := by
  intro start tree stop hbound hread
  cases hahead : start.ahead with
  | nil =>
    rw [operand_of_nil hahead] at hread
    cases hread
  | cons token ahead =>
    have hfirst : start.Reads [token] ⟨token :: start.behind, ahead⟩ := ⟨hahead, rfl⟩
    have hlength := hfirst.length_ahead_token
    rw [operand_of_reads hfirst] at hread
    cases hliteral : literal? token with
    | some node =>
      rw [hliteral] at hread
      obtain ⟨rfl, rfl⟩ := hread
      exact ⟨[token], hfirst, .literal hliteral⟩
    | none =>
    simp only [hliteral] at hread
    split at hread
    · next hname =>
      -- A name, with the calls and member accesses after it.
      obtain ⟨tokens, hmore, hphrase⟩ := suffixes_yields (items_yields h count ")" .callCloseParen)
        count (.name hname) _ _ _ (by omega) hread
      have hoperand : Derives operandLevel ([token] ++ tokens) tree :=
        hphrase.of_le (by decide) (by decide)
      exact ⟨token :: tokens, hfirst.cons hmore, hoperand⟩
    split at hread
    · next hparen =>
      obtain ⟨inner, place, hinner, hnext⟩ := Rule.bind_eq_ok_iff.mp hread
      obtain ⟨closing, place', hclosing, hnext⟩ := Rule.bind_eq_ok_iff.mp hnext
      obtain ⟨rfl, rfl⟩ := Rule.pure_eq_ok_iff.mp hnext
      obtain ⟨tokens, hmore, hphrase⟩ := h _ _ _ (by omega) hinner
      obtain ⟨htext, hclose⟩ := Rule.expect_eq_ok_iff.mp hclosing
      exact ⟨_, hfirst.cons (hmore.trans hclose), .parenthesised hparen htext hphrase⟩
    split at hread
    · next hbracket =>
      obtain ⟨⟨found, closing⟩, place, hfound, hnext⟩ := Rule.bind_eq_ok_iff.mp hread
      obtain ⟨rfl, rfl⟩ := Rule.pure_eq_ok_iff.mp hnext
      obtain ⟨tokens, hmore, inner, parts, rfl, hclosing, rfl, hparts, hseparated⟩ :=
        items_yields h count "]" .arrayEnd _ _ _ (by omega) hfound
      exact ⟨_, hfirst.cons hmore, .array hbracket hclosing hparts hseparated⟩
    split at hread
    · next hbrace =>
      obtain ⟨⟨found, closing⟩, place, hfound, hnext⟩ := Rule.bind_eq_ok_iff.mp hread
      obtain ⟨rfl, rfl⟩ := Rule.pure_eq_ok_iff.mp hnext
      obtain ⟨tokens, hmore, inner, parts, rfl, hclosing, rfl, hparts, hseparated⟩ :=
        items_yields (property_yields h) count "\x7d" .objectEnd _ _ _ (by omega) hfound
      obtain ⟨properties, rfl, hsigns, hvalues⟩ := exists_propertyParts hparts
      rw [List.map_map] at hseparated ⊢
      exact ⟨_, hfirst.cons hmore, .object hbrace hclosing hsigns hvalues hseparated⟩
    · cases hread

/-- `unary` yields phrases of the level of prefix operators, if its operand does of its own. -/
theorem unary_yields {operand : Rule Node} (h : operand.Yields bound (Derives operandLevel))
    (count : Nat) : (unary operand count).Yields bound (Derives prefixLevel) := by
  have hbare {start stop : Cursor} {tree : Node} (hbound : start.ahead.length ≤ bound)
      (hread : operand start = .ok (tree, stop)) :
      ∃ tokens, start.Reads tokens stop ∧ Derives prefixLevel tokens tree := by
    obtain ⟨tokens, hreads, hphrase⟩ := h _ _ _ hbound hread
    exact ⟨tokens, hreads, .loosen (by decide) (by decide) hphrase⟩
  induction count with
  | zero => exact fun start tree stop hbound hread => hbare hbound hread
  | succ count ih =>
    intro start tree stop hbound hread
    obtain ⟨sign?, middle, hsign, hnext⟩ := Rule.bind_eq_ok_iff.mp hread
    rcases Rule.accept_eq_ok hsign with ⟨sign, rfl, htext, hreads⟩ | ⟨rfl, -, rfl⟩
    · obtain ⟨argument, place, hargument, hnext⟩ := Rule.bind_eq_ok_iff.mp hnext
      obtain ⟨rfl, rfl⟩ := Rule.pure_eq_ok_iff.mp hnext
      have hlength := hreads.length_ahead
      obtain ⟨tokens, hmore, hphrase⟩ := ih _ _ _ (by omega) hargument
      exact ⟨sign :: tokens, hreads.cons hmore, .unary htext hphrase⟩
    · exact hbare hbound hnext

/-- The next token, if it is a binary operator, binds less tightly than `limit`. -/
def Loose (limit : Nat) (place : Cursor) : Prop :=
  ∀ token ∈ place.ahead.head?, ∀ precedence, precedence? token.lexeme = some precedence →
    precedence < limit

/-- `bindsFrom` a level holds of an operator whose precedence is no lower. -/
theorem bindsFrom_eq_true_iff {least : Nat} {token : Token} :
    bindsFrom least token = true ↔
      ∃ precedence, precedence? token.lexeme = some precedence ∧ least ≤ precedence := by
  unfold bindsFrom
  rw [Option.any_eq_true]
  simp

/-- `climb` from a left operand of some level yields a phrase that starts with it. -/
theorem climb_yields {operand : Rule Node} (h : operand.Yields bound (Derives prefixLevel))
    (count : Nat) {least level : Nat} {before : List Token} {left : Node}
    (hleft : Derives level before left) (hpos : 1 ≤ least) (hle : least ≤ level)
    (hlevel : level ≤ prefixLevel) {start stop : Cursor} {tree : Node}
    (hbound : start.ahead.length ≤ bound) (hcount : start.ahead.length ≤ count)
    (hloose : Loose (level + 1) start)
    (hread : climb operand count least left start = .ok (tree, stop)) :
    ∃ tokens, start.Reads tokens stop ∧ Derives least (before ++ tokens) tree ∧
      Loose least stop := by
  induction count generalizing least level before left start stop tree with
  | zero =>
    obtain ⟨rfl, rfl⟩ := Rule.pure_eq_ok_iff.mp hread
    -- The count is no less than the tokens ahead, so it runs out only where they do.
    have hend : stop.ahead = [] := List.length_eq_zero_iff.mp (by omega)
    refine ⟨[], .refl _, ?_, by simp [Loose, hend]⟩
    rw [List.append_nil]
    exact hleft.of_le hpos hle
  | succ count ih =>
    obtain ⟨operator?, middle, hoperator, hnext⟩ := Rule.bind_eq_ok_iff.mp hread
    rcases Rule.accept_eq_ok hoperator with ⟨operator, rfl, hbinds, hreads⟩ | ⟨rfl, hnone, rfl⟩
    · obtain ⟨precedence, hprecedence, hleast⟩ := bindsFrom_eq_true_iff.mp hbinds
      have hbounds := precedence_bounds hprecedence
      have htight : precedence < level + 1 :=
        hloose operator (by rw [hreads.ahead]; rfl) precedence hprecedence
      obtain ⟨first, afterFirst, hfirst, hnext⟩ := Rule.bind_eq_ok_iff.mp hnext
      obtain ⟨right, afterRight, hright, hnext⟩ := Rule.bind_eq_ok_iff.mp hnext
      rw [hprecedence, Option.getD_some] at hright
      have hlength := hreads.length_ahead_token
      obtain ⟨firstTokens, hfirst, hphrase⟩ := h _ _ _ (by omega) hfirst
      have hlength' := hfirst.length_ahead
      -- The right operand takes all tighter operators, so what follows binds no more tightly than
      -- this one. That keeps the invariant for the rest.
      obtain ⟨moreTokens, hmore, hright, hloose'⟩ := ih hphrase (by omega) (by omega)
        (Nat.le_refl _) (by omega) (by omega) (fun _ _ _ h => by
          have := precedence_bounds h
          omega) hright
      have hlength'' := hmore.length_ahead
      have hbinary := Derives.binary hprecedence (hleft.of_le (by omega) (by omega)) hright
      obtain ⟨tokens, hrest, htree, hlast⟩ := ih hbinary hpos hleast (by omega) (by omega)
        (by omega) hloose' hnext
      refine ⟨_, hreads.cons ((hfirst.trans hmore).trans hrest), ?_, hlast⟩
      simpa using htree
    · obtain ⟨rfl, rfl⟩ := Rule.pure_eq_ok_iff.mp hnext
      refine ⟨[], .refl _, ?_, ?_⟩
      · rw [List.append_nil]
        exact hleft.of_le hpos hle
      · intro token htoken precedence hprecedence
        -- Climbing stops at an operator that binds less tightly than from this level on.
        have hnot := hnone token htoken
        rw [Bool.eq_false_iff, ne_eq, bindsFrom_eq_true_iff] at hnot
        exact Nat.lt_of_not_le fun hle => hnot ⟨precedence, hprecedence, hle⟩

/-- `expressionWithin` yields phrases of the loosest level. -/
theorem expressionWithin_yields (bound : Nat) :
    (expressionWithin bound).Yields bound (Derives 1) := by
  induction bound with
  | zero =>
    intro start tree stop _ hread
    cases hread
  | succ bound ih =>
    intro start tree stop hbound hread
    obtain ⟨left, middle, hleft, hnext⟩ := Rule.bind_eq_ok_iff.mp hread
    have hunary := unary_yields (operand_yields ih bound) (bound + 1)
    obtain ⟨before, hbefore, hphrase⟩ := hunary _ _ _ hbound hleft
    have hlength := hbefore.length_ahead
    obtain ⟨tokens, hreads, htree, -⟩ := climb_yields hunary (bound + 1) hphrase (Nat.le_refl _)
      (by decide) (Nat.le_refl _) (by omega) (by omega)
      (fun _ _ _ h => by have := precedence_bounds h; omega) hnext
    exact ⟨before ++ tokens, hbefore.trans hreads, htree⟩

/-- `expression` reads a phrase of the loosest level, and answers with its tree. -/
theorem expression_sound {start stop : Cursor} {tree : Node}
    (h : expression start = .ok (tree, stop)) :
    ∃ read, start.Reads read stop ∧ Derives 1 read tree :=
  expressionWithin_yields start.ahead.length start tree stop (Nat.le_refl _) h

end Grammar

end NeutronLang
