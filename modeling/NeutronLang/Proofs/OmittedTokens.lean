import NeutronLang.Proofs.Progress

/-!
# Tokens with one left out

Reading the tokens of a document without one of them goes on, place by place, as reading all of them
does, as long as it does not come to the token that is left out. `Cursor.without` is the place that
corresponds: right before that token and right after it, it is the same one.

Nothing by which a cursor is moved or asked notices, except where it could not help it: right before
the token (`Cursor.index` is its index), and for the last token of all, where that is the one left
out (`Cursor.Clear`). A search for the next boundary that passes the token ends anywhere.
-/

namespace NeutronLang

/-- An index among the tokens without the one at `place`: what comes after it moves up. -/
def indexWithout (place index : Nat) : Nat := if index ≤ place then index else index - 1

/-- `indexWithout` leaves the place itself as it is. -/
theorem indexWithout_self (place : Nat) : indexWithout place place = place := if_pos (Nat.le_refl _)

/-! ## Cursors -/

namespace Cursor

/-- The cursor among the tokens without the one at `place`. -/
def without (place : Nat) (cursor : Cursor) : Cursor :=
  if cursor.index ≤ place then ⟨cursor.behind, cursor.ahead.eraseIdx (place - cursor.index)⟩
  else ⟨cursor.behind.eraseIdx (cursor.index - 1 - place), cursor.ahead⟩

/-- What is next to a cursor is not the token at `place`: it is not the next one, and if it is the
one read last there are others ahead. -/
structure Clear (place : Nat) (cursor : Cursor) : Prop where
  aside : cursor.index ≠ place
  ahead : cursor.index = place + 1 → cursor.ahead ≠ []

/-- Reading leads from before a place to it, or past it. -/
def Crosses (place : Nat) (start stop : Cursor) : Prop := start.index < place ∧ place ≤ stop.index

variable {place : Nat} {cursor start middle stop : Cursor} {read : List Token}

/-- `Crosses` stays true with what is read before. -/
theorem Crosses.of_reads (h : middle.Crosses place stop) (hread : start.Reads read middle) :
    start.Crosses place stop := by
  have hindex := hread.index_eq
  exact ⟨by have := h.1; omega, h.2⟩

/-- `Crosses` stays true with what is read behind. -/
theorem Crosses.reads (h : start.Crosses place middle) (hread : middle.Reads read stop) :
    start.Crosses place stop := by
  have hindex := hread.index_eq
  exact ⟨h.1, by have := h.2; omega⟩

/-- `Reads` from a clear place crosses the token or leads to a clear place. -/
theorem Clear.of_reads (h : start.Clear place) (hread : start.Reads read stop) :
    start.Crosses place stop ∨ stop.Clear place := by
  have hindex := hread.index_eq
  have haside := h.aside
  unfold Crosses
  by_cases hcross : start.index < place ∧ place ≤ stop.index
  · exact .inl hcross
  · refine .inr ⟨by omega, fun hstop => ?_⟩
    -- so near to the token nothing was read
    obtain rfl : read = [] := List.length_eq_zero_iff.mp (by omega)
    rw [hread.eq_of_nil] at hstop ⊢
    exact h.ahead hstop

/-- `without` leaves the token out ahead where the cursor is not past it. -/
theorem without_of_le (h : cursor.index ≤ place) :
    cursor.without place = ⟨cursor.behind, cursor.ahead.eraseIdx (place - cursor.index)⟩ := if_pos h

/-- `without` leaves the token out behind where the cursor is past it. -/
theorem without_of_lt (h : place < cursor.index) :
    cursor.without place = ⟨cursor.behind.eraseIdx (cursor.index - 1 - place), cursor.ahead⟩ :=
  if_neg (Nat.not_le_of_lt h)

/-- `without` has the cursor at the place that corresponds. -/
@[simp] theorem index_without (place : Nat) (cursor : Cursor) :
    (cursor.without place).index = indexWithout place cursor.index := by
  unfold without indexWithout
  split
  · rfl
  · show (cursor.behind.eraseIdx (cursor.index - 1 - place)).length = _
    have hindex : cursor.index = cursor.behind.length := rfl
    rw [List.length_eraseIdx_of_lt (by omega), hindex]

/-- `without` has the same token ahead, unless that is the one left out. -/
theorem head?_ahead_without (h : cursor.index ≠ place) :
    (cursor.without place).ahead.head? = cursor.ahead.head? := by
  unfold without
  split
  · cases hahead : cursor.ahead with
    | nil => rfl
    | cons token ahead =>
      obtain ⟨count, hcount⟩ : ∃ count, place - cursor.index = count + 1 :=
        ⟨place - cursor.index - 1, by omega⟩
      rw [hcount, List.eraseIdx_cons_succ]
      rfl
  · rfl

/-- `without` has no more tokens ahead. -/
theorem length_ahead_without_le (place : Nat) (cursor : Cursor) :
    (cursor.without place).ahead.length ≤ cursor.ahead.length := by
  unfold without
  split
  · exact List.length_eraseIdx_le ..
  · exact Nat.le_refl _

/-- `without` has no other tokens. -/
theorem mem_tokens_of_without {token : Token} (h : token ∈ (cursor.without place).tokens) :
    token ∈ cursor.tokens := by
  unfold tokens at h ⊢
  rw [List.mem_append, List.mem_reverse] at h ⊢
  unfold without at h
  split at h
  · exact h.imp_right List.mem_of_mem_eraseIdx
  · exact h.imp_left List.mem_of_mem_eraseIdx

/-- `next?` is the same, unless it is the token left out. -/
theorem next?_without (h : cursor.index ≠ place) : (cursor.without place).next? = cursor.next? :=
  head?_ahead_without h

/-- `atEnd` is the same, unless the token left out is next. -/
theorem atEnd_without (h : cursor.index ≠ place) : (cursor.without place).atEnd = cursor.atEnd := by
  unfold atEnd
  rw [Bool.eq_iff_iff, List.isEmpty_iff, List.isEmpty_iff, ← List.head?_eq_none_iff,
    ← List.head?_eq_none_iff, head?_ahead_without h]

/-- `sees` is the same, unless the token left out is next. -/
theorem sees_without (h : cursor.index ≠ place) (lexeme : String) :
    (cursor.without place).sees lexeme = cursor.sees lexeme := by
  unfold sees
  rw [next?_without h]

/-- `advance` leads to the place that corresponds. -/
theorem advance_without (h : cursor.index ≠ place) :
    (cursor.without place).advance = cursor.advance.without place := by
  obtain ⟨behind, ahead⟩ := cursor
  -- the token that is left out is still ahead, or it has been read
  rcases Nat.lt_or_gt_of_ne h with hbefore | hafter
  · rw [without_of_le (Nat.le_of_lt hbefore)]
    cases ahead with
    | nil => exact (without_of_le (Nat.le_of_lt hbefore)).symm
    | cons token ahead =>
      have hnext : (⟨token :: behind, ahead⟩ : Cursor).index ≤ place := hbefore
      have hcount : place - behind.length = (place - (behind.length + 1)) + 1 := by
        have : behind.length < place := hbefore
        omega
      show Cursor.advance ⟨behind, (token :: ahead).eraseIdx (place - behind.length)⟩ =
        (⟨token :: behind, ahead⟩ : Cursor).without place
      rw [without_of_le hnext, hcount, List.eraseIdx_cons_succ]
      rfl
  · rw [without_of_lt hafter]
    cases ahead with
    | nil => exact (without_of_lt hafter).symm
    | cons token ahead =>
      have hnext : place < (⟨token :: behind, ahead⟩ : Cursor).index := Nat.lt_succ_of_lt hafter
      have hcount : behind.length + 1 - 1 - place = (behind.length - 1 - place) + 1 := by
        have : place < behind.length := hafter
        omega
      show (⟨token :: behind.eraseIdx (behind.length - 1 - place), ahead⟩ : Cursor) =
        (⟨token :: behind, ahead⟩ : Cursor).without place
      rw [without_of_lt hnext]
      show _ = Cursor.mk ((token :: behind).eraseIdx (behind.length + 1 - 1 - place)) ahead
      rw [hcount, List.eraseIdx_cons_succ]

/-- `accept` takes a token if it takes it among all tokens. -/
theorem accept_without (h : cursor.index ≠ place) (wanted : Token → Bool) :
    (cursor.without place).accept wanted =
      ((cursor.accept wanted).1, (cursor.accept wanted).2.without place) := by
  unfold accept
  rw [next?_without h, advance_without h]
  cases cursor.next? with
  | none => rfl
  | some token =>
    dsimp only
    split <;> rfl

/-- `without` has the same token behind, unless that is the one left out. -/
theorem head?_behind_without (h : cursor.index ≠ place + 1) :
    (cursor.without place).behind.head? = cursor.behind.head? := by
  obtain ⟨behind, ahead⟩ := cursor
  rcases Nat.lt_or_ge place (⟨behind, ahead⟩ : Cursor).index with hafter | hbefore
  · rw [without_of_lt hafter]
    cases behind with
    | nil => rfl
    | cons token behind =>
      replace hafter : place < behind.length + 1 := hafter
      replace h : behind.length + 1 ≠ place + 1 := h
      have hcount : behind.length + 1 - 1 - place = (behind.length - 1 - place) + 1 := by omega
      show ((token :: behind).eraseIdx (behind.length + 1 - 1 - place)).head? = _
      rw [hcount, List.eraseIdx_cons_succ]
      rfl
  · rw [without_of_le hbefore]

/-- A clear place with nothing ahead is not right after the token. -/
theorem Clear.index_ne (h : cursor.Clear place) (hahead : cursor.ahead = []) :
    cursor.index ≠ place + 1 := fun hindex => h.ahead hindex hahead

/-- `offender?` is the same token at a clear place. -/
theorem offender?_without (h : cursor.Clear place) :
    (cursor.without place).offender? = cursor.offender? := by
  unfold offender?
  rw [head?_ahead_without h.aside]
  cases hahead : cursor.ahead with
  | nil => rw [head?_behind_without (h.index_ne hahead)]
  | cons token ahead => rfl

/-- `spanTo` starts at one offset, wherever it stops. -/
theorem start_spanTo (start stop stop' : Cursor) :
    (start.spanTo stop').start = (start.spanTo stop).start := by
  unfold spanTo
  cases start.ahead <;> rfl

/-- `spanTo` starts at the same offset without the token, from a clear place. -/
theorem start_spanTo_without (h : start.Clear place) (stop stop' : Cursor) :
    ((start.without place).spanTo stop').start = (start.spanTo stop).start := by
  have hhead := head?_ahead_without h.aside
  unfold spanTo
  cases hahead : start.ahead with
  | nil =>
    rw [hahead, List.head?_nil, List.head?_eq_none_iff] at hhead
    rw [hhead]
    unfold lastStop
    rw [head?_behind_without (h.index_ne hahead)]
  | cons token ahead =>
    rw [hahead, List.head?_cons] at hhead
    obtain ⟨ahead', hahead'⟩ := List.head?_eq_some_iff.mp hhead
    rw [hahead']
    rfl

/-- `Reads` gives the same tokens up to the one left out. -/
theorem Reads.without (h : start.Reads read stop) (hstop : stop.index ≤ place) :
    (start.without place).Reads read (stop.without place) := by
  have hindex := h.index_eq
  rw [without_of_le (by omega), without_of_le hstop]
  constructor
  · show start.ahead.eraseIdx (place - start.index) = read ++ _
    rw [h.ahead, List.eraseIdx_append_of_length_le (by omega)]
    congr 2
    omega
  · exact h.behind

/-- `ofTokens` without a token has the others ahead. -/
theorem without_ofTokens (place : Nat) (tokens : List Token) :
    (ofTokens tokens).without place = ofTokens (tokens.eraseIdx place) :=
  without_of_le (Nat.zero_le place)

/-! ## Recovery -/

/-- `synchronize` stops at the next token or goes past it. -/
theorem synchronize_eq (cursor : Cursor) :
    cursor.synchronize =
      match cursor.next? with
      | none => cursor
      | some token =>
        if token.lexeme == ";" then cursor.advance
        else if isBoundary token then cursor
        else cursor.advance.synchronize := by
  obtain ⟨behind, ahead⟩ := cursor
  cases ahead <;> rfl

/-- `synchronize` crosses the token, or it leads to the place that corresponds. -/
theorem synchronize_without (h : cursor.index ≠ place) :
    cursor.Crosses place cursor.synchronize ∨
      (cursor.without place).synchronize = cursor.synchronize.without place := by
  induction hahead : cursor.ahead generalizing cursor with
  | nil =>
    have hnext : cursor.next? = none := by
      unfold next?
      rw [hahead, List.head?_nil]
    rw [synchronize_eq, synchronize_eq (cursor.without place), next?_without h, hnext]
    exact .inr rfl
  | cons token ahead ih =>
    have hread : cursor.Reads [token] cursor.advance := by
      obtain ⟨behind, _⟩ := cursor
      subst hahead
      exact ⟨rfl, rfl⟩
    have hnext : cursor.next? = some token := hread.head?_ahead
    rw [synchronize_eq, synchronize_eq (cursor.without place), next?_without h, hnext,
      advance_without h]
    dsimp only
    split
    · exact .inr rfl
    split
    · exact .inr rfl
    · by_cases hplace : cursor.advance.index = place
      · -- the search is right before the token, and goes on
        have hstep := Grammar.index_lt_of_reads hread
        have hsearch := Grammar.index_le_synchronize cursor.advance
        exact .inl ⟨by omega, by omega⟩
      · have hrest : cursor.advance.ahead = ahead := by
          rw [hread.ahead] at hahead
          exact (List.cons.inj hahead).2
        exact (ih hplace hrest).imp_left fun hcross => hcross.of_reads hread

end Cursor

/-! ## Errors and events -/

/-- The failure at the place that corresponds (`Cursor.without`). -/
def Failure.without (place : Nat) (failure : Failure) : Failure :=
  { failure with cursor := failure.cursor.without place }

/-- The error without the token at `place`: only the index of the next token may be another one. -/
def SyntaxError.without (place : Nat) (error : SyntaxError) : SyntaxError :=
  { error with
    index := error.index.map fun index : Int => if index ≤ place then index else index - 1 }

/-- The event at the places that correspond (`indexWithout`). -/
def Event.without (place : Nat) : Event → Event
  | began start => began (indexWithout place start)
  | completed start stop => completed (indexWithout place start) (indexWithout place stop)
  | terminated after index => terminated after (indexWithout place index)
  | unterminated error index => unterminated (error.without place) (indexWithout place index)
  | closed start stop => closed (indexWithout place start) (indexWithout place stop)
  | unclosed start => unclosed (indexWithout place start)
  | skipped token start stop =>
    skipped token (indexWithout place start) (indexWithout place stop)
  | abandoned error start failed resume =>
    abandoned (error.without place) (indexWithout place start) (indexWithout place failed)
      (indexWithout place resume)

/-- `error?` of an event at the places that correspond is the error that corresponds. -/
theorem Event.error?_without (place : Nat) (event : Event) :
    (event.without place).error? = event.error?.map (SyntaxError.without place) := by
  cases event <;> rfl

/-- The errors on a record at the places that correspond are those that correspond. -/
theorem Event.filterMap_error?_without (place : Nat) (events : List Event) :
    (events.map (Event.without place)).filterMap Event.error? =
      (events.filterMap Event.error?).map (SyntaxError.without place) := by
  rw [List.filterMap_map, List.map_filterMap]
  congr 1
  exact funext (Event.error?_without place)

variable {place : Nat} {cursor start : Cursor} {failure : Failure} {read : List Token}

/-- `error` of a failure at the place that corresponds is the error that corresponds. -/
theorem Failure.error_without (h : failure.cursor.Clear place) :
    (failure.without place).error = failure.error.without place := by
  unfold Failure.error Failure.without SyntaxError.onToken SyntaxError.without
  dsimp only
  rw [Cursor.offender?_without h, Cursor.index_without, Option.map_some, indexWithout]
  congr 2
  split <;> split <;> omega

/-- `unexpected` fails at the place that corresponds. -/
theorem Cursor.unexpected_without (h : cursor.index ≠ place) :
    (cursor.without place).unexpected = cursor.unexpected.without place := by
  unfold unexpected Failure.without
  rw [next?_without h]

/-- `missing` fails at the place that corresponds. -/
theorem Cursor.missing_without (h : cursor.index ≠ place) (wanted : Wanted) :
    (cursor.without place).missing wanted = (cursor.missing wanted).without place := by
  unfold missing Failure.without
  rw [atEnd_without h]

/-- `resumeAfter` does not lead before the place where the attempt failed. -/
theorem Cursor.index_le_resumeAfter (hread : start.Reads read failure.cursor) :
    failure.cursor.index ≤ (start.resumeAfter failure).index := by
  have hindex := hread.index_eq
  have hsearch := Grammar.index_le_synchronize failure.cursor
  unfold resumeAfter
  dsimp only
  split
  · rw [index_advance]
    split <;> omega
  · exact hsearch

/-- `resumeAfter` leads to the place that corresponds, unless it crosses the token. -/
theorem Cursor.resumeAfter_without (hstart : start.index ≠ place)
    (hfailed : failure.cursor.index ≠ place) (hread : start.Reads read failure.cursor) :
    failure.cursor.Crosses place (start.resumeAfter failure) ∨
      (start.without place).resumeAfter (failure.without place) =
        (start.resumeAfter failure).without place := by
  have hindex := hread.index_eq
  have hsearch := Grammar.index_le_synchronize failure.cursor
  by_cases hcross : start.index < place ∧ place ≤ failure.cursor.synchronize.index ∧
      failure.cursor.index < place
  · refine .inl ⟨hcross.2.2, ?_⟩
    unfold resumeAfter
    dsimp only
    rw [if_neg (by omega)]
    exact hcross.2.1
  · rcases synchronize_without hfailed with ⟨hbefore, hafter⟩ | hsame
    · exact absurd ⟨by omega, hafter, hbefore⟩ hcross
    · refine .inr ?_
      have hresume : (failure.without place).cursor.synchronize =
          failure.cursor.synchronize.without place := hsame
      unfold resumeAfter
      dsimp only
      -- going back is decided by comparing two indices, which leaving out a token keeps in order
      have hiff : indexWithout place failure.cursor.synchronize.index ≤
          indexWithout place start.index ↔ failure.cursor.synchronize.index ≤ start.index := by
        unfold indexWithout
        split <;> split <;> omega
      rw [hresume, index_without, index_without, advance_without hstart]
      by_cases hback : failure.cursor.synchronize.index ≤ start.index
      · rw [if_pos hback, if_pos (hiff.mpr hback)]
      · rw [if_neg hback, if_neg (mt hiff.mp hback)]

end NeutronLang
