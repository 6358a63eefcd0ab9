import Mathlib.Data.List.TakeWhile
import NeutronLang.Proofs.Progress
import NeutronLang.Proofs.SpanOrder

/-!
# Errors are in the order of the text

A missing semicolon is recorded where it is missed, inside the statements around it; the failure of
one of those is recorded when it is given up, and at the end of the tokens it is reported backwards,
on the last of them. The record is in the order of the text all the same: what a course records lies
between the token that comes next and the one that comes afterwards (`Course.errorsBetween`). Only
the alternative of a conditional can fail after something was recorded, and it has read its word by
then, so not even a failure at the end is reported before what is on the record.
-/

namespace NeutronLang

variable {start middle stop : Cursor} {token : Token} {read : List Token} {last : Int}

/-! ## Tokens to report on -/

/-- The first of `Laid` tokens starts no later than any of them. -/
theorem Laid.start_le {first : Int} {tokens : List Token} (h : Laid first tokens last)
    (htoken : token ∈ tokens.head?) : ∀ later ∈ tokens, token.start ≤ later.start := by
  obtain ⟨rest, rfl⟩ := List.head?_eq_some_iff.mp htoken
  cases h with
  | cons _ hlt hrest =>
    refine List.forall_mem_cons.mpr ⟨Int.le_refl _, fun later hlater => ?_⟩
    have := (hrest.between later hlater).1
    omega

/-- `Laid` tokens are laid from where the first of them starts. -/
theorem Laid.from_first {first : Int} {tokens : List Token}
    (h : Laid first (token :: tokens) last) : Laid token.start (token :: tokens) last := by
  cases h with
  | cons _ hlt hrest => exact .cons (Int.le_refl _) hlt hrest

/-- What comes next after a reading came next before it, or it starts no earlier than what did. -/
theorem Cursor.Reads.exists_head (h : start.Reads read stop)
    (hlaid : Laid start.lastStop start.ahead last) :
    ∀ later ∈ stop.ahead.head?, ∃ token ∈ start.ahead.head?, token.start ≤ later.start := by
  intro later hlater
  have hmem : later ∈ start.ahead := by
    rw [h.ahead]
    exact List.mem_append_right _ (List.mem_of_mem_head? hlater)
  obtain ⟨token, rest, hahead⟩ := List.exists_cons_of_ne_nil (List.ne_nil_of_mem hmem)
  have htoken : token ∈ start.ahead.head? := by
    rw [hahead]
    rfl
  exact ⟨token, htoken, hlaid.start_le htoken later hmem⟩

/-- `offender?` finds a token once one is read, and it starts no earlier than that. -/
theorem Cursor.Reads.exists_offender (h : start.Reads (token :: read) stop)
    (hlaid : Laid start.lastStop start.ahead last) :
    ∃ found, stop.offender? = some found ∧ token.start ≤ found.start := by
  suffices hoffender : ∃ found, stop.offender? = some found ∧ found ∈ start.ahead by
    obtain ⟨found, hfound, hmem⟩ := hoffender
    exact ⟨found, hfound, hlaid.start_le h.head?_ahead found hmem⟩
  rw [h.ahead]
  unfold Cursor.offender?
  cases hahead : stop.ahead with
  | cons next rest => exact ⟨next, rfl, List.mem_append_right _ List.mem_cons_self⟩
  | nil =>
    have hbehind : stop.behind = (token :: read).reverse ++ start.behind := h.behind
    obtain ⟨found, hfound⟩ := Grammar.exists_last_of_reads h
    refine ⟨found, hfound, List.mem_append_left _ ?_⟩
    rw [hbehind, List.head?_append_of_ne_nil _ (by simp)] at hfound
    exact List.mem_reverse.mp (List.mem_of_mem_head? hfound)

/-- The error of a failure spans the token that it is reported on. -/
theorem Failure.span_error {failure : Failure} (h : failure.cursor.offender? = some token) :
    failure.error.span = token.span := by
  unfold Failure.error SyntaxError.onToken
  rw [h]
  rfl

/-! ## Errors between two places -/

/-- The errors that reading `tokens` can find, with what they are reported on. -/
inductive SyntaxError.IsPlaced (lineEnd : Int → Int) (tokens : List Token) (last : Int) :
    SyntaxError → Prop where
  /-- A failure is reported on the token where it is found or, at the end, on the last one. -/
  | failure {failure : Failure} {token : Token} : failure.IsDue →
      failure.cursor.tokens = tokens → failure.cursor.offender? = some token →
      IsPlaced lineEnd tokens last failure.error
  /-- A semicolon is missing from where a statement ends up to the end of that line. -/
  | semicolon {after : Clause} {offset : Int} {token : Token} : token ∈ tokens →
      token.start ≤ offset → offset ≤ last →
      IsPlaced lineEnd tokens last (.missingSemicolon after offset (lineEnd offset))

/-- Errors that are found on the way from `start` to `stop`, in the order of the text. -/
structure ErrorsBetween (lineEnd : Int → Int) (last : Int) (start stop : Cursor)
    (errors : List SyntaxError) : Prop where
  ordered : errors.Pairwise fun error later => error.span.start ≤ later.span.start
  /-- No error is found at the end of the tokens, and none lies before the next one. -/
  after : ∀ error ∈ errors, ∃ token ∈ start.ahead.head?, token.start ≤ error.span.start
  /-- No error lies after the start of what comes next afterwards. -/
  before : ∀ error ∈ errors, ∀ token ∈ stop.ahead.head?, error.span.start ≤ token.start
  placed : ∀ error ∈ errors, error.IsPlaced lineEnd start.tokens last

namespace ErrorsBetween

variable {lineEnd : Int → Int} {errors more : List SyntaxError}

/-- `ErrorsBetween` holds of no errors between any places. -/
theorem nil : ErrorsBetween lineEnd last start stop [] := ⟨.nil, by simp, by simp, by simp⟩

/-- `ErrorsBetween` stays true with what is read before and behind. -/
theorem mono {origin final : Cursor} {before after : List Token}
    (h : ErrorsBetween lineEnd last start stop errors) (hbefore : origin.Reads before start)
    (hafter : stop.Reads after final) (horigin : Laid origin.lastStop origin.ahead last)
    (hstop : Laid stop.lastStop stop.ahead last) :
    ErrorsBetween lineEnd last origin final errors where
  ordered := h.ordered
  after error herror := by
    obtain ⟨token, htoken, hle⟩ := h.after error herror
    obtain ⟨first, hfirst, hle'⟩ := hbefore.exists_head horigin token htoken
    exact ⟨first, hfirst, by omega⟩
  before error herror later hlater := by
    obtain ⟨token, htoken, hle⟩ := hafter.exists_head hstop later hlater
    have := h.before error herror token htoken
    omega
  placed := hbefore.tokens_eq ▸ h.placed

/-- `ErrorsBetween` holds of what is found in two readings one after the other. -/
theorem append {rest : List Token} (h : ErrorsBetween lineEnd last start middle errors)
    (hmore : ErrorsBetween lineEnd last middle stop more) (hread : start.Reads read middle)
    (hrest : middle.Reads rest stop) (hlaid : Laid start.lastStop start.ahead last) :
    ErrorsBetween lineEnd last start stop (errors ++ more) := by
  obtain ⟨-, hmiddle⟩ := hread.laid hlaid
  have hfirst := h.mono (.refl start) hrest hlaid hmiddle
  have hsecond := hmore.mono hread (.refl stop) hlaid (hrest.laid hmiddle).2
  refine ⟨List.pairwise_append.mpr ⟨h.ordered, hmore.ordered, fun error herror later hlater => ?_⟩,
    fun error herror => ?_, fun error herror => ?_, fun error herror => ?_⟩
  · obtain ⟨token, htoken, hle⟩ := hmore.after later hlater
    have := h.before error herror token htoken
    omega
  · exact (List.mem_append.mp herror).elim (hfirst.after error) (hsecond.after error)
  · exact (List.mem_append.mp herror).elim (hfirst.before error) (hsecond.before error)
  · exact (List.mem_append.mp herror).elim (hfirst.placed error) (hsecond.placed error)

/-- `ErrorsBetween` stays true with a failure at its end, if that is not reported on an earlier
token. -/
theorem concat {failure : Failure} {more : List Token}
    (h : ErrorsBetween lineEnd last start failure.cursor errors)
    (hdue : failure.IsDue) (hread : start.Reads (token :: read) failure.cursor)
    (hmore : failure.cursor.Reads more stop) (hlaid : Laid start.lastStop start.ahead last)
    (hle : ∀ error ∈ errors, error.span.start ≤ failure.error.span.start) :
    ErrorsBetween lineEnd last start stop (errors ++ [failure.error]) := by
  obtain ⟨found, hfound, hstart⟩ := hread.exists_offender hlaid
  have hspan : failure.error.span.start = found.start := by
    rw [Failure.span_error hfound]
    rfl
  obtain ⟨-, hstop⟩ := hread.laid hlaid
  have herrors := h.mono (.refl start) hmore hlaid hstop
  refine ⟨List.pairwise_append.mpr ⟨h.ordered, List.pairwise_singleton _ _, by simpa using hle⟩,
    ?_, ?_, ?_⟩ <;> simp only [List.mem_append, List.mem_singleton, or_imp, forall_and,
      forall_eq]
  · exact ⟨herrors.after, token, hread.head?_ahead, by omega⟩
  · refine ⟨herrors.before, fun later hlater => ?_⟩
    -- a token ahead of the failure is the one that it is reported on
    obtain ⟨next, hnext, hle⟩ := hmore.exists_head hstop later hlater
    have hoffender : failure.cursor.offender? = some next := by
      unfold Cursor.offender?
      rw [hnext]
      rfl
    obtain rfl := Option.some.inj (hoffender.symm.trans hfound)
    omega
  · exact ⟨herrors.placed, .failure hdue hread.tokens_eq hfound⟩

end ErrorsBetween

namespace Grammar

variable {lineEnd : Int → Int} {events : List Event} {phrase : Phrase}

/-- A statement misses its semicolon where it ends, after its first token and before what comes
next. -/
theorem Ends.errorsBetween {after : Clause} {offset final : Int} {event : Event}
    (h : Ends lineEnd after offset middle final stop event)
    (hread : start.Reads (token :: read) middle) (hlaid : Laid start.lastStop start.ahead last)
    (hfirst : token.start ≤ offset) (hlast : offset ≤ middle.lastStop) :
    ErrorsBetween lineEnd last start stop ([event].filterMap Event.error?) := by
  cases h with
  | semicolon => exact .nil
  | missing =>
    obtain ⟨-, hmiddle⟩ := hread.laid hlaid
    have hle := hmiddle.le
    have hmem : token ∈ start.tokens := by
      rw [← hread.tokens_eq, Cursor.tokens, hread.behind]
      simp
    refine ⟨List.pairwise_singleton _ _, List.forall_mem_singleton.mpr ?_,
      List.forall_mem_singleton.mpr fun next hnext => ?_, List.forall_mem_singleton.mpr ?_⟩
    · exact ⟨token, hread.head?_ahead, hfirst⟩
    · obtain ⟨hbetween, -⟩ := hmiddle.between next (List.mem_of_mem_head? hnext)
      exact Int.le_trans hlast hbetween
    · exact .semicolon hmem hfirst (by omega)

/-- The `Course` of a phrase that fails leads to its failure. -/
theorem Course.stop_eq (h : Course lineEnd start phrase stop events) :
    ∀ failure ∈ phrase.failure?, stop = failure.cursor := by
  induction h with
  | failed | conditionalFailed =>
    rintro failure ⟨⟩
    rfl
  | @conditional _ _ _ _ _ _ _ _ _ _ result _ _ _ _ _ _ _ _ _ ihrest =>
    cases result with
    | ok node => rintro failure ⟨⟩
    | error failure => exact ihrest
  | ifStatement _ _ _ ih | elseIf _ _ _ _ ih | elif _ _ _ ih => exact ih
  | _ => rintro failure ⟨⟩

/-- The `Course` of an alternative fails after its word, so its failure is not reported before
that. -/
theorem Course.alternate_failure {failure : Failure}
    (h : Course lineEnd start (.alternate (.error failure)) stop events)
    (hlaid : Laid start.lastStop start.ahead last) :
    ∃ word ∈ start.ahead.head?, word.start ≤ failure.error.span.start := by
  obtain rfl := h.stop_eq failure rfl
  suffices hword : ∃ word read, start.Reads (word :: read) failure.cursor by
    obtain ⟨word, read, hread⟩ := hword
    obtain ⟨found, hfound, hle⟩ := hread.exists_offender hlaid
    refine ⟨word, hread.head?_ahead, ?_⟩
    rw [Failure.span_error hfound]
    exact hle
  cases h with
  | elseIf _ _ hword hconditional | elif _ hword hconditional =>
    obtain ⟨read, hread, -⟩ := hconditional.reads
    exact ⟨_, _, hword.trans hread⟩

/-- The errors of a `Course` lie between its places, and before its failure if it fails. -/
theorem Course.errorsBetween (h : Course lineEnd start phrase stop events)
    (hlaid : Laid start.lastStop start.ahead last) :
    ErrorsBetween lineEnd last start stop (events.filterMap Event.error?) ∧
      ∀ failure ∈ phrase.failure?, ∀ error ∈ events.filterMap Event.error?,
        error.span.start ≤ failure.error.span.start := by
  induction h with
  | listEnd | noAlternate | atEnd | returns => exact ⟨.nil, by rintro failure ⟨⟩⟩
  | skipped => exact ⟨.nil, by rintro failure ⟨⟩⟩
  | failed | conditionalFailed => exact ⟨.nil, by simp⟩
  | listStep _ hfirst hrest ih ihrest =>
    obtain ⟨read, hread, -⟩ := hfirst.reads
    obtain ⟨more, hmore, -⟩ := hrest.reads
    rw [List.filterMap_append]
    exact ⟨(ih hlaid).1.append (ihrest (hread.laid hlaid).2).1 hread hmore hlaid,
      by rintro failure ⟨⟩⟩
  | closedBody _ hopening hlist _ hclosing ih =>
    obtain ⟨-, hinner⟩ := hopening.laid hlaid
    obtain ⟨read, hread, -⟩ := hlist.reads
    -- how a body ends is no error
    rw [List.filterMap_append, List.filterMap_cons_none rfl, List.filterMap_nil, List.append_nil]
    exact ⟨(ih hinner).1.mono hopening hclosing hlaid (hread.laid hinner).2,
      by rintro failure ⟨⟩⟩
  | unclosedBody _ hopening hlist _ _ ih =>
    obtain ⟨-, hinner⟩ := hopening.laid hlaid
    obtain ⟨read, hread, -⟩ := hlist.reads
    rw [List.filterMap_append, List.filterMap_cons_none rfl, List.filterMap_nil, List.append_nil]
    exact ⟨(ih hinner).1.mono hopening (.refl _) hlaid (hread.laid hinner).2,
      by rintro failure ⟨⟩⟩
  | singleBody _ _ _ ih => exact ⟨(ih hlaid).1, by rintro failure ⟨⟩⟩
  | completed _ ih =>
    rw [List.filterMap_cons_none rfl, List.filterMap_append, List.filterMap_cons_none rfl,
      List.filterMap_nil, List.append_nil]
    exact ⟨(ih hlaid).1, by rintro failure ⟨⟩⟩
  | @abandoned _ failure _ hattempt ih =>
    obtain ⟨token, read, -, hread⟩ := hattempt.exists_first
    obtain ⟨more, hmore⟩ := exists_reads_synchronize failure.cursor
    obtain ⟨herrors, hbefore⟩ := ih hlaid
    rw [List.filterMap_cons_none rfl, List.filterMap_append]
    -- the failure itself is the last error, and no error inside starts after it
    exact ⟨herrors.concat (hattempt.isDue failure rfl) hread hmore hlaid (hbefore failure rfl),
      by rintro failure ⟨⟩⟩
  | @declaration _ _ _ _ keyword _ found _ _ _ hkeyword hbinding hread hends =>
    obtain ⟨hphrase, -⟩ := (hkeyword.cons hread).laid hlaid
    cases hphrase with
    | cons _ hlt htokens =>
      obtain ⟨hlast, -⟩ := hbinding.lie hlt htokens
      have hstart : keyword.start ≤ found.span.stop := hbinding.start_eq ▸ found.span.start_le_stop
      exact ⟨hends.errorsBetween (hkeyword.cons hread) hlaid hstart hlast, by rintro failure ⟨⟩⟩
  | @expression _ _ _ _ _ tree _ _ _ htree hread hends =>
    obtain ⟨hphrase, -⟩ := hread.laid hlaid
    obtain ⟨hfirst, hlast, -⟩ := (htree.lie hphrase.from_first).own
    have hspan := tree.span.start_le_stop
    exact ⟨hends.errorsBetween hread hlaid (by omega) hlast, by rintro failure ⟨⟩⟩
  | @assignment _ _ _ _ _ span _ _ _ _ _ _ htree hread hends =>
    obtain ⟨hphrase, -⟩ := hread.laid hlaid
    obtain ⟨hfirst, hlast, -⟩ := (htree.lie hphrase.from_first).own
    have hspan := span.start_le_stop
    exact ⟨hends.errorsBetween hread hlaid (Int.le_trans hfirst hspan) hlast,
      by rintro failure ⟨⟩⟩
  | ifStatement _ hkeyword hrest ih =>
    obtain ⟨-, hinner⟩ := hkeyword.laid hlaid
    obtain ⟨read, hread, -⟩ := hrest.reads
    obtain ⟨herrors, hbefore⟩ := ih hinner
    exact ⟨herrors.mono hkeyword (.refl _) hlaid (hread.laid hinner).2, hbefore⟩
  | whileStatement _ _ _ _ hhead hbody ih | forStatement _ _ _ _ _ _ _ _ hhead hbody ih
  | function _ _ _ _ _ hhead hbody ih | classDeclaration _ _ hhead _ hbody ih
  | otherwise _ hhead _ hbody ih =>
    obtain ⟨-, hinner⟩ := hhead.laid hlaid
    obtain ⟨read, hread, -⟩ := hbody.reads
    exact ⟨(ih hinner).1.mono hhead (.refl _) hlaid (hread.laid hinner).2,
      by rintro failure ⟨⟩⟩
  | @conditional _ _ _ _ _ _ _ _ _ _ result _ _ _ _ _ hhead hbody hrest ih ihrest =>
    obtain ⟨-, hinner⟩ := hhead.laid hlaid
    obtain ⟨read, hread, -⟩ := hbody.reads
    obtain ⟨-, hlast⟩ := hread.laid hinner
    obtain ⟨more, hmore, -⟩ := hrest.reads
    obtain ⟨herrors, -⟩ := ih hinner
    obtain ⟨hothers, hbefore⟩ := ihrest hlast
    rw [List.filterMap_append]
    refine ⟨(herrors.append hothers hread hmore hinner).mono hhead (.refl _) hlaid
      (hmore.laid hlast).2, ?_⟩
    cases result with
    | ok alternate => rintro failure ⟨⟩
    | error failure =>
      rintro failure ⟨⟩ error herror
      rcases List.mem_append.mp herror with herror | herror
      · -- an error in the body comes before the word of the alternative, in which the failure is
        obtain ⟨word, hword, hle⟩ := hrest.alternate_failure hlast
        have := herrors.before error herror word hword
        omega
      · exact hbefore failure rfl error herror
  | elseIf _ _ hhead hrest ih | elif _ hhead hrest ih =>
    obtain ⟨-, hinner⟩ := hhead.laid hlaid
    obtain ⟨read, hread, -⟩ := hrest.reads
    obtain ⟨herrors, hbefore⟩ := ih hinner
    exact ⟨herrors.mono hhead (.refl _) hlaid (hread.laid hinner).2, hbefore⟩

end Grammar

open Lexicon Grammar

/-! ## Documents -/

/-- From an offset in a text its line goes on up to a line break or to the end of the text. -/
theorem Text.exists_lineEnd {text : List Char} {offset : Int} (hpos : 0 ≤ offset)
    (hle : offset ≤ text.length) :
    ∃ before line after, text = before ++ (line ++ after) ∧ offset = before.length ∧
      lineEnd text offset = before.length + line.length ∧
      (∀ c ∈ line, isLineBreak c = false) ∧ ∀ c ∈ after.head?, isLineBreak c = true := by
  refine ⟨text.take offset.toNat, (text.drop offset.toNat).takeWhile fun c => !isLineBreak c,
    (text.drop offset.toNat).dropWhile fun c => !isLineBreak c, ?_, ?_, ?_, fun c hc => ?_,
    fun c hc => ?_⟩
  · rw [List.takeWhile_append_dropWhile, List.take_append_drop]
  · rw [List.length_take]
    omega
  · rw [lineEnd_of_le hpos hle, List.length_take]
    omega
  · simpa using List.mem_takeWhile_imp hc
  · have hfirst := List.head?_dropWhile_not (fun c => !isLineBreak c) (text.drop offset.toNat)
    rw [Option.mem_def.mp hc] at hfirst
    simpa using hfirst

/-- The syntax errors of a document are listed in the order of the text, and each of them spans
exactly what its `code` is about. -/
structure ErrorsInOrder (text : List Char) (tokens : List Token) (reading : Reading) : Prop where
  /-- The tree holds the syntax errors. -/
  listed : reading.program = .program (.between 0 text.length) reading.statements reading.errors
  ordered : reading.errors.Pairwise fun error later => error.span.start ≤ later.span.start
  codes : ∀ error ∈ reading.errors, error.fault.code ∈ ["P001", "P002", "P003", "P010"]
  /-- An error at an index spans the token there or, with a code of its own and only at the end of
  the tokens, the last one. -/
  tokens : ∀ error ∈ reading.errors, error.fault.code ∈ ["P001", "P002", "P010"] →
    ∃ index : Nat, ∃ token, error.index = some (index : Int) ∧ error.token = some token ∧
      error.span.start = token.start ∧ error.span.stop = token.stop ∧
      (error.fault.code = "P010" ↔ index = tokens.length) ∧
      (tokens[index]? = some token ∨ index = tokens.length ∧ tokens.getLast? = some token)
  /-- A semicolon is missing up to the end of a line. -/
  lines : ∀ error ∈ reading.errors, error.fault.code = "P003" →
    0 ≤ error.span.start ∧ error.span.start ≤ error.span.stop ∧ error.span.stop ≤ text.length ∧
      (∀ c ∈ (text.take error.span.stop.toNat).drop error.span.start.toNat,
        c ≠ '\n' ∧ c ≠ '\r') ∧
      (error.span.stop = text.length ∨
        ∃ c ∈ text[error.span.stop.toNat]?, c = '\n' ∨ c = '\r')

/-- A failure that is due has the code of the end of the tokens there, and another one elsewhere. -/
theorem Failure.IsDue.code {failure : Failure} (h : failure.IsDue) :
    (failure.fault.code = "P010" ∧ failure.cursor.ahead = []) ∨
      ((failure.fault.code = "P001" ∨ failure.fault.code = "P002") ∧
        failure.cursor.ahead ≠ []) := by
  rcases h with h | ⟨wanted, h⟩
  · rw [congrArg Failure.fault h]
    cases hahead : failure.cursor.ahead <;>
      simp [Cursor.unexpected, Cursor.next?, hahead, Fault.code]
  · rw [congrArg Failure.fault h]
    cases hahead : failure.cursor.ahead <;>
      simp [Cursor.missing, Cursor.atEnd, hahead, Fault.code]

/-- A failure that is due is no missing semicolon. -/
theorem Failure.IsDue.code_ne {failure : Failure} (h : failure.IsDue) :
    failure.error.fault.code ≠ "P003" := by
  show failure.fault.code ≠ "P003"
  rcases h.code with ⟨hcode, -⟩ | ⟨hcode | hcode, -⟩ <;> rw [hcode] <;> decide

/-- `offender?` is the token at the index or, at the end, the last of all. -/
theorem Cursor.offender_cases {cursor : Cursor} (h : cursor.offender? = some token) :
    (cursor.ahead ≠ [] ∧ cursor.index < cursor.tokens.length ∧
        cursor.tokens[cursor.index]? = some token) ∨
      (cursor.ahead = [] ∧ cursor.index = cursor.tokens.length ∧
        cursor.tokens.getLast? = some token) := by
  obtain ⟨behind, ahead⟩ := cursor
  unfold offender? at h
  cases ahead with
  | nil =>
    right
    simpa [index, tokens, List.getLast?_reverse] using h
  | cons next ahead =>
    left
    simpa [index, tokens, List.getElem?_append_right] using h

namespace SyntaxError.IsPlaced

variable {text : List Char} {tokens : List Token} {error : SyntaxError}

/-- Errors have one of four codes. -/
theorem code (h : error.IsPlaced (Text.lineEnd text) tokens last) :
    error.fault.code ∈ ["P001", "P002", "P003", "P010"] := by
  cases h with
  | semicolon => simp [missingSemicolon, Fault.code]
  | failure hdue =>
    show Fault.code _ ∈ _
    rcases hdue.code with ⟨hcode, -⟩ | ⟨hcode | hcode, -⟩ <;> simp [Failure.error, onToken, hcode]

/-- An error with another code than that of a missing semicolon spans the token that is found at
its index, or the last one. -/
theorem exists_token (h : error.IsPlaced (Text.lineEnd text) tokens last)
    (hlaid : Laid 0 tokens last) (hcode : error.fault.code ∈ ["P001", "P002", "P010"]) :
    ∃ index : Nat, ∃ token, error.index = some (index : Int) ∧ error.token = some token ∧
      error.span.start = token.start ∧ error.span.stop = token.stop ∧
      (error.fault.code = "P010" ↔ index = tokens.length) ∧
      (tokens[index]? = some token ∨ index = tokens.length ∧ tokens.getLast? = some token) := by
  cases h with
  | semicolon => simp [missingSemicolon, Fault.code] at hcode
  | @failure failure token hdue htokens hoffender =>
    subst htokens
    have hcases := Cursor.offender_cases hoffender
    have hmem : token ∈ failure.cursor.tokens := by
      rcases hcases with ⟨-, -, htoken⟩ | ⟨-, -, htoken⟩
      · exact List.mem_of_getElem? htoken
      · exact List.mem_of_getLast? htoken
    obtain ⟨-, hlt, -⟩ := hlaid.between token hmem
    refine ⟨failure.cursor.index, token, rfl, hoffender, ?_, ?_, ?_, ?_⟩
    · rw [Failure.span_error hoffender]
      rfl
    · rw [Failure.span_error hoffender]
      exact Span.between_stop_of_le (Int.le_of_lt hlt)
    · show failure.fault.code = "P010" ↔ _
      -- an end that comes too early is the one fault with the index of no token
      rcases hdue.code with ⟨hcode, hahead⟩ | ⟨hcode, hahead⟩
      · rcases hcases with ⟨hne, -⟩ | ⟨-, hindex, -⟩
        · exact absurd hahead hne
        · exact ⟨fun _ => hindex, fun _ => hcode⟩
      · rcases hcases with ⟨-, hindex, -⟩ | ⟨hnil, -⟩
        · refine ⟨fun hother => ?_, fun heq => absurd heq (Nat.ne_of_lt hindex)⟩
          rcases hcode with hcode | hcode <;> simp [hother] at hcode
        · exact absurd hnil hahead
    · rcases hcases with ⟨-, -, htoken⟩ | ⟨-, hindex, htoken⟩
      · exact .inl htoken
      · exact .inr ⟨hindex, htoken⟩

/-- A missing semicolon is one of a line of the text. -/
theorem line (h : error.IsPlaced (Text.lineEnd text) tokens text.length)
    (hlaid : Laid 0 tokens text.length) (hcode : error.fault.code = "P003") :
    0 ≤ error.span.start ∧ error.span.start ≤ error.span.stop ∧ error.span.stop ≤ text.length ∧
      (∀ c ∈ (text.take error.span.stop.toNat).drop error.span.start.toNat,
        c ≠ '\n' ∧ c ≠ '\r') ∧
      (error.span.stop = text.length ∨
        ∃ c ∈ text[error.span.stop.toNat]?, c = '\n' ∨ c = '\r') := by
  cases h with
  | failure hdue => exact absurd hcode hdue.code_ne
  | @semicolon after offset token htoken hfirst hlast =>
    obtain ⟨hpos, -, -⟩ := hlaid.between token htoken
    -- the text is what comes before the error, the rest of its line, and what begins with the
    -- line's end
    obtain ⟨before, line, rest, rfl, rfl, hend, hline, hrest⟩ :=
      Text.exists_lineEnd (Int.le_trans hpos hfirst) hlast
    have hstop : (missingSemicolon after before.length
        (Text.lineEnd (before ++ (line ++ rest)) before.length)).span.stop =
          ((before.length + line.length : Nat) : Int) := by
      rw [hend]
      exact Span.between_stop_of_le (by omega)
    have htake : (before ++ (line ++ rest)).take (before.length + line.length) =
        before ++ line := by
      rw [← List.append_assoc, ← List.length_append, List.take_left]
    rw [hstop, Int.toNat_natCast, htake]
    refine ⟨Int.natCast_nonneg _, ?_, ?_, fun c hc => ?_, ?_⟩
    · show (before.length : Int) ≤ _
      omega
    · simp only [List.length_append]
      omega
    · replace hc : c ∈ (before ++ line).drop before.length := hc
      rw [List.drop_left] at hc
      simpa [Text.isLineBreak] using hline c hc
    · cases rest with
      | nil =>
        left
        simp
      | cons c rest =>
        right
        refine ⟨c, by simp, ?_⟩
        simpa [Text.isLineBreak] using hrest c rfl

end SyntaxError.IsPlaced

/-- The syntax errors of a document are in order, and they are exact (`ErrorsInOrder`). -/
theorem readDocument_errorsInOrder {text : List Char} {tokens : List Token}
    (h : tokenize text = .ok tokens) :
    ∃ reading, readDocument text = .ok reading ∧ ErrorsInOrder text tokens reading := by
  obtain ⟨reading, hreading, hprogram, hevents⟩ := exists_reading h
  have hlaid := laid_of_tokenize h
  have hevents' := (reading_eq h hreading).2
  obtain ⟨-, hcourse⟩ := statementsOf_course text tokens
  obtain ⟨⟨hordered, -, -, hplaced⟩, -⟩ := hcourse.errorsBetween hlaid
  rw [← hevents'] at hordered hplaced
  refine ⟨reading, hreading, ?_, hordered, fun error herror => (hplaced error herror).code,
    fun error herror => (hplaced error herror).exists_token hlaid,
    fun error herror => (hplaced error herror).line hlaid⟩
  unfold Reading.statements Reading.errors
  rw [hprogram, hevents, ← programStop_of_laid hlaid]
  rfl

/-- A semicolon is missing inside a conditional whose alternative then fails at the end of the
tokens: the failure is recorded later, and it is reported on the last token. -/
theorem readDocument_errorsInOrder_nested :
    let text := "if (a) \x7b x = 1 // one\n\x7d elif".toList
    let tokens : List Token := [⟨.keyword, "if", 0, 2⟩, ⟨.symbol, "(", 3, 4⟩,
      ⟨.identifier, "a", 4, 5⟩, ⟨.symbol, ")", 5, 6⟩, ⟨.symbol, "\x7b", 7, 8⟩,
      ⟨.identifier, "x", 9, 10⟩, ⟨.symbol, "=", 11, 12⟩, ⟨.number, "1", 13, 14⟩,
      ⟨.symbol, "\x7d", 22, 23⟩, ⟨.keyword, "elif", 24, 28⟩]
    tokenize text = .ok tokens ∧ ∃ reading, readDocument text = .ok reading ∧
      ErrorsInOrder text tokens reading ∧
      reading.errors.map (fun error => (error.fault.code, error.span.start, error.span.stop)) =
        [("P003", 14, 21), ("P010", 24, 28)] := by
  intro text tokens
  have htokens : tokenize text = .ok tokens := by decide +kernel
  obtain ⟨reading, hreading, herrors⟩ := readDocument_errorsInOrder htokens
  refine ⟨htokens, reading, hreading, herrors, ?_⟩
  unfold Reading.errors
  rw [(reading_eq htokens hreading).2]
  decide +kernel

end NeutronLang
