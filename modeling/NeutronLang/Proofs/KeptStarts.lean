import NeutronLang.Proofs.Progress

/-!
# No start of a statement is lost

Where a statement can start, with a name or with a word that is reserved for that, reading either
begins an attempt or has an attempt that began before read the token as one of its own
(`KeepsStarts`). Neither recovery after a failure nor the skip of what starts no statement comes
past such a token; so what a document is checked for is all that is written in it.

The invariant is about stretches of tokens (`KeepsBetween`): each of their starts is met by what is
recorded between them or, inside an attempt, lies outside all statements recorded there. When the
attempt ends, what lies outside is its own.
-/

namespace NeutronLang

open Lexicon

/-! ## Stretches of tokens -/

/-- The tokens that a statement takes where one is looked for, with those given up after it. -/
def Event.taken? : Event → Option (Nat × Nat)
  | completed start stop | skipped _ start stop | abandoned _ start _ stop => some (start, stop)
  | _ => none

/-- The tokens that an attempt has read when it ends, be it with a statement or with a failure. -/
def Event.attempted? : Event → Option (Nat × Nat)
  | completed start stop | abandoned _ start stop _ => some (start, stop)
  | _ => none

/-- The tokens that are passed over: what starts no statement, and what recovery gives up. -/
def Event.passed? : Event → Option (Nat × Nat)
  | skipped _ start stop | abandoned _ _ start stop => some (start, stop)
  | _ => none

/-- A statement can start with the token at `place` (`Token.startsStatement`). -/
def StartsAt (tokens : List Token) (place : Nat) : Prop :=
  ∃ token, tokens[place]? = some token ∧ token.startsStatement = true

/-- No statement can start with any token from the place `first` up to the one before `last`. -/
def NoStarts (tokens : List Token) (first last : Nat) : Prop :=
  ∀ place, first ≤ place → place < last → ¬ StartsAt tokens place

/-- The attempt that began at `start` has read the token at a place as one of its own: it has come
past the place before it ended, and no statement inside it takes the place. -/
def IsOwn (record : List Event) (start place : Nat) : Prop :=
  ∃ event ∈ record, ∃ stop, event.attempted? = some (start, stop) ∧ start < place ∧ place < stop ∧
    ∀ other ∈ record, ∀ inner last, other.taken? = some (inner, last) →
      start < inner → inner ≤ place → last ≤ place

/-- Reading meets the token at `place`: an attempt begins there, or one that began before has read
it as one of its own. -/
def Met (record : List Event) (place : Nat) : Prop :=
  (∃ event ∈ record, ∃ stop, event.attempted? = some (place, stop)) ∨
    ∃ start, IsOwn record start place

/-- What becomes of the tokens with which statements can start (`StartsAt`): none is passed over,
and all are met. -/
structure KeepsStarts (tokens : List Token) (record : List Event) : Prop where
  /-- No start is passed over. -/
  passes : ∀ event ∈ record, ∀ first last, event.passed? = some (first, last) →
    NoStarts tokens first last
  /-- All starts are met. -/
  meets : ∀ place, StartsAt tokens place → Met record place
  /-- Of each attempt that begins it is on the record which tokens it takes. -/
  takes : ∀ start, .began start ∈ record → ∃ event ∈ record, ∃ stop,
    event.taken? = some (start, stop)

/-- No statement on a `record` takes the token at `place` (`Event.taken?`). -/
def Outside (record : List Event) (place : Nat) : Prop :=
  ∀ event ∈ record, ∀ first last, event.taken? = some (first, last) → first ≤ place → last ≤ place

/-- What `KeepsStarts` says, between two places where the tokens that no statement takes may be an
attempt's own. -/
structure KeepsBetween (tokens : List Token) (own : Prop) (first last : Nat) (record : List Event) :
    Prop where
  passes : ∀ event ∈ record, ∀ start stop, event.passed? = some (start, stop) →
    NoStarts tokens start stop
  meets : ∀ place, StartsAt tokens place → first ≤ place → place < last →
    Met record place ∨ own ∧ Outside record place
  takes : ∀ start, .began start ∈ record → ∃ event ∈ record, ∃ stop,
    event.taken? = some (start, stop)

/-! ## Larger records -/

section

variable {tokens : List Token} {own : Prop} {first middle last place : Nat}
  {events more record : List Event}

/-- `NoStarts` holds between a place and itself. -/
theorem NoStarts.refl (place : Nat) : NoStarts tokens place place :=
  fun _ hfirst hlast => absurd hlast (Nat.not_lt.mpr hfirst)

/-- `NoStarts` holds of two stretches if it does of each. -/
theorem NoStarts.trans (h : NoStarts tokens first middle) (hmore : NoStarts tokens middle last) :
    NoStarts tokens first last := by
  intro place hfirst hlast
  rcases Nat.lt_or_ge place middle with hplace | hplace
  · exact h place hfirst hplace
  · exact hmore place hplace hlast

/-- What a statement takes lies where its event does. -/
theorem Event.LiesBetween.taken {event : Event} (h : event.LiesBetween first last)
    {start stop : Nat}
    (htaken : event.taken? = some (start, stop)) : first ≤ start ∧ stop ≤ last := by
  cases event <;> cases htaken <;> simp only [LiesBetween] at h <;> omega

/-- What an attempt has read begins where its event does. -/
theorem Event.LiesBetween.attempted {event : Event} (h : event.LiesBetween first last)
    {start stop : Nat} (hattempted : event.attempted? = some (start, stop)) : first ≤ start := by
  cases event <;> cases hattempted <;> exact h.1

/-- `Met` stays true on a larger record, if what else stands there takes other tokens or begins no
later. -/
theorem Met.mono (h : Met events place) (hrecorded : Recorded first last events)
    (hsubset : ∀ event ∈ events, event ∈ record)
    (hnew : ∀ event ∈ record, event ∈ events ∨ ∀ start stop, event.taken? = some (start, stop) →
      start ≤ first ∨ place < start ∨ stop ≤ place) : Met record place := by
  rcases h with ⟨event, hevent, hattempted⟩ |
    ⟨start, event, hevent, stop, hattempted, hstart, hstop, hinner⟩
  · exact .inl ⟨event, hsubset event hevent, hattempted⟩
  · refine .inr ⟨start, event, hsubset event hevent, stop, hattempted, hstart, hstop, ?_⟩
    intro other hother inner final htaken hlt hle
    rcases hnew other hother with hold | hapart
    · exact hinner other hold inner final htaken hlt hle
    · have hfirst := (hrecorded.between event hevent).attempted hattempted
      have := hapart inner final htaken
      omega

/-- `Outside` stays true on a larger record, if what else stands there takes other tokens. -/
theorem Outside.mono (h : Outside events place)
    (hnew : ∀ event ∈ record, event ∈ events ∨ ∀ start stop, event.taken? = some (start, stop) →
      place < start ∨ stop ≤ place) : Outside record place := by
  intro event hevent start stop htaken hle
  rcases hnew event hevent with hold | hapart
  · exact h event hold start stop htaken hle
  · exact (hapart start stop htaken).resolve_left (Nat.not_lt.mpr hle)

/-- A token that is `Met` or `Outside` is so on a larger record, if what else stands there takes
other tokens. -/
theorem met_or_outside_mono (h : Met events place ∨ own ∧ Outside events place)
    (hrecorded : Recorded first last events) (hsubset : ∀ event ∈ events, event ∈ record)
    (hnew : ∀ event ∈ record, event ∈ events ∨ ∀ start stop, event.taken? = some (start, stop) →
      place < start ∨ stop ≤ place) : Met record place ∨ own ∧ Outside record place := by
  refine h.imp (fun hmet => hmet.mono hrecorded hsubset fun event hevent => ?_)
    fun ⟨hown, houtside⟩ => ⟨hown, houtside.mono hnew⟩
  exact (hnew event hevent).imp_right fun hapart start stop htaken =>
    .inr (hapart start stop htaken)

namespace KeepsBetween

/-- `KeepsBetween` holds where no statement can start. -/
theorem of_noStarts (h : NoStarts tokens first last) : KeepsBetween tokens own first last [] where
  passes := by simp
  meets place hstarts hfirst hlast := absurd hstarts (h place hfirst hlast)
  takes := by simp

/-- `KeepsBetween` holds between a place and itself. -/
theorem refl (place : Nat) : KeepsBetween tokens own place place [] := of_noStarts (.refl place)

/-- `KeepsBetween` holds where all tokens may be an attempt's own, and no statement is read. -/
theorem of_own : KeepsBetween tokens True first last [] where
  passes := by simp
  meets place _ _ _ := .inr ⟨trivial, by simp [Outside]⟩
  takes := by simp

/-- `KeepsBetween` holds with tokens of one's own if it does without. -/
theorem toOwn (h : KeepsBetween tokens own first last events) :
    KeepsBetween tokens True first last events where
  passes := h.passes
  meets place hstarts hfirst hlast :=
    (h.meets place hstarts hfirst hlast).imp_right fun ⟨_, houtside⟩ => ⟨trivial, houtside⟩
  takes := h.takes

/-- `KeepsBetween` holds of two parts that are read one after the other. -/
theorem append (h : KeepsBetween tokens own first middle events)
    (hmore : KeepsBetween tokens own middle last more) (hrecorded : Recorded first middle events)
    (hmoreRecorded : Recorded middle last more) :
    KeepsBetween tokens own first last (events ++ more) where
  passes event hevent := by
    rcases List.mem_append.mp hevent with hevent | hevent
    · exact h.passes event hevent
    · exact hmore.passes event hevent
  meets place hstarts hfirst hlast := by
    by_cases hplace : place < middle
    · -- what is recorded afterwards takes later tokens
      refine met_or_outside_mono (h.meets place hstarts hfirst hplace) hrecorded
        (fun event => List.mem_append_left more) fun event hevent => ?_
      refine (List.mem_append.mp hevent).imp_right fun hevent start stop htaken => .inl ?_
      exact Nat.lt_of_lt_of_le hplace ((hmoreRecorded.between event hevent).taken htaken).1
    · -- what was recorded before has taken earlier ones
      have hplace : middle ≤ place := Nat.le_of_not_lt hplace
      refine met_or_outside_mono (hmore.meets place hstarts hplace hlast) hmoreRecorded
        (fun event => List.mem_append_right events) fun event hevent => ?_
      refine (List.mem_append.mp hevent).symm.imp_right fun hevent start stop htaken => .inr ?_
      exact Nat.le_trans ((hrecorded.between event hevent).taken htaken).2 hplace
  takes start hbegan := by
    rcases List.mem_append.mp hbegan with hbegan | hbegan
    · obtain ⟨event, hevent, htaken⟩ := h.takes start hbegan
      exact ⟨event, List.mem_append_left more hevent, htaken⟩
    · obtain ⟨event, hevent, htaken⟩ := hmore.takes start hbegan
      exact ⟨event, List.mem_append_right events hevent, htaken⟩

/-- `KeepsBetween` holds with tokens before the others with which no statement can start. -/
theorem after_noStarts (h : KeepsBetween tokens own middle last events)
    (hrecorded : Recorded middle last events) (hnone : NoStarts tokens first middle) :
    KeepsBetween tokens own first last events :=
  (of_noStarts hnone).append h .nil hrecorded

/-- `KeepsBetween` holds with an attempt's own tokens before the others. -/
theorem led (h : KeepsBetween tokens own middle last events)
    (hrecorded : Recorded middle last events) : KeepsBetween tokens True first last events :=
  of_own.append h.toOwn .nil hrecorded

/-- `KeepsBetween` holds with one more event that is not about a statement as a whole. -/
theorem concat {event : Event} (h : KeepsBetween tokens own first last events)
    (hrecorded : Recorded first last events) (htaken : event.taken? = none)
    (hpassed : event.passed? = none) (hbegan : event.began? = none) :
    KeepsBetween tokens own first last (events ++ [event]) where
  passes other hother start stop hother' := by
    rcases List.mem_append.mp hother with hother | hother
    · exact h.passes other hother start stop hother'
    · rw [List.mem_singleton.mp hother, hpassed] at hother'
      cases hother'
  meets place hstarts hfirst hlast := by
    refine met_or_outside_mono (h.meets place hstarts hfirst hlast) hrecorded
      (fun other => List.mem_append_left [event]) fun other hother => ?_
    refine (List.mem_append.mp hother).imp_right fun hother start stop hsome => ?_
    rw [List.mem_singleton.mp hother, htaken] at hsome
    cases hsome
  takes start hstart := by
    rcases List.mem_append.mp hstart with hstart | hstart
    · obtain ⟨other, hother, hsome⟩ := h.takes start hstart
      exact ⟨other, List.mem_append_left _ hother, hsome⟩
    · rw [← List.mem_singleton.mp hstart] at hbegan
      cases hbegan

/-- An attempt meets the token that it begins with. When it ends, what lies outside the statements
inside it is its own, and what is passed over afterwards holds no start. -/
theorem attempt {event : Event} {start stop resume : Nat}
    (h : KeepsBetween tokens True (start + 1) stop events)
    (hrecorded : Recorded (start + 1) stop events) (hpassed : NoStarts tokens stop resume)
    (htaken : event.taken? = some (start, resume))
    (hattempted : event.attempted? = some (start, stop))
    (hpasses : ∀ stretch ∈ event.passed?, stretch = (stop, resume)) :
    KeepsBetween tokens own start resume (.began start :: (events ++ [event])) where
  passes other hother first last hstretch := by
    rcases List.mem_cons.mp hother with rfl | hother
    · cases hstretch
    · rcases List.mem_append.mp hother with hother | hother
      · exact h.passes other hother first last hstretch
      · rw [List.mem_singleton.mp hother] at hstretch
        cases hpasses _ hstretch
        exact hpassed
  meets place hstarts hfirst hlast := by
    -- what is new on the record begins where the attempt does, before all that is inside it
    have hnew : ∀ other ∈ .began start :: (events ++ [event]), other ∈ events ∨
        ∀ first last, other.taken? = some (first, last) → first = start := by
      intro other hother
      rcases List.mem_cons.mp hother with rfl | hother
      · exact .inr fun first last hsome => by cases hsome
      · refine (List.mem_append.mp hother).imp_right fun hother first last hsome => ?_
        rw [List.mem_singleton.mp hother, htaken] at hsome
        cases hsome
        rfl
    left
    by_cases hbegins : place = start
    · exact .inl ⟨event, by simp, stop, hbegins ▸ hattempted⟩
    by_cases hread : place < stop
    · rcases h.meets place hstarts (by omega) hread with hmet | ⟨-, houtside⟩
      · refine hmet.mono hrecorded (fun other hother => by simp [hother]) fun other hother => ?_
        refine (hnew other hother).imp_right fun hstart first last hsome => .inl ?_
        have := hstart first last hsome
        omega
      · -- no statement inside takes the token, so it is the attempt's own
        refine .inr ⟨start, event, by simp, stop, hattempted, by omega, hread, ?_⟩
        intro other hother inner final hsome hlt hle
        rcases hnew other hother with hold | hstart
        · exact houtside other hold inner final hsome hle
        · have := hstart inner final hsome
          omega
    · exact absurd hstarts (hpassed place (Nat.le_of_not_lt hread) hlast)
  takes other hother := by
    rcases List.mem_cons.mp hother with heq | hother
    · cases heq
      exact ⟨event, by simp, resume, htaken⟩
    · rcases List.mem_append.mp hother with hother | hother
      · obtain ⟨found, hfound, hsome⟩ := h.takes other hother
        exact ⟨found, by simp [hfound], hsome⟩
      · rw [← List.mem_singleton.mp hother] at htaken
        cases htaken

/-- `KeepsBetween` holds where tokens are skipped by themselves, if no statement can start there. -/
theorem skipped {token : Token} {start stop : Nat} (hpassed : NoStarts tokens start stop) :
    KeepsBetween tokens own start stop [.began start, .skipped token start stop] where
  passes event hevent first last hstretch := by
    simp only [List.mem_cons, List.not_mem_nil, or_false] at hevent
    rcases hevent with rfl | rfl
    · cases hstretch
    · cases hstretch
      exact hpassed
  meets place hstarts hfirst hlast := absurd hstarts (hpassed place hfirst hlast)
  takes other hother := by
    simp only [List.mem_cons, List.not_mem_nil, or_false, Event.began.injEq, reduceCtorEq] at hother
    exact ⟨.skipped token start stop, by simp, stop, by rw [hother]; rfl⟩

end KeepsBetween

end

/-! ## Tokens that start nothing -/

/-- `startsStatement` is false for a token with a text of which `opensStatement` is. -/
theorem startsStatement_of_opensStatement {token : Token} (hspelled : Spelled token)
    (h : opensStatement token.lexeme = false) : token.startsStatement = false := by
  rw [Bool.eq_false_iff]
  intro hstarts
  rw [opensStatement_of_startsStatement hspelled hstarts] at h
  cases h

/-- `NoStarts` holds between two places if no token that is read between them starts a statement. -/
theorem Cursor.Reads.noStarts {tokens read : List Token} {start stop : Cursor}
    (h : start.Reads read stop) (htokens : start.tokens = tokens)
    (hnone : ∀ token ∈ read, token.startsStatement = false) :
    NoStarts tokens start.index stop.index := by
  rintro place hfirst hlast ⟨token, htoken, hstarts⟩
  rw [h.index_eq] at hlast
  -- the token at the place is one of those that are read
  have hbehind : start.behind.reverse.length = start.index := List.length_reverse
  rw [← htokens, Cursor.tokens, List.getElem?_append_right (by omega), h.ahead,
    List.getElem?_append_left (by omega)] at htoken
  rw [hnone token (List.mem_of_getElem? htoken)] at hstarts
  cases hstarts

/-- `NoStarts` holds of a token that is read if `opensStatement` is false for its text. -/
theorem Cursor.Reads.noStarts_of_lexeme {tokens : List Token} {token : Token} {start stop : Cursor}
    (h : start.Reads [token] stop) (htokens : start.tokens = tokens)
    (hspelled : ∀ token ∈ tokens, Spelled token) (hopens : opensStatement token.lexeme = false) :
    NoStarts tokens start.index stop.index := by
  have htoken := (h.keeps htokens hspelled).2 token List.mem_cons_self
  exact h.noStarts htokens (by simpa using startsStatement_of_opensStatement htoken hopens)

/-- `synchronize` comes past no start. -/
theorem Cursor.noStarts_synchronize {tokens : List Token} {cursor : Cursor}
    (htokens : cursor.tokens = tokens) (hspelled : ∀ token ∈ tokens, Spelled token) :
    NoStarts tokens cursor.index cursor.synchronize.index := by
  obtain ⟨skipped, stopped, hread, hskipped, hstopped⟩ :=
    boundaryFrom_cases cursor.behind cursor.ahead
  have hread : cursor.Reads (skipped ++ stopped.toList) cursor.synchronize := hread
  refine hread.noStarts htokens (List.forall_mem_append.mpr ⟨hskipped, fun token htoken => ?_⟩)
  have hlexeme := hstopped token (Option.mem_toList.mp htoken)
  have htoken := (hread.keeps htokens hspelled).2 token (List.mem_append_right _ htoken)
  exact startsStatement_of_opensStatement htoken (by rw [hlexeme]; decide)

/-! ## Courses -/

namespace Grammar

variable {lineEnd : Int → Int} {start stop : Cursor} {phrase : Phrase} {events : List Event}
  {tokens : List Token}

/-- Whether a phrase is part of an attempt, which can have tokens of its own. -/
def Phrase.owns : Phrase → Prop
  | .statement _ | .list .. | .body _ => False
  | .attempt _ | .conditional .. | .alternate _ => True

/-- The end of a statement is its own. -/
theorem Ends.keepsBetween {after : Clause} {offset final : Int} {event : Event} {first last : Nat}
    (h : Ends lineEnd after offset start final stop event) :
    KeepsBetween tokens True first last [event] := by
  cases h with
  | semicolon | missing => exact KeepsBetween.of_own.concat .nil rfl rfl rfl

/-- A `Course` keeps the starts between its places. -/
theorem Course.keepsBetween (h : Course lineEnd start phrase stop events)
    (htokens : start.tokens = tokens) (hspelled : ∀ token ∈ tokens, Spelled token) :
    KeepsBetween tokens phrase.owns (phrase.recordsFrom start) stop.index events := by
  -- a phrase that owns nothing meets all its starts; the parts of an attempt may leave some to it
  induction h with
  | listEnd | atEnd | noAlternate => exact .refl _
  | listStep _ hfirst hrest ih ihrest =>
    obtain ⟨read, hread, -⟩ := hfirst.reads
    exact (ih htokens).append (ihrest (hread.keeps htokens hspelled).1) hfirst.recorded
      hrest.recorded
  | closedBody hopening hread hlist hclosing hlast ih =>
    obtain ⟨hinner, hsymbol⟩ := hread.keeps htokens hspelled
    obtain ⟨between, hbetween, -⟩ := hlist.reads
    obtain ⟨hlastTokens, -⟩ := hbetween.keeps hinner hspelled
    -- no statement starts with a brace, so a body keeps what the list inside it does
    have hopen := hread.noStarts_of_lexeme htokens hspelled (by rw [hopening]; decide)
    have hclose := hlast.noStarts_of_lexeme hlastTokens hspelled (by rw [hclosing]; decide)
    have hbody := (ih hinner).after_noStarts hlist.recorded hopen
    have hrecorded := hlist.recorded.mono (Nat.le_of_lt (index_lt_of_reads hread)) (Nat.le_refl _)
    have hwhole := hbody.append (.of_noStarts hclose) hrecorded .nil
    rw [List.append_nil] at hwhole
    exact hwhole.concat (hrecorded.mono (Nat.le_refl _) (Nat.le_of_lt (index_lt_of_reads hlast)))
      rfl rfl rfl
  | unclosedBody hopening hread hlist _ _ ih =>
    have hopen := hread.noStarts_of_lexeme htokens hspelled (by rw [hopening]; decide)
    exact ((ih (hread.keeps htokens hspelled).1).after_noStarts hlist.recorded hopen).concat
      (hlist.recorded.mono (Nat.le_of_lt (index_lt_of_reads hread)) (Nat.le_refl _)) rfl rfl rfl
  | singleBody _ _ _ ih => exact ih htokens
  | skipped htoken hread =>
    -- the token starts nothing, and neither does what the search for a boundary comes past
    have hsynchronize := Cursor.noStarts_synchronize (hread.keeps htokens hspelled).1 hspelled
    exact .skipped ((hread.noStarts htokens (by simpa using htoken)).trans hsynchronize)
  | completed hattempt ih =>
    exact (ih htokens).attempt hattempt.recorded (.refl _) rfl rfl (by rintro _ ⟨⟩)
  | abandoned hattempt ih =>
    obtain ⟨read, hread, -⟩ := hattempt.reads
    have hsynchronize := Cursor.noStarts_synchronize (hread.keeps htokens hspelled).1 hspelled
    exact (ih htokens).attempt hattempt.recorded hsynchronize rfl rfl (by rintro _ ⟨⟩; rfl)
  | declaration _ _ _ _ hends | expression _ _ _ hends | assignment _ _ _ hends =>
    exact hends.keepsBetween
  | whileStatement _ _ _ _ hhead hbody ih | forStatement _ _ _ _ _ _ _ _ hhead hbody ih
  | function _ _ _ _ _ hhead hbody ih | classDeclaration _ _ hhead _ hbody ih
  | otherwise _ hhead _ hbody ih | ifStatement _ hhead hbody ih | elseIf _ _ hhead hbody ih
  | elif _ hhead hbody ih =>
    -- the words and signs before a body, and the expressions among them, are the attempt's own
    exact (ih (hhead.keeps htokens hspelled).1).led hbody.recorded
  | returns | failed | conditionalFailed => exact .of_own
  | conditional _ _ _ hhead hbody hrest ih ihrest =>
    obtain ⟨hinner, -⟩ := hhead.keeps htokens hspelled
    obtain ⟨read, hread, -⟩ := hbody.reads
    have hrecorded := hbody.recorded.mono (Nat.le_of_lt (index_lt_of_reads hhead)) (Nat.le_refl _)
    exact ((ih hinner).led hbody.recorded).append (ihrest (hread.keeps hinner hspelled).1) hrecorded
      hrest.recorded

end Grammar

/-! ## Documents -/

/-- Between the first token and the last no attempt is left that could have tokens of its own. -/
theorem KeepsBetween.keepsStarts {tokens : List Token} {record : List Event}
    (h : KeepsBetween tokens False 0 tokens.length record) : KeepsStarts tokens record where
  passes := h.passes
  meets place hstarts := by
    have ⟨token, htoken, _⟩ := hstarts
    have hplace : place < tokens.length := (List.getElem?_eq_some_iff.mp htoken).1
    exact (h.meets place hstarts (Nat.zero_le _) hplace).resolve_right fun ⟨hown, _⟩ => hown
  takes := h.takes

/-- Of every document that has tokens each start of a statement is kept (`KeepsStarts`). -/
theorem readDocument_keepsStarts {text : List Char} {tokens : List Token}
    (h : tokenize text = .ok tokens) :
    ∃ reading, readDocument text = .ok reading ∧ KeepsStarts tokens reading.events := by
  obtain ⟨reading, hreading, -⟩ := exists_reading h
  obtain ⟨-, hcourse⟩ := Grammar.statementsOf_course text tokens
  have hkeeps := hcourse.keepsBetween rfl (spelled_of_tokenize h)
  rw [← (reading_eq h hreading).2] at hkeeps
  have hlength : Cursor.index ⟨tokens.reverse, []⟩ = tokens.length := List.length_reverse
  rw [hlength] at hkeeps
  exact ⟨reading, hreading, hkeeps.keepsStarts⟩

/-- A number is skipped as the body of a loop. A conditional fails behind its body, in which the
statement was read before, and reading goes on with the name that it fails at. -/
theorem readDocument_keepsStarts_nested :
    let text := "while (a) 1; if (b) \x7b c; \x7d else if d = ;".toList
    let tokens : List Token := [⟨.keyword, "while", 0, 5⟩, ⟨.symbol, "(", 6, 7⟩,
      ⟨.identifier, "a", 7, 8⟩, ⟨.symbol, ")", 8, 9⟩, ⟨.number, "1", 10, 11⟩,
      ⟨.symbol, ";", 11, 12⟩,
      ⟨.keyword, "if", 13, 15⟩, ⟨.symbol, "(", 16, 17⟩, ⟨.identifier, "b", 17, 18⟩,
      ⟨.symbol, ")", 18, 19⟩, ⟨.symbol, "\x7b", 20, 21⟩, ⟨.identifier, "c", 22, 23⟩,
      ⟨.symbol, ";", 23, 24⟩, ⟨.symbol, "\x7d", 25, 26⟩, ⟨.keyword, "else", 27, 31⟩,
      ⟨.keyword, "if", 32, 34⟩, ⟨.identifier, "d", 35, 36⟩, ⟨.symbol, "=", 37, 38⟩,
      ⟨.symbol, ";", 39, 40⟩]
    tokenize text = .ok tokens ∧ ∃ reading, readDocument text = .ok reading ∧
      reading.events.filterMap Event.attempted? = [(0, 6), (11, 13), (6, 16), (16, 18)] ∧
      reading.events.filterMap Event.passed? = [(4, 6), (16, 16), (18, 19)] ∧
      KeepsStarts tokens reading.events := by
  intro text tokens
  have htokens : tokenize text = .ok tokens := by decide +kernel
  obtain ⟨reading, hreading, hkeeps⟩ := readDocument_keepsStarts htokens
  have hevents := (reading_eq htokens hreading).2
  refine ⟨htokens, reading, hreading, ?_, ?_, hkeeps⟩
  · rw [hevents]
    decide +kernel
  · rw [hevents]
    decide +kernel

end NeutronLang
