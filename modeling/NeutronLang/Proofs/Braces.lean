import NeutronLang.Proofs.Progress

/-!
# Braces by counting

Which brace closes a body by counting (`ClosesByCount`), and which the reader takes. The reader
counts no braces: a body ends at the first closing brace that is next where it looks for a
statement. `Braced` keeps of a reading what matters for its braces: phrases with balanced ones,
bodies, and stretches that recovery gives up. From it follows what the two have to do with each
other (`Braced.closesByCount_iff`): all that can tell them apart are the stretches that are given
up, whose braces are left out of the account.
-/

namespace NeutronLang

open Grammar

/-! ## Counting -/

/-- The depth of braces behind a token by that before it; a brace that closes none has none. -/
def Token.depthAfter (depth : Nat) (token : Token) : Option Nat :=
  if isSymbol "\x7b" token then some (depth + 1)
  else if isSymbol "\x7d" token then if depth = 0 then none else some (depth - 1)
  else some depth

/-- The depth of braces behind tokens, one by one (`Token.depthAfter`). -/
def depthAfter (depth : Nat) (tokens : List Token) : Option Nat :=
  tokens.foldlM Token.depthAfter depth

/-- Tokens are balanced if each brace among them closes another one or is closed by one. -/
def Balanced (tokens : List Token) : Prop := depthAfter 0 tokens = some 0

instance (tokens : List Token) : Decidable (Balanced tokens) :=
  inferInstanceAs (Decidable (depthAfter 0 tokens = some 0))

/-- The tokens from the place `first` up to the one before `last`. -/
def stretch (tokens : List Token) (first last : Nat) : List Token :=
  (tokens.drop first).take (last - first)

/-- The brace at the place `first` is closed by the one at the place `last`, by counting. -/
def ClosesByCount (tokens : List Token) (first last : Nat) : Prop :=
  first < last ∧ tokens[first]?.any (isSymbol "\x7b") = true ∧
    tokens[last]?.any (isSymbol "\x7d") = true ∧ Balanced (stretch tokens (first + 1) last)

instance (tokens : List Token) (first last : Nat) : Decidable (ClosesByCount tokens first last) :=
  inferInstanceAs (Decidable (_ ∧ _ ∧ _ ∧ _))

/-- Tokens have the same nesting if they make the same of every depth (`depthAfter`). -/
def SameNesting (tokens more : List Token) : Prop :=
  ∀ depth, depthAfter depth tokens = depthAfter depth more

variable {tokens more : List Token} {token : Token}

/-- `depthAfter` goes through tokens one after the other. -/
theorem depthAfter_append (depth : Nat) (tokens more : List Token) :
    depthAfter depth (tokens ++ more) = (depthAfter depth tokens).bind (depthAfter · more) :=
  List.foldlM_append

/-- `Token.depthAfter` keeps open behind a token what is open before it. -/
theorem Token.depthAfter_add {depth after : Nat} (h : token.depthAfter depth = some after)
    (more : Nat) : token.depthAfter (depth + more) = some (after + more) := by
  unfold Token.depthAfter at h ⊢
  split at h
  · next hopens =>
    cases h
    rw [if_pos hopens, Nat.add_right_comm]
  · next hopens =>
    split at h
    · next hcloses =>
      split at h
      · cases h
      · cases h
        rw [if_neg hopens, if_pos hcloses, if_neg (by omega)]
        congr 1
        omega
    · next hcloses =>
      cases h
      rw [if_neg hopens, if_neg hcloses]

/-- `depthAfter` keeps open behind tokens what is open before them. -/
theorem depthAfter_add {depth after : Nat} (h : depthAfter depth tokens = some after) (more : Nat) :
    depthAfter (depth + more) tokens = some (after + more) := by
  induction tokens generalizing depth with
  | nil =>
    cases h
    rfl
  | cons token tokens ih =>
    obtain ⟨middle, hfirst, hrest⟩ := Option.bind_eq_some_iff.mp h
    exact Option.bind_eq_some_iff.mpr ⟨_, Token.depthAfter_add hfirst more, ih hrest⟩

/-- `Balanced` tokens have the nesting of none. -/
theorem balanced_iff_sameNesting : Balanced tokens ↔ SameNesting tokens [] := by
  refine ⟨fun h depth => ?_, fun h => h 0⟩
  have hadd := depthAfter_add h depth
  rwa [Nat.zero_add] at hadd

namespace SameNesting

variable {tokens' more' : List Token}

/-- `SameNesting` is reflexive. -/
theorem refl (tokens : List Token) : SameNesting tokens tokens := fun _ => rfl

/-- `SameNesting` holds of what is put together of parts with the same nesting. -/
theorem append (h : SameNesting tokens tokens') (hmore : SameNesting more more') :
    SameNesting (tokens ++ more) (tokens' ++ more') := by
  intro depth
  rw [depthAfter_append, depthAfter_append, h depth]
  exact congrArg _ (funext hmore)

/-- `Balanced` holds of both or of neither of two with the `SameNesting`. -/
theorem balanced_iff (h : SameNesting tokens more) : Balanced tokens ↔ Balanced more := by
  unfold Balanced
  rw [h 0]

end SameNesting

namespace Balanced

/-- `Balanced` holds of no tokens. -/
theorem nil : Balanced [] := rfl

/-- `Balanced` holds of balanced tokens one after the other. -/
theorem append (h : Balanced tokens) (hmore : Balanced more) : Balanced (tokens ++ more) := by
  have happend := (balanced_iff_sameNesting.mp h).append (balanced_iff_sameNesting.mp hmore)
  exact balanced_iff_sameNesting.mpr happend

/-- `Balanced` holds of a token that is no brace. -/
theorem single (hopens : isSymbol "\x7b" token = false) (hcloses : isSymbol "\x7d" token = false) :
    Balanced [token] := by
  unfold Balanced depthAfter
  rw [List.foldlM_cons, Token.depthAfter, hopens, hcloses]
  rfl

/-- `Balanced` holds of balanced tokens in braces. -/
theorem braced {opening closing : Token} (hopens : isSymbol "\x7b" opening = true)
    (hcloses : isSymbol "\x7d" closing = true) (h : Balanced tokens) :
    Balanced (opening :: (tokens ++ [closing])) := by
  have hnot : isSymbol "\x7b" closing = false := by
    simp only [isSymbol, Bool.and_eq_true, beq_iff_eq] at hcloses ⊢
    simp [hcloses.2]
  have hinner := balanced_iff_sameNesting.mp h 1
  have hopening : opening.depthAfter 0 = some 1 := by simp [Token.depthAfter, hopens]
  have hclosing : closing.depthAfter 1 = some 0 := by simp [Token.depthAfter, hnot, hcloses]
  show ((opening.depthAfter 0).bind (depthAfter · (tokens ++ [closing]))) = some 0
  rw [hopening, Option.bind_some, depthAfter_append, hinner]
  show (closing.depthAfter 1).bind (depthAfter · []) = some 0
  rw [hclosing]
  rfl

end Balanced

/-! ## What is on the record of braces -/

/-- Where an event begins, or where it happens. -/
def Event.place : Event → Nat
  | began start | completed start _ | closed start _ | unclosed start | skipped _ start _
  | abandoned _ start _ _ => start
  | terminated _ place | unterminated _ place => place

/-- The stretch that recovery gives up, if it does. -/
def Event.givenUp? : Event → Option (Nat × Nat)
  | skipped _ start stop | abandoned _ start _ stop => some (start, stop)
  | _ => none

/-- Whether an event gives up the token at `place`, or opens or closes a body with it. -/
def Event.accountsFor (place : Nat) : Event → Bool
  | skipped _ start stop | abandoned _ start _ stop => start ≤ place && place < stop
  | closed start stop => place == start || place == stop
  | unclosed start => place == start
  | _ => false

/-- An event accounts for tokens between `first` and `last` only, from where it begins. -/
structure Event.Within (first last : Nat) (event : Event) : Prop where
  accounts : ∀ place, event.accountsFor place = true →
    first ≤ event.place ∧ event.place ≤ place ∧ place < last
  givesUp : ∀ start stop, event.givenUp? = some (start, stop) → first ≤ start ∧ stop ≤ last

/-- `Within` two places holds of an event between any that are further apart. -/
theorem Event.Within.mono {event : Event} {first last before after : Nat}
    (h : event.Within first last) (hfirst : before ≤ first) (hlast : last ≤ after) :
    event.Within before after where
  accounts place hplace := by
    have := h.accounts place hplace
    omega
  givesUp start stop hgivenUp := by
    have := h.givesUp start stop hgivenUp
    omega

/-- What recovery gives up begins where the event does. -/
theorem Event.accountsFor_of_givenUp? {event : Event} {first last : Nat}
    (h : event.givenUp? = some (first, last)) : event.place = first ∧
      ∀ place, event.accountsFor place = (decide (first ≤ place) && decide (place < last)) := by
  cases event <;> cases h <;> exact ⟨rfl, fun _ => rfl⟩

/-- The tokens from `place` on that `select` takes by their places. -/
def selected (select : Nat → Bool) : (place : Nat) → List Token → List Token
  | _, [] => []
  | place, token :: tokens =>
    if select place then token :: selected select (place + 1) tokens
    else selected select (place + 1) tokens

/-- The tokens inside a body that recovery gives up from there on, and the braces of the bodies
there (`Event.accountsFor`). -/
def accounted (events : List Event) (tokens : List Token) (first last : Nat) : List Token :=
  selected (fun place => events.any fun event =>
    decide (first < event.place) && event.accountsFor place) (first + 1)
    (stretch tokens (first + 1) last)

section

variable {select select' : Nat → Bool} {place : Nat}

/-- `selected` goes through tokens one after the other. -/
theorem selected_append (tokens more : List Token) :
    selected select place (tokens ++ more) =
      selected select place tokens ++ selected select (place + tokens.length) more := by
  induction tokens generalizing place with
  | nil => rfl
  | cons token tokens ih =>
    have hplace : place + 1 + tokens.length = place + (token :: tokens).length := by
      rw [List.length_cons]
      omega
    simp only [List.cons_append, selected, ih, hplace]
    split <;> rfl

/-- `selected` depends on the places of the tokens alone. -/
theorem selected_congr
    (h : ∀ other, place ≤ other → other < place + tokens.length → select other = select' other) :
    selected select place tokens = selected select' place tokens := by
  induction tokens generalizing place with
  | nil => rfl
  | cons token tokens ih =>
    rw [List.length_cons] at h
    rw [selected, selected, h place (Nat.le_refl _) (by omega),
      ih fun other hle hlt => h other (by omega) (by omega)]

/-- `selected` keeps all tokens if all places are selected. -/
theorem selected_true (place : Nat) (tokens : List Token) :
    selected (fun _ => true) place tokens = tokens := by
  induction tokens generalizing place with
  | nil => rfl
  | cons token tokens ih => rw [selected, if_pos rfl, ih]

/-- `selected` keeps no token if no place is selected. -/
theorem selected_false (place : Nat) (tokens : List Token) :
    selected (fun _ => false) place tokens = [] := by
  induction tokens generalizing place with
  | nil => rfl
  | cons token tokens ih => rw [selected, if_neg Bool.false_ne_true, ih]

end

/-- What is read between two places is the `stretch` between them. -/
theorem Cursor.Reads.stretch_eq {start stop : Cursor} {read : List Token}
    (h : start.Reads read stop) : stretch start.tokens start.index stop.index = read := by
  have hlength : stop.index - start.index = read.length := by
    rw [h.index_eq]
    omega
  have hdrop : start.tokens.drop start.index = read ++ stop.ahead := by
    rw [← h.ahead]
    exact List.drop_left' (List.length_reverse ..)
  rw [stretch, hdrop, hlength, List.take_left]

/-! ## Readings by their braces -/

/-- A reading as far as its braces and its record go: phrases that are `Balanced`, bodies in braces,
and stretches that recovery gives up after any part of a statement. -/
inductive Braced : Cursor → Cursor → List Event → Prop where
  | phrase {start stop : Cursor} {read : List Token} : start.Reads read stop → Balanced read →
      Braced start stop []
  | note {start : Cursor} {event : Event} : (∀ place, event.accountsFor place = false) →
      event.givenUp? = none → (∀ first last, event ≠ .closed first last) →
      Braced start start [event]
  | append {start middle stop : Cursor} {events more : List Event} : Braced start middle events →
      Braced middle stop more → Braced start stop (events ++ more)
  | closed {start inner last stop : Cursor} {opening closing : Token} {events : List Event} :
      isSymbol "\x7b" opening = true → start.Reads [opening] inner → Braced inner last events →
      isSymbol "\x7d" closing = true → last.Reads [closing] stop →
      Braced start stop (events ++ [.closed start.index last.index])
  | unclosed {start inner stop : Cursor} {opening : Token} {events : List Event} :
      start.Reads [opening] inner → Braced inner stop events → stop.ahead = [] →
      Braced start stop (events ++ [.unclosed start.index])
  | givenUp {start middle stop : Cursor} {read : List Token} {events : List Event} {event : Event} :
      Braced start middle events → middle.Reads read stop →
      event.givenUp? = some (start.index, stop.index) → Braced start stop (events ++ [event])

namespace Braced

variable {start stop : Cursor} {events : List Event}

/-- A `Braced` reading leads forward. -/
theorem exists_reads (h : Braced start stop events) : ∃ read, start.Reads read stop := by
  induction h with
  | phrase hread => exact ⟨_, hread⟩
  | note => exact ⟨[], .refl _⟩
  | append _ _ ih ihmore =>
    obtain ⟨read, hread⟩ := ih
    obtain ⟨more, hmore⟩ := ihmore
    exact ⟨_, hread.trans hmore⟩
  | closed _ hopening _ _ hclosing ih =>
    obtain ⟨read, hread⟩ := ih
    exact ⟨_, hopening.cons (hread.trans hclosing)⟩
  | unclosed hopening _ _ ih =>
    obtain ⟨read, hread⟩ := ih
    exact ⟨_, hopening.cons hread⟩
  | givenUp _ hmore _ ih =>
    obtain ⟨read, hread⟩ := ih
    exact ⟨_, hread.trans hmore⟩

/-- A `Braced` reading does not lead back. -/
theorem index_le (h : Braced start stop events) : start.index ≤ stop.index := by
  obtain ⟨read, hread⟩ := h.exists_reads
  rw [hread.index_eq]
  exact Nat.le_add_right _ _

/-- A `Braced` reading stays among the same tokens. -/
theorem tokens_eq (h : Braced start stop events) : stop.tokens = start.tokens := by
  obtain ⟨read, hread⟩ := h.exists_reads
  exact hread.tokens_eq

/-- The events of a `Braced` reading account for tokens that are read. -/
theorem within (h : Braced start stop events) :
    ∀ event ∈ events, event.Within start.index stop.index := by
  induction h with
  | phrase => simp
  | note hnone hnone' _ =>
    refine List.forall_mem_singleton.mpr ⟨fun place hplace => ?_, fun first last hgivenUp => ?_⟩
    · rw [hnone] at hplace
      cases hplace
    · rw [hnone'] at hgivenUp
      cases hgivenUp
  | append h hmore ih ihmore =>
    exact List.forall_mem_append.mpr
      ⟨fun event hevent => (ih event hevent).mono (Nat.le_refl _) hmore.index_le,
        fun event hevent => (ihmore event hevent).mono h.index_le (Nat.le_refl _)⟩
  | closed _ hopening h _ hclosing ih =>
    -- a body accounts for its two braces, which are read before and after all in it
    have hstart := index_lt_of_reads hopening
    have hle := h.index_le
    have hstop := index_lt_of_reads hclosing
    refine List.forall_mem_append.mpr ⟨fun event hevent => (ih event hevent).mono
      (Nat.le_of_lt hstart) (Nat.le_of_lt hstop), List.forall_mem_singleton.mpr ⟨?_, ?_⟩⟩
    case refine_2 => rintro _ _ ⟨⟩
    intro place hplace
    simp only [Event.accountsFor, Bool.or_eq_true, beq_iff_eq] at hplace
    simp only [Event.place]
    omega
  | unclosed hopening h _ ih =>
    have hstart := index_lt_of_reads hopening
    have hle := h.index_le
    refine List.forall_mem_append.mpr ⟨fun event hevent => (ih event hevent).mono
      (Nat.le_of_lt hstart) (Nat.le_refl _), List.forall_mem_singleton.mpr ⟨?_, by rintro _ _ ⟨⟩⟩⟩
    intro place hplace
    simp only [Event.accountsFor, beq_iff_eq] at hplace
    simp only [Event.place]
    omega
  | givenUp h hmore hgivenUp ih =>
    obtain ⟨hfirst, haccounts⟩ := Event.accountsFor_of_givenUp? hgivenUp
    have hstop := hmore.index_eq
    refine List.forall_mem_append.mpr ⟨fun event hevent => (ih event hevent).mono
      (Nat.le_refl _) (by omega), List.forall_mem_singleton.mpr ⟨fun place hplace => ?_, ?_⟩⟩
    · rw [haccounts, Bool.and_eq_true, decide_eq_true_eq, decide_eq_true_eq] at hplace
      omega
    · intro first last hfirst
      rw [hgivenUp] at hfirst
      cases hfirst
      exact ⟨Nat.le_refl _, Nat.le_refl _⟩

/-- The events of a `Braced` reading account for nothing outside its places. -/
theorem any_accountsFor_eq_false (h : Braced start stop events) {place : Nat}
    (hplace : place < start.index ∨ stop.index ≤ place) :
    (events.any fun event => event.accountsFor place) = false := by
  rw [List.any_eq_false]
  intro event hevent haccounts
  have := (h.within event hevent).accounts place haccounts
  omega

/-- The braces of what a `Braced` reading reads are those that are accounted for, but for balanced
ones. -/
theorem sameNesting (h : Braced start stop events) :
    ∃ read, start.Reads read stop ∧ SameNesting read
      (selected (fun place => events.any (·.accountsFor place)) start.index read) := by
  induction h with
  | @phrase start _ read hread hbalanced =>
    refine ⟨read, hread, ?_⟩
    simp only [List.any_nil, selected_false]
    exact balanced_iff_sameNesting.mp hbalanced
  | note => exact ⟨[], .refl _, .refl _⟩
  | @append start middle stop events more h hmore ih ihmore =>
    obtain ⟨read, hread, hnesting⟩ := ih
    obtain ⟨later, hlater, hnesting'⟩ := ihmore
    refine ⟨_, hread.trans hlater, ?_⟩
    have hmiddle := hread.index_eq
    rw [selected_append, ← hmiddle]
    -- neither record accounts for tokens of the other reading
    refine SameNesting.append ?_ ?_
    · rwa [selected_congr fun place hle hlt => ?_]
      rw [List.any_append, hmore.any_accountsFor_eq_false (.inl (by omega)), Bool.or_false]
    · rwa [selected_congr fun place hle hlt => ?_]
      rw [List.any_append, h.any_accountsFor_eq_false (.inr (by omega)), Bool.false_or]
  | @closed start inner last stop opening closing events _ hopening h _ hclosing ih =>
    obtain ⟨read, hread, hnesting⟩ := ih
    have hinner := hopening.index_eq
    have hlast := hread.index_eq
    rw [List.length_singleton] at hinner
    refine ⟨[opening] ++ (read ++ [closing]), hopening.trans (hread.trans hclosing), ?_⟩
    rw [selected_append, selected_append, List.length_singleton, ← hinner, ← hlast]
    -- the last event accounts for the two braces, those before it for what is between them
    have hopens : selected (fun place => (events ++ [Event.closed start.index last.index]).any
        (·.accountsFor place)) start.index [opening] = [opening] := by
      simp [selected, Event.accountsFor]
    have hcloses : selected (fun place => (events ++ [Event.closed start.index last.index]).any
        (·.accountsFor place)) last.index [closing] = [closing] := by
      simp [selected, Event.accountsFor]
    rw [hopens, hcloses]
    refine (SameNesting.refl _).append (SameNesting.append ?_ (.refl _))
    rwa [selected_congr fun place hle hlt => ?_]
    rw [List.any_append, List.any_cons, List.any_nil, Event.accountsFor]
    have hstart : (place == start.index) = false := beq_eq_false_iff_ne.mpr (by omega)
    have hstop : (place == last.index) = false := beq_eq_false_iff_ne.mpr (by omega)
    simp [hstart, hstop]
  | @unclosed start inner stop opening events hopening h _ ih =>
    obtain ⟨read, hread, hnesting⟩ := ih
    have hinner := hopening.index_eq
    rw [List.length_singleton] at hinner
    refine ⟨[opening] ++ read, hopening.trans hread, ?_⟩
    rw [selected_append, List.length_singleton, ← hinner]
    have hopens : selected (fun place => (events ++ [Event.unclosed start.index]).any
        (·.accountsFor place)) start.index [opening] = [opening] := by
      simp [selected, Event.accountsFor]
    rw [hopens]
    refine (SameNesting.refl _).append ?_
    rwa [selected_congr fun place hle hlt => ?_]
    rw [List.any_append, List.any_cons, List.any_nil, Event.accountsFor]
    have hstart : (place == start.index) = false := beq_eq_false_iff_ne.mpr (by omega)
    simp [hstart]
  | @givenUp start middle stop later events event h hmore hgivenUp ih =>
    obtain ⟨read, hread, -⟩ := ih
    have hmiddle := hread.index_eq
    have hstop := hmore.index_eq
    refine ⟨_, hread.trans hmore, ?_⟩
    obtain ⟨-, haccounts⟩ := Event.accountsFor_of_givenUp? hgivenUp
    -- the last event accounts for all that is read, whatever the braces in it
    rw [selected_congr fun place hle hlt => ?_, selected_true]
    · exact .refl _
    · rw [List.length_append] at hlt
      rw [List.any_append, List.any_cons, haccounts]
      have hlast : place < stop.index := by omega
      simp [hle, hlast]

/-- A `Braced` reading reads balanced tokens where all that is given up is balanced, unless the end
is reached. -/
theorem balanced (h : Braced start stop events)
    (hgivenUp : ∀ event ∈ events, ∀ first last, event.givenUp? = some (first, last) →
      Balanced (stretch start.tokens first last)) :
    stop.ahead = [] ∨ ∃ read, start.Reads read stop ∧ Balanced read := by
  induction h with
  | phrase hread hbalanced => exact .inr ⟨_, hread, hbalanced⟩
  | note => exact .inr ⟨[], .refl _, .nil⟩
  | append h hmore ih ihmore =>
    obtain ⟨hfirst, hlater⟩ := List.forall_mem_append.mp hgivenUp
    rw [← h.tokens_eq] at hlater
    rcases ih hfirst with hend | ⟨read, hread, hbalanced⟩
    -- at the end nothing more is read
    · obtain ⟨more, hmore⟩ := hmore.exists_reads
      rw [hmore.ahead, List.append_eq_nil_iff] at hend
      exact .inl hend.2
    · refine (ihmore hlater).imp_right ?_
      rintro ⟨more, hmore, hbalanced'⟩
      exact ⟨_, hread.trans hmore, hbalanced.append hbalanced'⟩
  | closed hopens hopening h hcloses hclosing ih =>
    rw [← hopening.tokens_eq] at hgivenUp
    rcases ih (List.forall_mem_append.mp hgivenUp).1 with hend | ⟨read, hread, hbalanced⟩
    · rw [hclosing.ahead] at hend
      cases hend
    · exact .inr ⟨_, hopening.cons (hread.trans hclosing), hbalanced.braced hopens hcloses⟩
  | unclosed _ _ hend => exact .inl hend
  | givenUp h hmore hthis _ =>
    obtain ⟨read, hread⟩ := h.exists_reads
    have hwhole := hread.trans hmore
    refine .inr ⟨_, hwhole, ?_⟩
    rw [← hwhole.stretch_eq]
    exact hgivenUp _ (by simp) _ _ hthis

end Braced

/-! ## Bodies that are closed -/

/-- A reading is that of the `inside` of a body in braces, and its record is all that there is of
the tokens there. -/
structure ReadsInside (tokens : List Token) (events : List Event) (first last : Nat)
    (inner final : Cursor) (inside : List Event) : Prop where
  reading : Braced inner final inside
  tokens_eq : inner.tokens = tokens
  starts : inner.index = first + 1
  stops : final.index = last
  opens : tokens[first]?.any (isSymbol "\x7b") = true
  closes : tokens[last]?.any (isSymbol "\x7d") = true
  ahead : final.ahead ≠ []
  subset : ∀ event ∈ inside, event ∈ events
  complete : ∀ event ∈ events, first < event.place → ∀ place, first < place → place < last →
    event.accountsFor place = true → event ∈ inside

/-- `ReadsInside` stays true with more on the record, if none of that is of the tokens inside the
body. -/
theorem ReadsInside.mono {tokens : List Token} {events more inside : List Event} {first last : Nat}
    {inner final : Cursor} (h : ReadsInside tokens events first last inner final inside)
    (hsubset : ∀ event ∈ events, event ∈ more)
    (hcomplete : ∀ event ∈ more, first < event.place → ∀ place, first < place → place < last →
      event.accountsFor place = true → event ∈ events) :
    ReadsInside tokens more first last inner final inside where
  __ := h
  subset event hevent := hsubset event (h.subset event hevent)
  complete event hevent hplace place hfirst hlast haccounts :=
    h.complete event (hcomplete event hevent hplace place hfirst hlast haccounts) hplace place
      hfirst hlast haccounts

/-- `ReadsInside` stays true with an event that begins before the inside of the body. -/
theorem ReadsInside.concat {tokens : List Token} {events inside : List Event} {event : Event}
    {first last : Nat} {inner final : Cursor}
    (h : ReadsInside tokens events first last inner final inside) (hplace : event.place ≤ first) :
    ReadsInside tokens (events ++ [event]) first last inner final inside := by
  refine h.mono (fun _ => List.mem_append_left _) fun other hother hlt _ _ _ _ => ?_
  refine (List.mem_append.mp hother).resolve_right fun hthis => ?_
  rw [List.mem_singleton.mp hthis] at hlt
  omega

namespace Braced

variable {start stop : Cursor} {events : List Event} {first last : Nat}

/-- A body that is closed lies among what is read. -/
theorem closed_within (h : Braced start stop events) (hclosed : .closed first last ∈ events) :
    start.index ≤ first ∧ last < stop.index := by
  have hwithin := (h.within _ hclosed).accounts
  have hfirst := hwithin first (by simp [Event.accountsFor])
  have hlast := hwithin last (by simp [Event.accountsFor])
  simp only [Event.place] at hfirst hlast
  omega

/-- The inside of a body that is closed has been read, as `ReadsInside` says. -/
theorem exists_inside (h : Braced start stop events) (hclosed : .closed first last ∈ events) :
    ∃ inner final inside, ReadsInside start.tokens events first last inner final inside := by
  induction h with
  | phrase => cases hclosed
  | note _ _ hne => exact absurd (List.mem_singleton.mp hclosed).symm (hne first last)
  | append h hmore ih ihmore =>
    rcases List.mem_append.mp hclosed with hclosed | hclosed
    · obtain ⟨inner, final, inside, hinside⟩ := ih hclosed
      have hwithin := h.closed_within hclosed
      refine ⟨inner, final, inside, hinside.mono (fun _ => List.mem_append_left _) ?_⟩
      intro event hevent _ place _ hlast haccounts
      -- what is recorded later is of tokens that come later
      refine (List.mem_append.mp hevent).resolve_right fun hlater => ?_
      have := (hmore.within event hlater).accounts place haccounts
      omega
    · obtain ⟨inner, final, inside, hinside⟩ := ihmore hclosed
      have hwithin := hmore.closed_within hclosed
      rw [h.tokens_eq] at hinside
      refine ⟨inner, final, inside, hinside.mono (fun _ => List.mem_append_right _) ?_⟩
      intro event hevent _ place hfirst _ haccounts
      refine (List.mem_append.mp hevent).resolve_left fun hearlier => ?_
      have := (h.within event hearlier).accounts place haccounts
      omega
  | @closed start inner final stop opening closing events hopens hopening h hcloses hclosing ih =>
    have hinner := hopening.index_eq
    rw [List.length_singleton] at hinner
    rcases List.mem_append.mp hclosed with hclosed | hclosed
    · obtain ⟨_, _, inside, hinside⟩ := ih hclosed
      have hwithin := h.closed_within hclosed
      rw [hopening.tokens_eq] at hinside
      exact ⟨_, _, inside, hinside.concat (by simp only [Event.place]; omega)⟩
    · cases List.mem_singleton.mp hclosed
      have hthis : ReadsInside start.tokens events start.index final.index inner final events := {
        reading := h
        tokens_eq := hopening.tokens_eq
        starts := hinner
        stops := rfl
        opens := by rw [hopening.getElem?_eq, Option.any_some, hopens]
        closes := by
          rw [← hopening.tokens_eq, ← h.tokens_eq, hclosing.getElem?_eq, Option.any_some, hcloses]
        ahead := by simp [hclosing.ahead]
        subset := fun _ hevent => hevent
        complete := fun _ hevent _ _ _ _ _ => hevent }
      exact ⟨inner, final, events, hthis.concat (Nat.le_refl _)⟩
  | @unclosed start inner _ _ _ hopening h _ ih =>
    have hinner := hopening.index_eq
    have hmem := (List.mem_append.mp hclosed).resolve_right (by simp)
    obtain ⟨_, _, inside, hinside⟩ := ih hmem
    have hwithin := h.closed_within hmem
    rw [hopening.tokens_eq] at hinside
    exact ⟨_, _, inside, hinside.concat (by simp only [Event.place]; omega)⟩
  | @givenUp _ _ _ _ _ event h _ hthis ih =>
    have hne : Event.closed first last ∉ [event] := by
      intro hmem
      rw [← List.mem_singleton.mp hmem] at hthis
      cases hthis
    have hmem := (List.mem_append.mp hclosed).resolve_right hne
    obtain ⟨_, _, inside, hinside⟩ := ih hmem
    have hwithin := h.closed_within hmem
    refine ⟨_, _, inside, hinside.concat ?_⟩
    rw [(Event.accountsFor_of_givenUp? hthis).1]
    exact hwithin.1

/-- A body `ClosesByCount` exactly if the braces inside it are balanced that recovery gives up or
that belong to bodies. -/
theorem closesByCount_iff (h : Braced start stop events) (hclosed : .closed first last ∈ events) :
    ClosesByCount start.tokens first last ↔
      Balanced (accounted events start.tokens first last) := by
  obtain ⟨inner, final, inside, hinside⟩ := h.exists_inside hclosed
  obtain ⟨read, hread, hnesting⟩ := hinside.reading.sameNesting
  have hlength := hread.index_eq
  have hstretch := hread.stretch_eq
  rw [hinside.tokens_eq, hinside.starts, hinside.stops] at hstretch
  rw [hinside.starts, hinside.stops] at hlength
  have hcount : ClosesByCount start.tokens first last ↔ Balanced read := by
    unfold ClosesByCount
    rw [hstretch]
    exact ⟨fun hcount => hcount.2.2.2,
      fun hbalanced => ⟨by omega, hinside.opens, hinside.closes, hbalanced⟩⟩
  -- of the whole record only that of the inside accounts for tokens there
  have haccounted : accounted events start.tokens first last =
      selected (fun place => inside.any (·.accountsFor place)) inner.index read := by
    unfold accounted
    rw [hstretch, ← hinside.starts]
    refine selected_congr fun place hle hlt => ?_
    rw [hinside.starts] at hle hlt
    rw [Bool.eq_iff_iff]
    simp only [List.any_eq_true, Bool.and_eq_true, decide_eq_true_eq]
    constructor
    · rintro ⟨event, hevent, hplace, haccounts⟩
      exact ⟨event, hinside.complete event hevent hplace place (by omega) (by omega) haccounts,
        haccounts⟩
    · rintro ⟨event, hevent, haccounts⟩
      have hplace := ((hinside.reading.within event hevent).accounts place haccounts).1
      rw [hinside.starts] at hplace
      exact ⟨event, hinside.subset event hevent, by omega, haccounts⟩
  rw [hcount, haccounted]
  exact hnesting.balanced_iff

/-- A body `ClosesByCount` if all stretches that are given up inside it have balanced braces. -/
theorem closesByCount_of_balanced (h : Braced start stop events)
    (hclosed : .closed first last ∈ events)
    (hgivenUp : ∀ event ∈ events, ∀ start' stop', event.givenUp? = some (start', stop') →
      first < start' → stop' ≤ last → Balanced (stretch start.tokens start' stop')) :
    ClosesByCount start.tokens first last := by
  obtain ⟨inner, final, inside, hinside⟩ := h.exists_inside hclosed
  have hbalanced := hinside.reading.balanced fun event hevent start' stop' hthis => by
    have hwithin := (hinside.reading.within event hevent).givesUp start' stop' hthis
    rw [hinside.starts, hinside.stops] at hwithin
    rw [hinside.tokens_eq]
    exact hgivenUp event (hinside.subset event hevent) start' stop' hthis (by omega) hwithin.2
  obtain ⟨read, hread, hbalanced⟩ := hbalanced.resolve_left hinside.ahead
  have hlength := hread.index_eq
  have hstretch := hread.stretch_eq
  rw [hinside.tokens_eq, hinside.starts, hinside.stops] at hstretch
  rw [hinside.starts, hinside.stops] at hlength
  refine ⟨by omega, hinside.opens, hinside.closes, ?_⟩
  rwa [hstretch]

end Braced

end NeutronLang
