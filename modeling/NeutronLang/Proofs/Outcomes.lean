import NeutronLang.Grammar.Trace
import NeutronLang.Proofs.Reading

/-!
# Readings without errors

What readers with a record give where nothing is wrong: a value, a place, and no syntax error on the
record. Sequencing keeps to that, so the reading of a statement is put together from those of its
parts, and which other events are on the record does not matter.
-/

namespace NeutronLang

/-- From `start` a reader gives `x` at the later place `stop`, and it records no syntax error. -/
def Recovering.Gives {α : Type} (reader : Recovering α) (start : Cursor) (x : α) (stop : Cursor) :
    Prop :=
  (reader start).value = (x, stop) ∧ (reader start).errors = []

/-- From `start` an attempt succeeds with `x` at the later place `stop`, and it records no syntax
error. -/
def Attempt.Gives {α : Type} (attempt : Attempt α) (start : Cursor) (x : α) (stop : Cursor) :
    Prop :=
  (attempt start).run.value = .ok (x, stop) ∧ (attempt start).run.errors = []

variable {α β : Type} {start middle stop : Cursor} {x : α} {y : β}

namespace Recovering

/-- `>>=` gives what the second of its readers gives from where the first stopped. -/
theorem Gives.bind {reader : Recovering α} {next : α → Recovering β}
    (h : reader.Gives start x middle) (hnext : (next x).Gives middle y stop) :
    Recovering.Gives (reader >>= next) start y stop := by
  obtain ⟨hvalue, herrors⟩ := h
  obtain ⟨hvalue', herrors'⟩ := hnext
  have hrun : (reader >>= next) start =
      ⟨(next x middle).value, (reader start).events ++ (next x middle).events⟩ := by
    show (reader start >>= fun (x, middle) => next x middle) = _
    rw [Traced.bind_eq, hvalue]
  constructor
  · rw [hrun, hvalue']
  · rw [hrun, Traced.errors, List.filterMap_append]
    exact List.append_eq_nil_iff.mpr ⟨herrors, herrors'⟩

/-- `pure` gives its value where the reader stands. -/
theorem gives_pure : Recovering.Gives (pure x) start x start := ⟨rfl, rfl⟩

/-- `get` gives the place itself. -/
theorem gives_get : Recovering.Gives get start start start := ⟨rfl, rfl⟩

/-- `acceptText` gives a token with the text asked for. -/
theorem gives_acceptText {token : Token} {lexeme : String} (hlexeme : token.lexeme = lexeme)
    (h : start.Reads [token] stop) :
    Recovering.Gives (Rule.acceptText lexeme) start (some token) stop :=
  ⟨Cursor.accept_of_wanted (beq_iff_eq.mpr hlexeme) h, rfl⟩

/-- `record` of an event that is no syntax error gives nothing else. -/
theorem gives_record {event : Event} (h : event.error? = none) :
    Recovering.Gives (record event) start () start := by
  refine ⟨rfl, ?_⟩
  show [event].filterMap Event.error? = []
  rw [List.filterMap_cons_none h, List.filterMap_nil]

end Recovering

namespace Attempt

/-- `>>=` gives what the second of its attempts gives from where the first stopped. -/
theorem Gives.bind {attempt : Attempt α} {next : α → Attempt β}
    (h : attempt.Gives start x middle) (hnext : (next x).Gives middle y stop) :
    Attempt.Gives (attempt >>= next) start y stop := by
  obtain ⟨hvalue, herrors⟩ := h
  obtain ⟨hvalue', herrors'⟩ := hnext
  have hrun : ((attempt >>= next) start).run =
      ⟨(next x middle).run.value, (attempt start).run.events ++ (next x middle).run.events⟩ := by
    show (attempt start).run >>= ExceptT.bindCont (fun (x, middle) => next x middle) = _
    rw [Traced.bind_eq, hvalue]
    rfl
  constructor
  · rw [hrun, hvalue']
  · rw [hrun, Traced.errors, List.filterMap_append]
    exact List.append_eq_nil_iff.mpr ⟨herrors, herrors'⟩

/-- `pure` gives its value where the attempt stands. -/
theorem gives_pure : Attempt.Gives (pure x) start x start := ⟨rfl, rfl⟩

/-- `get` gives the place itself to an attempt. -/
theorem gives_get : Attempt.Gives get start start start := ⟨rfl, rfl⟩

/-- A rule that succeeds is an attempt that does. -/
theorem gives_of_eq_ok {rule : Rule α} (h : rule start = .ok (x, stop)) :
    Attempt.Gives (liftM rule) start x stop := ⟨h, rfl⟩

/-- A reader is an attempt that succeeds. -/
theorem gives_of_gives {reader : Recovering α} (h : reader.Gives start x stop) :
    Attempt.Gives (liftM reader) start x stop := by
  obtain ⟨hvalue, herrors⟩ := h
  exact ⟨congrArg Except.ok hvalue, herrors⟩

/-- `skip` reads one token, whatever it is. -/
theorem gives_skip {token : Token} (h : start.Reads [token] stop) :
    Attempt.Gives Rule.skip start () stop := by
  obtain ⟨behind, rest, rfl, rfl⟩ := h.exists_eq
  exact ⟨rfl, rfl⟩

/-- `expect` gives a token with the text that is wanted. -/
theorem gives_expect {token : Token} {lexeme : String} {wanted : Wanted}
    (hlexeme : token.lexeme = lexeme) (h : start.Reads [token] stop) :
    Attempt.Gives (Rule.expect lexeme wanted) start token stop :=
  gives_of_eq_ok (Rule.expect_eq_ok_iff.mpr ⟨hlexeme, h⟩)

/-- `acceptText` gives an attempt a token with the text asked for. -/
theorem gives_acceptText {token : Token} {lexeme : String} (hlexeme : token.lexeme = lexeme)
    (h : start.Reads [token] stop) :
    Attempt.Gives (Rule.acceptText lexeme) start (some token) stop :=
  ⟨congrArg Except.ok (Cursor.accept_of_wanted (beq_iff_eq.mpr hlexeme) h), rfl⟩

/-- `acceptText` leaves a token with another text where it is. -/
theorem gives_acceptText_none {lexeme : String}
    (h : ∀ token ∈ start.ahead.head?, token.lexeme ≠ lexeme) :
    Attempt.Gives (Rule.acceptText lexeme) start none start := by
  have hnone := Cursor.accept_of_not_wanted fun token htoken =>
    beq_eq_false_iff_ne.mpr (h token htoken)
  exact ⟨congrArg Except.ok hnone, rfl⟩

/-- `recover` gives what its attempt gives. -/
theorem Gives.recover {attempt : Attempt (Option α)} {x : Option α}
    (h : attempt.Gives start x stop) : Recovering.Gives attempt.recover start x stop := by
  obtain ⟨hvalue, herrors⟩ := h
  have hrun : attempt.recover start = ⟨(x, stop), (attempt start).run.events⟩ := by
    unfold Attempt.recover
    simp only [hvalue]
  exact ⟨by rw [hrun], by rw [hrun]; exact herrors⟩

end Attempt

end NeutronLang
