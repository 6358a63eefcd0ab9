import NeutronLang.Proofs.Frame

/-!
# Rules inside a frame

A rule does the same inside a frame as outside: it answers with the counterpart of its answer, or
it fails with the counterpart of its failure. There is one exception. Where the document ends too
early the rule fails outside and goes on inside, so what it does inside is left open then; such a
failure has a code of its own, by which it is known from its error.

`Frame.Outcome` states this for two results, `Rule.Framed` for two rules, one of which is read
inside. The two need not be one rule, since the bound of a rule is larger inside.
-/

namespace NeutronLang

variable {α β : Type} {frame : Frame} {start middle stop : Cursor} {read : List Token}

/-- The result of a `Rule` outside a frame and that of one inside, both from the same place. Which
answers belong together may depend on the tokens read. -/
inductive Frame.Outcome (frame : Frame) (R : List Token → α → α → Prop) (start : Cursor) :
    Except Failure (α × Cursor) → Except Failure (α × Cursor) → Prop where
  | ok {read : List Token} {stop : Cursor} {x x' : α} :
      start.Reads read stop → R read x x' →
      Outcome frame R start (.ok (x, stop)) (.ok (x', frame.cursor stop))
  | error {read : List Token} {failure : Failure} :
      start.Reads read failure.cursor → frame.Inside failure.cursor →
      Outcome frame R start (.error failure) (.error (frame.failure failure))
  | cut {failure : Failure} {result : Except Failure (α × Cursor)} :
      frame.ahead ≠ [] → failure.fault.code = "P010" →
      Outcome frame R start (.error failure) result

/-- From `start`, `rule` does outside the frame what `rule'` does inside. -/
def Rule.Framed (frame : Frame) (R : List Token → α → α → Prop) (start : Cursor)
    (rule rule' : Rule α) : Prop :=
  frame.Outcome R start (rule start) (rule' (frame.cursor start))

/-- A place with no more tokens ahead than `bound` allows outside the frame and `bound'` inside. -/
structure Frame.Within (frame : Frame) (bound bound' : Nat) (cursor : Cursor) : Prop where
  outside : cursor.ahead.length ≤ bound
  inside : cursor.ahead.length + frame.ahead.length ≤ bound'

/-- From each place within `bound` and `bound'`, `rule` does outside what `rule'` does inside. -/
def Rule.FramedWithin (frame : Frame) (R : List Token → α → α → Prop) (bound bound' : Nat)
    (rule rule' : Rule α) : Prop :=
  ∀ start, frame.Fits start → frame.Within bound bound' start →
    Rule.Framed frame R start rule rule'

/-- The answers are a token and its counterpart (`Frame.token`), and the token is what was read. -/
def Frame.IsToken (frame : Frame) (wanted : Token → Bool) (read : List Token)
    (token token' : Token) : Prop :=
  read = [token] ∧ token' = frame.token token ∧ wanted token = true

/-- A tree and its counterpart by `Frame.node`. The tree lies in the text, so its span moves with
it. -/
structure Frame.Matches (frame : Frame) (node node' : Node) : Prop where
  eq : node' = frame.node node
  present : node.isAbsent = false
  start : frame.Covers node.span.start
  stop : frame.Covers node.span.stop

/-- The answers are a tree and its counterpart (`Frame.Matches`). -/
def Frame.IsNode (frame : Frame) (_ : List Token) (node node' : Node) : Prop :=
  frame.Matches node node'

/-- The answers are trees and their counterparts, one by one (`Frame.Matches`). -/
def Frame.AreNodes (frame : Frame) (_ : List Token) (nodes nodes' : List Node) : Prop :=
  nodes' = nodes.map frame.node

namespace Frame

variable {R S : List Token → α → α → Prop} {bound bound' : Nat}

/-- `Within` two bounds holds of every place that reading leads to. -/
theorem Within.of_reads (h : frame.Within bound bound' start) (hread : start.Reads read stop) :
    frame.Within bound bound' stop := by
  obtain ⟨houtside, hinside⟩ := h
  have hlength := hread.length_ahead
  constructor <;> omega

/-- `Within` holds for lower bounds where something has been read. -/
theorem Within.of_reads_ne (h : frame.Within (bound + 1) (bound' + 1) start)
    (hread : start.Reads read stop) (hne : read ≠ []) : frame.Within bound bound' stop := by
  obtain ⟨houtside, hinside⟩ := h
  have hlength := hread.length_ahead
  have hpos := List.length_pos_iff.mpr hne
  constructor <;> omega

/-- `Within` holds for bounds lower by one where one token has been read. -/
theorem Within.of_reads_token {token : Token} (h : frame.Within (bound + 1) (bound' + 1) start)
    (hread : start.Reads [token] stop) : frame.Within bound bound' stop :=
  h.of_reads_ne hread (List.cons_ne_nil token [])

/-- The bounds of a place `Within` them are not zero before a token. -/
theorem Within.exists_succ (h : frame.Within bound bound' start) (hahead : start.ahead ≠ []) :
    ∃ less less', bound = less + 1 ∧ bound' = less' + 1 := by
  obtain ⟨houtside, hinside⟩ := h
  have hpos := List.length_pos_iff.mpr hahead
  exact ⟨bound - 1, bound' - 1, by omega, by omega⟩

/-- Induction on a place within two bounds, for rules whose recursion stops at the end of the
tokens. Before a token it is enough to go from all places within lower bounds to this one. -/
theorem Within.induct {motive : {bound bound' : Nat} → {start : Cursor} →
      frame.Within bound bound' start → Prop}
    (atEnd : ∀ {bound bound' : Nat} {start : Cursor} (h : frame.Within bound bound' start),
      start.ahead = [] → motive h)
    (step : ∀ {bound bound' : Nat} {start : Cursor}
      (h : frame.Within (bound + 1) (bound' + 1) start), start.ahead ≠ [] →
      (∀ {later : Cursor} (hlater : frame.Within bound bound' later), motive hlater) → motive h)
    {bound bound' : Nat} {start : Cursor} (h : frame.Within bound bound' start) : motive h := by
  induction bound generalizing bound' start with
  | zero => exact atEnd h (List.length_eq_zero_iff.mp (Nat.le_zero.mp h.outside))
  | succ bound ih =>
    by_cases hend : start.ahead = []
    · exact atEnd h hend
    · obtain ⟨_, bound', -, rfl⟩ := h.exists_succ hend
      exact step h hend ih

/-- `Outcome` stays true when less is said of the answers. -/
theorem Outcome.mono {result result' : Except Failure (α × Cursor)}
    (h : frame.Outcome R start result result')
    (hle : ∀ read x x', R read x x' → S read x x') : frame.Outcome S start result result' := by
  cases h with
  | ok hread hanswer => exact .ok hread (hle _ _ _ hanswer)
  | error hread hinside => exact .error hread hinside
  | cut hahead hcode => exact .cut hahead hcode

/-- `Outcome` from a later place is one from an earlier place. -/
theorem Outcome.after {result result' : Except Failure (α × Cursor)}
    (hread : start.Reads read middle)
    (h : frame.Outcome (fun more => R (read ++ more)) middle result result') :
    frame.Outcome R start result result' := by
  cases h with
  | ok hmore hanswer => exact .ok (hread.trans hmore) hanswer
  | error hmore hinside => exact .error (hread.trans hmore) hinside
  | cut hahead hcode => exact .cut hahead hcode

/-- The span of a counterpart is the counterpart of the span. -/
theorem Matches.span_node {node node' : Node} (h : frame.Matches node node') :
    (frame.node node).span = frame.span node.span := Node.span_mapSpans _ h.present

/-- `Covers` holds of the end of a span between two offsets of which it does. -/
theorem covers_between {first last : Int} (hfirst : frame.Covers first)
    (hlast : frame.Covers last) : frame.Covers (Span.between first last).stop := by
  obtain ⟨hpos, hle⟩ := hfirst
  obtain ⟨hpos', hle'⟩ := hlast
  rw [Span.between_stop]
  constructor <;> omega

/-- A tree that is read between two offsets of the text `Matches` its counterpart. -/
theorem Matches.of_between {node node' : Node} {first last : Int} (heq : node' = frame.node node)
    (hpresent : node.isAbsent = false) (hspan : node.span = .between first last)
    (hfirst : frame.Covers first) (hlast : frame.Covers last) : frame.Matches node node' := by
  refine ⟨heq, hpresent, ?_, ?_⟩
  · rw [hspan]
    exact hfirst
  · rw [hspan]
    exact covers_between hfirst hlast

/-- The name that a token is `Matches` its counterpart. -/
theorem matches_node {token : Token} (hstart : frame.Covers token.start)
    (hstop : frame.Covers token.stop) : frame.Matches token.node (frame.token token).node :=
  .of_between (by simp [Token.node, Node.mapSpans]) rfl rfl hstart hstop

/-! ## Taking a token -/

section

variable {m : Type → Type} [Monad m] [LawfulMonad m] {next next' : Option Token → StateT Cursor m α}
  {related : m (α × Cursor) → m (α × Cursor) → Prop}

/-- Readers of any kind that begin by taking a wanted token are related outside and inside if they
are with the token and without it. What follows the document must not be wanted. -/
theorem related_accept (frame : Frame) {wanted : Token → Bool}
    (hshift : ∀ token, wanted (frame.token token) = wanted token)
    (hend : start.ahead = [] → ∀ token ∈ frame.ahead.head?, wanted token = false)
    (hnone : related (next none start) (next' none (frame.cursor start)))
    (hsome : ∀ token middle, start.Reads [token] middle → wanted token = true →
      related (next (some token) middle) (next' (some (frame.token token)) (frame.cursor middle))) :
    related ((Rule.accept wanted >>= next) start)
      ((Rule.accept wanted >>= next') (frame.cursor start)) := by
  rw [Rule.run_accept_bind, Rule.run_accept_bind]
  rcases frame.accept_cases hshift hend with ⟨token, middle, hread, hwanted, h, h'⟩ | ⟨-, h, h'⟩
  · rw [h, h']
    exact hsome token middle hread hwanted
  · rw [h, h']
    exact hnone

/-- Readers of any kind that begin by taking a text are related outside and inside if they are with
the token and without it. No statement starts with the text, or the document is not at its end. -/
theorem related_acceptText (frame : Frame) {lexeme : String}
    (h : opensStatement lexeme = false ∨ frame.Inside start)
    (hnone : related (next none start) (next' none (frame.cursor start)))
    (hsome : ∀ token middle, start.Reads [token] middle → token.lexeme = lexeme →
      related (next (some token) middle) (next' (some (frame.token token)) (frame.cursor middle))) :
    related ((Rule.acceptText lexeme >>= next) start)
      ((Rule.acceptText lexeme >>= next') (frame.cursor start)) :=
  -- a token and its counterpart have one text, so what is wanted of one is wanted of the other
  frame.related_accept (fun _ => rfl) (frame.lexeme_beq_eq_false h) hnone
    fun token middle hread htext => hsome token middle hread (beq_iff_eq.mp htext)

end

end Frame

namespace Rule

variable {R : List Token → α → α → Prop} {T : List Token → β → β → Prop}

/-- `>>=` is framed if both of its rules are, one after the other. -/
theorem Framed.bind {rule rule' : Rule α} {next next' : α → Rule β} (hfits : frame.Fits start)
    (h : Framed frame R start rule rule')
    (hnext : ∀ read x x' middle, start.Reads read middle → frame.Fits middle → R read x x' →
      Framed frame (fun more => T (read ++ more)) middle (next x) (next' x')) :
    Framed frame T start (rule >>= next) (rule' >>= next') := by
  unfold Framed at h ⊢
  show frame.Outcome T start (rule start >>= fun (x, middle) => next x middle)
    (rule' (frame.cursor start) >>= fun (x, middle) => next' x middle)
  -- What the first rule does outside and inside is a variable now, which the outcome decides.
  generalize rule start = result at h
  generalize rule' (frame.cursor start) = result' at h
  cases h with
  | ok hread hanswer => exact .after hread (hnext _ _ _ _ hread (hfits.of_reads hread) hanswer)
  | error hread hinside => exact .error hread hinside
  | cut hahead hcode => exact .cut hahead hcode

/-- `pure` is framed if its answers belong together. -/
theorem Framed.pure {x x' : α} (h : R [] x x') :
    Framed frame R start (Pure.pure x) (Pure.pure x') := .ok (.refl start) h

/-- `get` is framed if what is done with the place is. -/
theorem Framed.get {next next' : Cursor → Rule α}
    (h : Framed frame R start (next start) (next' (frame.cursor start))) :
    Framed frame R start (MonadState.get >>= next) (MonadState.get >>= next') := h

/-- `Framed` stays true when less is said of the answers. -/
theorem Framed.mono {S : List Token → α → α → Prop} {rule rule' : Rule α}
    (h : Framed frame R start rule rule') (hle : ∀ read x x', R read x x' → S read x x') :
    Framed frame S start rule rule' := Frame.Outcome.mono h hle

/-- `Framed` holds of rules that answer without reading, if their answers belong together. -/
theorem Framed.of_eq_ok {rule rule' : Rule α} {x x' : α} (h : rule start = .ok (x, start))
    (h' : rule' (frame.cursor start) = .ok (x', frame.cursor start)) (hanswer : R [] x x') :
    Framed frame R start rule rule' := by
  unfold Framed
  rw [h, h']
  exact .ok (.refl start) hanswer

/-- `Framed` holds of a rule that finds no expression, if the other finds none inside the frame,
unless the document ends. -/
theorem Framed.of_unexpected {rule rule' : Rule α} (h : rule start = unexpected start)
    (h' : frame.Inside start → rule' (frame.cursor start) = unexpected (frame.cursor start)) :
    Framed frame R start rule rule' := by
  unfold Framed
  rw [h]
  by_cases hinside : frame.Inside start
  · have heq : (frame.cursor start).unexpected = frame.failure start.unexpected := by
      unfold Cursor.unexpected Frame.failure
      rw [Frame.next?_cursor hinside]
      cases start.next? <;> rfl
    rw [h' hinside, unexpected, unexpected, heq]
    exact .error (.refl start) hinside
  -- The document ends here and other tokens follow inside, which is the exception.
  · obtain ⟨hend, hahead⟩ := Classical.not_imp.mp hinside
    refine .cut hahead ?_
    unfold Cursor.unexpected Cursor.next?
    rw [hend]
    rfl

/-- `Framed` holds of a rule that finds something missing, if the other does inside the frame,
unless the document ends. -/
theorem Framed.of_missing {rule rule' : Rule α} {wanted : Wanted}
    (h : rule start = missing wanted start)
    (h' : frame.Inside start →
      rule' (frame.cursor start) = missing wanted (frame.cursor start)) :
    Framed frame R start rule rule' := by
  unfold Framed
  rw [h]
  by_cases hinside : frame.Inside start
  · have heq : (frame.cursor start).missing wanted = frame.failure (start.missing wanted) := by
      unfold Cursor.missing Frame.failure
      rw [Frame.atEnd_cursor hinside]
    rw [h' hinside, missing, missing, heq]
    exact .error (.refl start) hinside
  · obtain ⟨hend, hahead⟩ := Classical.not_imp.mp hinside
    refine .cut hahead ?_
    unfold Cursor.missing Cursor.atEnd
    rw [hend]
    rfl

/-- `accept` before a rule is framed, if what follows the document is not wanted or nothing does. -/
theorem Framed.accept {wanted : Token → Bool} {next next' : Option Token → Rule α}
    (hshift : ∀ token, wanted (frame.token token) = wanted token)
    (hend : start.ahead = [] → ∀ token ∈ frame.ahead.head?, wanted token = false)
    (hfits : frame.Fits start)
    (hnone : Framed frame R start (next none) (next' none))
    (hsome : ∀ token middle, start.Reads [token] middle → frame.Fits middle →
      wanted token = true → Framed frame (fun more => R (token :: more)) middle
        (next (some token)) (next' (some (frame.token token)))) :
    Framed frame R start (Rule.accept wanted >>= next) (Rule.accept wanted >>= next') :=
  frame.related_accept hshift hend hnone fun token middle hread hwanted =>
    .after hread (hsome token middle hread (hfits.of_reads hread) hwanted)

/-- `acceptText` before a rule is framed, if no statement starts with the text or the document is
not at its end. -/
theorem Framed.acceptText {lexeme : String} {next next' : Option Token → Rule α}
    (h : opensStatement lexeme = false ∨ frame.Inside start) (hfits : frame.Fits start)
    (hnone : Framed frame R start (next none) (next' none))
    (hsome : ∀ token middle, start.Reads [token] middle → frame.Fits middle →
      token.lexeme = lexeme → Framed frame (fun more => R (token :: more)) middle
        (next (some token)) (next' (some (frame.token token)))) :
    Framed frame R start (Rule.acceptText lexeme >>= next) (Rule.acceptText lexeme >>= next') :=
  frame.related_acceptText h hnone fun token middle hread htext =>
    .after hread (hsome token middle hread (hfits.of_reads hread) htext)

/-- `require` fails where the token that is next is not accepted. -/
theorem require_of_not_accepted {accepted : Token → Bool} {wanted : Wanted}
    (h : ∀ token ∈ start.ahead.head?, accepted token = false) :
    require accepted wanted start = missing wanted start := by
  unfold require
  rw [Rule.bind_of_eq_ok (accept_of_not_wanted h)]

/-- `require` is framed. -/
theorem framed_require {accepted : Token → Bool} (wanted : Wanted)
    (hshift : ∀ token, accepted (frame.token token) = accepted token) (hfits : frame.Fits start) :
    Framed frame (frame.IsToken accepted) start (require accepted wanted)
      (require accepted wanted) := by
  by_cases hend : start.ahead = []
  · -- What follows the document may be accepted inside, so the end of it is a case of its own.
    have hnone : ∀ token ∈ start.ahead.head?, accepted token = false := by
      rw [hend]
      rintro _ ⟨⟩
    refine .of_missing (require_of_not_accepted hnone) fun hinside => require_of_not_accepted ?_
    unfold Frame.cursor
    rw [hend, hinside hend]
    rintro _ ⟨⟩
  · refine .accept hshift (absurd · hend) hfits ?_ ?_
    · exact .of_missing rfl fun _ => rfl
    · intro token middle hread hfits haccepted
      exact .pure ⟨rfl, rfl, haccepted⟩

/-- `expect` is framed. -/
theorem framed_expect (lexeme : String) (wanted : Wanted) (hfits : frame.Fits start) :
    Framed frame (frame.IsToken (·.lexeme == lexeme)) start (expect lexeme wanted)
      (expect lexeme wanted) := framed_require wanted (fun _ => rfl) hfits

/-- `name` is framed. -/
theorem framed_name (wanted : Wanted) (hfits : frame.Fits start) :
    Framed frame frame.IsNode start (name wanted) (name wanted) := by
  refine .bind hfits (framed_require wanted (fun _ => rfl) hfits) ?_
  rintro _ token _ middle hread hfits' ⟨rfl, rfl, -⟩
  obtain ⟨hstart, hstop⟩ := hfits.covered_of_reads hread
  exact .pure (Frame.matches_node hstart hstop)

/-- `sees` before a rule is framed, if no statement starts with the text. -/
theorem Framed.sees {lexeme : String} {next next' : Bool → Rule α}
    (hlexeme : opensStatement lexeme = false)
    (hnext : ∀ seen, seen = start.sees lexeme → Framed frame R start (next seen) (next' seen)) :
    Framed frame R start (Rule.sees lexeme >>= next) (Rule.sees lexeme >>= next') := by
  have hsees := frame.sees_cursor hlexeme start
  have h := hnext _ rfl
  unfold Framed at h ⊢
  rw [Rule.bind_of_eq_ok (Rule.sees_eq_ok_iff.mpr ⟨rfl, rfl⟩),
    Rule.bind_of_eq_ok (Rule.sees_eq_ok_iff.mpr ⟨rfl, rfl⟩), hsees]
  exact h

end Rule

end NeutronLang
