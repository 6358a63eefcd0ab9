import NeutronLang.Proofs.FramedBodies

/-!
# Statements inside a frame

Statements are read inside a frame as outside, with their errors and all that is recorded about
them. Unless the document ends too early its last token is a semicolon, and where a statement goes
on after one it cannot be at the end of the document without an error or an open body. So a reader
never stands at that end but between the statements of the document itself: what follows the
document inside the frame is neither read nor looked at by any of its statements, and recovery stops
before it since a statement can start there.
-/

namespace NeutronLang.Grammar

variable {frame : Frame} {start middle stop : Cursor} {read : List Token}
  {bound bound' count count' : Nat} {lineEnd lineEnd' : Int → Int}

/-! ## Declarations -/

/-- The answers are a tree, or `Node.absent`, and its counterpart. -/
def IsOptional (frame : Frame) (_ : List Token) (node node' : Node) : Prop :=
  node' = frame.node node ∧ (node = .absent ∨ frame.Matches node node')

/-- `IsOptional` holds of no tree and no tree. -/
theorem isOptional_absent : IsOptional frame read .absent .absent :=
  ⟨by rw [Frame.node, Node.mapSpans], .inl rfl⟩

/-- `IsOptional` holds of a tree and its counterpart. -/
theorem isOptional_of_matches {node node' : Node} (h : frame.Matches node node') :
    IsOptional frame read node node' := ⟨h.eq, .inr h⟩

/-- The parts of a declaration and their counterparts; the trees among them are as `Frame.Matches`
has it. -/
structure MatchesBinding (frame : Frame) (found found' : Binding) : Prop where
  eq : found' = ⟨found.start + frame.distance, found.type, frame.node found.name,
    frame.node found.init⟩
  start : frame.Covers found.start
  name : frame.Matches found.name (frame.node found.name)
  init : found.init = .absent ∨ frame.Matches found.init (frame.node found.init)

/-- The answers are the parts of a declaration and their counterparts (`MatchesBinding`). -/
def IsBinding (frame : Frame) (_ : List Token) (found found' : Binding) : Prop :=
  MatchesBinding frame found found'

/-- A declaration without its semicolon ends in the text, and inside the frame where it ends
outside. -/
theorem MatchesBinding.span_stop {found found' : Binding}
    (h : MatchesBinding frame found found') :
    found'.span.stop = found.span.stop + frame.distance ∧ frame.Covers found.span.stop := by
  obtain ⟨rfl, hstart, hname, hinit⟩ := h
  unfold Binding.span
  dsimp only
  rcases hinit with habsent | hinit
  · rw [habsent, Frame.node, Node.mapSpans]
    simp only [Node.isAbsent, if_true]
    rw [hname.span_node]
    refine ⟨?_, Frame.covers_between hstart hname.stop⟩
    rw [frame.span_stop, ← Span.shift_between]
    rfl
  · have hpresent : (frame.node found.init).isAbsent = false := by
      rw [Node.isAbsent_mapSpans, hinit.present]
    rw [hpresent, hinit.present, if_neg (by simp), if_neg (by simp), hinit.span_node]
    refine ⟨?_, Frame.covers_between hstart hinit.stop⟩
    rw [frame.span_stop, ← Span.shift_between]
    rfl

/-- A declaration has its counterpart, if the offset where it ends lies in the text. -/
theorem MatchesBinding.node {found found' : Binding} {offset : Int}
    (h : MatchesBinding frame found found') (hoffset : frame.Covers offset) :
    frame.Matches (found.node offset) (found'.node (offset + frame.distance)) := by
  obtain ⟨rfl, hstart, -, -⟩ := h
  refine .of_between ?_ rfl rfl hstart hoffset
  simp [Binding.node, Node.mapSpans]

/-- `initialValue` is the same inside a frame. -/
theorem initialValue_framed (hfits : frame.Fits start) :
    Rule.Framed frame (IsOptional frame) start initialValue initialValue := by
  refine .acceptText (.inl (by decide)) hfits (.pure isOptional_absent) ?_
  intro sign middle hread hfits _
  refine (expression_framed hfits).mono ?_
  rintro read node node' ⟨-, hnode⟩
  exact isOptional_of_matches hnode

/-- `isTypeName` is false for a token with whose text a statement can start. -/
theorem not_isTypeName {token : Token} (h : opensStatement token.lexeme = true) :
    isTypeName token = false := by
  have hall : ∀ lexeme ∈ typeKeywords, opensStatement lexeme = false := by decide
  rw [Bool.eq_false_iff]
  intro htype
  have hmem := List.contains_iff_mem.mp (Bool.and_eq_true_iff.mp htype).2
  rw [hall _ hmem] at h
  cases h

/-- `binding` is the same inside a frame. -/
theorem binding_framed {keyword : Token} (hkeyword : frame.Covers keyword.start)
    (hfits : frame.Fits start) :
    Rule.Framed frame (IsBinding frame) start (binding keyword)
      (binding (frame.token keyword)) := by
  have hafter {middle : Cursor} (type : Option String) (hfits : frame.Fits middle) :
      Rule.Framed frame (IsBinding frame) middle
        (do
          let name ← Rule.name .variableName
          let init ← initialValue
          return ⟨keyword.start, type, name, init⟩)
        (do
          let name ← Rule.name .variableName
          let init ← initialValue
          return ⟨(frame.token keyword).start, type, name, init⟩) := by
    refine .bind hfits (Rule.framed_name .variableName hfits) ?_
    intro read name name' middle hread hfits hname
    refine .bind hfits (initialValue_framed hfits) ?_
    rintro read init init' middle hread hfits ⟨rfl, hinit⟩
    obtain rfl : name' = frame.node name := hname.eq
    exact .pure ⟨rfl, hkeyword, hname, hinit⟩
  refine .accept (fun _ => rfl) (fun _ token htoken => ?_) hfits (hafter none hfits) ?_
  · exact not_isTypeName (frame.opens token htoken).2
  · intro type middle hread hfits _
    exact hafter (some type.lexeme) hfits

/-- `declaration` is the same inside a frame. -/
theorem declaration_framed (hlines : KeepsLines frame lineEnd lineEnd') {keyword : Token}
    (hkeyword : frame.Covers keyword.start) (hfits : frame.Fits start) :
    Attempt.Framed frame frame.IsNode start (declaration lineEnd keyword)
      (declaration lineEnd' (frame.token keyword)) := by
  refine .bind hfits (Attempt.framed_of_rule (binding_framed hkeyword hfits)) ?_
  intro read found found' middle hread hfits hfound
  obtain ⟨hstop, hcovers⟩ := MatchesBinding.span_stop hfound
  rw [hstop]
  refine .bind hfits
    (Attempt.framed_of_reader (terminate_framed hlines .variableDeclaration hcovers hfits)) ?_
  rintro read offset _ middle hread hfits ⟨rfl, hoffset⟩
  exact .pure (MatchesBinding.node hfound hoffset)
/-! ## Constructs that end with a body -/

/-- The body that a construct ends with is the same inside a frame, and so is the construct, if its
node is the counterpart of the other's wherever the bodies are. -/
theorem bodyLast_framed {body body' : Recovering Body}
    (hbody : BodyFramed frame bound bound' body body') (hfits : frame.Fits start)
    (hbounds : frame.Within bound bound' start) (hmidway : Midway frame start) {first : Int}
    (hfirst : frame.Covers first) {node node' : Body → Node}
    (hspan : ∀ found, (node found).span = .between first found.span.stop)
    (hpresent : ∀ found, (node found).isAbsent = false)
    (hnode : ∀ found found', MatchesBody frame found found' →
      node' found' = frame.node (node found)) :
    Attempt.Framed frame frame.IsNode start
      (do
        let found ← body
        return node found)
      (do
        let found ← body'
        return node' found) := by
  refine .bind hfits (Attempt.framed_of_reader (hbody start hfits hbounds hmidway)) ?_
  intro read found found' middle hread hfits hfound
  have hfound : MatchesBody frame found found' := hfound
  exact .pure (.of_between (hnode found found' hfound) (hpresent found) (hspan found) hfirst
    hfound.stop)

/-! ## Functions and classes -/

/-- `parameter` is the same inside a frame, whether it reads a name or not. -/
theorem parameter_framed (hfits : frame.Fits start) (hinside : frame.Inside start) :
    Rule.Framed frame frame.AreNodes start parameter parameter := by
  refine .accept (fun _ => rfl) (fun hend token htoken => ?_) hfits (.pure rfl) ?_
  · rw [hinside hend] at htoken
    cases htoken
  · intro token middle hread hfits' _
    obtain ⟨hstart, hstop⟩ := hfits.covered_of_reads hread
    have hnode := Frame.matches_node hstart hstop
    refine .pure ?_
    show [(frame.token token).node] = [frame.node token.node]
    rw [hnode.eq]

/-- `moreParameters` reads nothing without a comma. -/
theorem moreParameters_of_no_comma (count : Nat)
    (h : ∀ token ∈ start.ahead.head?, token.lexeme ≠ ",") :
    moreParameters count start = .ok ([], start) := by
  cases count with
  | zero => rfl
  | succ count =>
    unfold moreParameters
    rw [Rule.bind_of_eq_ok (Rule.acceptText_of_ne h)]
    rfl

/-- `moreParameters` is the same inside a frame. -/
theorem moreParameters_framed (hfits : frame.Fits start)
    (hcounts : frame.Within count count' start) :
    Rule.Framed frame frame.AreNodes start (moreParameters count) (moreParameters count') := by
  induction hcounts using Frame.Within.induct with
  | atEnd _ hend =>
    exact .of_eq_ok (moreParameters_of_no_comma _ (head?_ne_of_end hend))
      (moreParameters_of_no_comma _ (Frame.ahead_lexeme_ne hend (by decide))) rfl
  | step hcounts hend ih =>
    refine .acceptText (.inl (by decide)) hfits (.pure rfl) ?_
    intro comma middle hread hfits' hcomma
    have hinside := hfits.inside_of_reads hread (by rw [hcomma]; decide)
    have hcounts := hcounts.of_reads_token hread
    refine .bind hfits' (parameter_framed hfits' hinside) ?_
    rintro read first _ middle hread hfits rfl
    have hcounts := hcounts.of_reads hread
    refine .bind hfits (ih hcounts hfits) ?_
    rintro read more _ middle hread hfits rfl
    exact .pure List.map_append.symm

/-- `parameters` is the same inside a frame. -/
theorem parameters_framed (hfits : frame.Fits start) (hcounts : frame.Within bound bound' start)
    (hinside : frame.Inside start) :
    Rule.Framed frame frame.AreNodes start (parameters bound) (parameters bound') := by
  refine .sees (by decide) fun seen _ => ?_
  cases seen with
  | true => exact .pure rfl
  | false =>
    refine .bind hfits (parameter_framed hfits hinside) ?_
    rintro read first _ middle hread hfits rfl
    refine .bind hfits (moreParameters_framed hfits (hcounts.of_reads hread)) ?_
    rintro read more _ middle hread hfits rfl
    exact .pure List.map_append.symm

/-- `functionStatement` is the same inside a frame. -/
theorem functionStatement_framed {body body' : Recovering Body}
    (hbody : BodyFramed frame bound bound' body body') {keyword : Token}
    (hkeyword : frame.Covers keyword.start) (hfits : frame.Fits start)
    (hbounds : frame.Within bound bound' start) :
    Attempt.Framed frame frame.IsNode start (functionStatement bound body keyword)
      (functionStatement bound' body' (frame.token keyword)) := by
  refine .bind hfits (Attempt.framed_of_rule (Rule.framed_name .functionName hfits)) ?_
  intro read name name' middle hread hfits hname
  have hbounds := hbounds.of_reads hread
  refine .bind hfits
    (Attempt.framed_of_rule (Rule.framed_expect "(" .functionOpenParen hfits)) ?_
  rintro _ opening _ middle hread hfits' ⟨rfl, rfl, hopening⟩
  -- the last token of the document is a semicolon if more follows it, so here it goes on
  have hinside := hfits.inside_of_reads hread (by rw [beq_iff_eq.mp hopening]; decide)
  have hbounds := hbounds.of_reads hread
  refine .bind hfits' (Attempt.framed_of_rule (parameters_framed hfits' hbounds hinside)) ?_
  rintro read params _ middle hread hfits rfl
  have hbounds := hbounds.of_reads hread
  refine .bind hfits
    (Attempt.framed_of_rule (Rule.framed_expect ")" .parametersCloseParen hfits)) ?_
  rintro _ closing _ middle hread hfits' ⟨rfl, rfl, hclosing⟩
  have hmidway := midway_of_reads hfits hread (by rw [beq_iff_eq.mp hclosing]; decide)
  have hbounds := hbounds.of_reads hread
  refine bodyLast_framed hbody hfits' hbounds hmidway hkeyword (fun _ => rfl) (fun _ => rfl) ?_
  intro found found' hfound
  rw [hfound.node.eq, hname.eq, hfound.eq]
  simp [Node.mapSpans]

/-- `classBodyAhead` sees the opening brace of a class inside a frame where it does outside. -/
theorem classBodyAhead_framed :
    Rule.Framed frame (fun read _ _ => read = [] ∧ start.ahead ≠ []) start classBodyAhead
      classBodyAhead := by
  refine .sees (by decide) fun seen hseen => ?_
  cases seen with
  | true =>
    refine .pure ⟨rfl, fun hend => ?_⟩
    unfold Cursor.sees at hseen
    rw [Cursor.next?, hend] at hseen
    cases hseen
  | false => exact .of_missing rfl fun _ => rfl

/-- `classStatement` is the same inside a frame. -/
theorem classStatement_framed {body body' : Recovering Body}
    (hbody : BodyFramed frame bound bound' body body') {keyword : Token}
    (hkeyword : frame.Covers keyword.start) (hfits : frame.Fits start)
    (hbounds : frame.Within bound bound' start) (hbehind : start.behind ≠ []) :
    Attempt.Framed frame frame.IsNode start (classStatement body keyword)
      (classStatement body' (frame.token keyword)) := by
  refine .bind hfits (Attempt.framed_of_rule (Rule.framed_name .className hfits)) ?_
  intro read name name' middle hread hfits hname
  have hbounds := hbounds.of_reads hread
  have hbehind := behind_ne_of_reads hbehind hread
  refine .bind hfits (Attempt.framed_of_rule classBodyAhead_framed) ?_
  rintro _ _ _ last hread hfits ⟨rfl, hahead⟩
  obtain rfl := hread.eq_of_nil
  have hmidway : Midway frame last := ⟨fun hend => absurd hend hahead, hbehind⟩
  refine bodyLast_framed hbody hfits hbounds hmidway hkeyword (fun _ => rfl) (fun _ => rfl) ?_
  intro found found' hfound
  rw [hfound.node.eq, hname.eq, hfound.eq]
  simp [Node.mapSpans]

/-! ## Control flow -/

/-- From each place within two pairs of bounds, one for bodies and one for the alternatives,
`alternate` does outside what `alternate'` does inside. -/
def AlternateFramed (frame : Frame) (bound bound' count count' : Nat)
    (alternate alternate' : Attempt Node) : Prop :=
  ∀ start, frame.Fits start → frame.Within bound bound' start → frame.Within count count' start →
    Attempt.Framed frame (IsOptional frame) start alternate alternate'

/-- `conditional` is the same inside a frame, if what follows its body is. -/
theorem conditional_framed {alternate alternate' : Attempt Node} {body body' : Recovering Body}
    (halternate : AlternateFramed frame bound bound' count count' alternate alternate')
    (hbody : BodyFramed frame bound bound' body body') {keyword : Token}
    (hkeyword : frame.Covers keyword.start) (hfits : frame.Fits start)
    (hbounds : frame.Within bound bound' start) (hcounts : frame.Within count count' start) :
    Attempt.Framed frame frame.IsNode start (conditional alternate body keyword)
      (conditional alternate' body' (frame.token keyword)) := by
  refine .bind hfits
    (Attempt.framed_of_rule (Rule.framed_expect "(" (.openParen keyword.lexeme) hfits)) ?_
  rintro _ opening _ middle hread hfits ⟨rfl, rfl, -⟩
  have hbounds := hbounds.of_reads hread
  have hcounts := hcounts.of_reads hread
  refine .bind hfits (Attempt.framed_of_rule (expression_framed hfits)) ?_
  rintro read test test' middle hread hfits ⟨-, htest⟩
  have hbounds := hbounds.of_reads hread
  have hcounts := hcounts.of_reads hread
  refine .bind hfits (Attempt.framed_of_rule (Rule.framed_expect ")" .ifCloseParen hfits)) ?_
  rintro _ closing _ middle hread hfits' ⟨rfl, rfl, hclosing⟩
  have hmidway := midway_of_reads hfits hread (by rw [beq_iff_eq.mp hclosing]; decide)
  have hbounds := hbounds.of_reads hread
  have hcounts := hcounts.of_reads hread
  refine .bind hfits' (Attempt.framed_of_reader (hbody middle hfits' hbounds hmidway)) ?_
  intro read found found' middle hread hfits hfound
  have hfound : MatchesBody frame found found' := hfound
  have hbounds := hbounds.of_reads hread
  have hcounts := hcounts.of_reads hread
  refine .bind hfits (halternate middle hfits hbounds hcounts) ?_
  rintro read last _ middle hread hfits ⟨rfl, hlast⟩
  refine .pure ?_
  rw [hfound.node.eq, htest.eq, hfound.eq]
  -- the span ends where the alternative does, or the body if there is no alternative
  rcases hlast with rfl | hlast
  · refine .of_between ?_ rfl rfl hkeyword hfound.stop
    simp [Node.mapSpans, Node.isAbsent]
  · refine .of_between ?_ rfl rfl hkeyword ?_
    · simp [Node.mapSpans, hlast.present, hlast.span_node]
    · rw [hlast.present]
      exact hlast.stop

/-- `alternate` reads nothing where neither word for an alternative is next. -/
theorem alternate_of_ne {body : Recovering Body} {count : Nat}
    (helse : ∀ token ∈ start.ahead.head?, token.lexeme ≠ "else")
    (helif : ∀ token ∈ start.ahead.head?, token.lexeme ≠ "elif") :
    (alternate body count start).run = ⟨.ok (.absent, start), []⟩ := by
  cases count with
  | zero => rfl
  | succ count =>
    unfold alternate
    rw [Attempt.acceptText_bind_of_ne helse]
    dsimp only
    rw [Attempt.acceptText_bind_of_ne helif]
    rfl

/-- `alternate` is the same inside a frame. -/
theorem alternate_framed {body body' : Recovering Body}
    (hbody : BodyFramed frame bound bound' body body') (count count' : Nat) :
    AlternateFramed frame bound bound' count count' (alternate body count)
      (alternate body' count') := by
  intro start hfits hbounds hcounts
  induction hcounts using Frame.Within.induct with
  | @atEnd _ _ start _ hend =>
    -- at the end of the document nothing is next outside, and inside what starts a statement
    have hnone : Attempt.Framed frame (IsOptional frame) start (pure .absent) (pure .absent) :=
      .pure isOptional_absent
    unfold Attempt.Framed at hnone ⊢
    rw [alternate_of_ne (head?_ne_of_end hend) (head?_ne_of_end hend),
      alternate_of_ne (Frame.ahead_lexeme_ne hend (by decide))
        (Frame.ahead_lexeme_ne hend (by decide))]
    exact hnone
  | @step count count' _ hcounts hend ih =>
    have hlater : AlternateFramed frame bound bound' count count' (alternate body count)
        (alternate body' count') := fun _ hfits hbounds hcounts => ih hcounts hfits hbounds
    have hconditional {last : Cursor} {keyword : Token} (hkeyword : frame.Covers keyword.start)
        (hfits : frame.Fits last) (hbounds : frame.Within bound bound' last)
        (hcounts : frame.Within count count' last) :
        Attempt.Framed frame (IsOptional frame) last
          (conditional (alternate body count) body keyword)
          (conditional (alternate body' count') body' (frame.token keyword)) :=
      (conditional_framed hlater hbody hkeyword hfits hbounds hcounts).mono
        fun _ _ _ h => isOptional_of_matches h
    refine .acceptText (.inl (by decide)) hfits ?_ ?_
    · refine .acceptText (.inl (by decide)) hfits (.pure isOptional_absent) ?_
      intro keyword middle hread hfits' _
      exact hconditional (hfits.covered_of_reads hread).1 hfits' (hbounds.of_reads hread)
        (hcounts.of_reads_token hread)
    · intro word middle hread hfits' hword
      have hmidway := midway_of_reads hfits hread (by rw [hword]; decide)
      have hbounds := hbounds.of_reads hread
      have hcounts := hcounts.of_reads_token hread
      -- a statement may start with the second word, but behind the first one the document goes on
      refine .acceptText (.inr hmidway.inside) hfits' ?_ ?_
      · refine .bind hfits' (Attempt.framed_of_reader (hbody middle hfits' hbounds hmidway)) ?_
        intro read found found' middle hread hfits hfound
        exact .pure (isOptional_of_matches (MatchesBody.node hfound))
      · intro keyword last hread hfits _
        exact hconditional (hfits'.covered_of_reads hread).1 hfits (hbounds.of_reads hread)
          (hcounts.of_reads hread)

/-- `ifStatement` is the same inside a frame. -/
theorem ifStatement_framed {body body' : Recovering Body}
    (hbody : BodyFramed frame bound bound' body body') {keyword : Token}
    (hkeyword : frame.Covers keyword.start) (hfits : frame.Fits start)
    (hbounds : frame.Within bound bound' start) :
    Attempt.Framed frame frame.IsNode start (ifStatement bound body keyword)
      (ifStatement bound' body' (frame.token keyword)) :=
  conditional_framed (alternate_framed hbody bound bound') hbody hkeyword hfits hbounds hbounds

/-- `whileStatement` is the same inside a frame. -/
theorem whileStatement_framed {body body' : Recovering Body}
    (hbody : BodyFramed frame bound bound' body body') {keyword : Token}
    (hkeyword : frame.Covers keyword.start) (hfits : frame.Fits start)
    (hbounds : frame.Within bound bound' start) :
    Attempt.Framed frame frame.IsNode start (whileStatement body keyword)
      (whileStatement body' (frame.token keyword)) := by
  refine .bind hfits
    (Attempt.framed_of_rule (Rule.framed_expect "(" (.openParen "while") hfits)) ?_
  rintro _ opening _ middle hread hfits ⟨rfl, rfl, -⟩
  have hbounds := hbounds.of_reads hread
  refine .bind hfits (Attempt.framed_of_rule (expression_framed hfits)) ?_
  rintro read test test' middle hread hfits ⟨-, htest⟩
  have hbounds := hbounds.of_reads hread
  refine .bind hfits (Attempt.framed_of_rule (Rule.framed_expect ")" .whileCloseParen hfits)) ?_
  rintro _ closing _ middle hread hfits' ⟨rfl, rfl, hclosing⟩
  have hmidway := midway_of_reads hfits hread (by rw [beq_iff_eq.mp hclosing]; decide)
  have hbounds := hbounds.of_reads hread
  refine bodyLast_framed hbody hfits' hbounds hmidway hkeyword (fun _ => rfl) (fun _ => rfl) ?_
  intro found found' hfound
  rw [hfound.node.eq, htest.eq, hfound.eq]
  simp [Node.mapSpans]

/-- `optionalClause` is the same inside a frame, if its clause is. -/
theorem optionalClause_framed {R : List Token → Node → Node → Prop} {close : String}
    {clause clause' : Rule Node} (hclose : opensStatement close = false)
    (h : Rule.Framed frame R start clause clause')
    (hmatches : ∀ read node node', R read node node' → frame.Matches node node') :
    Rule.Framed frame (IsOptional frame) start (optionalClause close clause)
      (optionalClause close clause') := by
  refine .sees hclose fun seen _ => ?_
  cases seen with
  | true => exact .pure isOptional_absent
  | false => exact h.mono fun read node node' hnode => isOptional_of_matches (hmatches _ _ _ hnode)

/-- `loopInit` is the same inside a frame. -/
theorem loopInit_framed (hfits : frame.Fits start) (hinside : frame.Inside start) :
    Rule.Framed frame frame.IsNode start loopInit loopInit := by
  refine .acceptText (.inr hinside) hfits ?_ ?_
  · exact (expressionOrAssignment_framed hfits).mono fun _ _ _ h => h.2
  · intro keyword middle hread hfits' _
    refine .bind hfits' (binding_framed (hfits.covered_of_reads hread).1 hfits') ?_
    intro read found found' middle hread hfits hfound
    obtain ⟨hstop, hcovers⟩ := MatchesBinding.span_stop hfound
    refine .pure ?_
    rw [hstop]
    exact MatchesBinding.node hfound hcovers

/-- `forStatement` is the same inside a frame. -/
theorem forStatement_framed {body body' : Recovering Body}
    (hbody : BodyFramed frame bound bound' body body') {keyword : Token}
    (hkeyword : frame.Covers keyword.start) (hfits : frame.Fits start)
    (hbounds : frame.Within bound bound' start) :
    Attempt.Framed frame frame.IsNode start (forStatement body keyword)
      (forStatement body' (frame.token keyword)) := by
  refine .bind hfits
    (Attempt.framed_of_rule (Rule.framed_expect "(" (.openParen "for") hfits)) ?_
  rintro _ opening _ middle hread hfits' ⟨rfl, rfl, hopening⟩
  -- a statement may start with the word of a declaration, so the document must not end here
  have hinside := hfits.inside_of_reads hread (by rw [beq_iff_eq.mp hopening]; decide)
  have hbounds := hbounds.of_reads hread
  have hinit := optionalClause_framed (by decide : opensStatement ";" = false)
    (loopInit_framed hfits' hinside) fun _ _ _ h => h
  refine .bind hfits' (Attempt.framed_of_rule hinit) ?_
  rintro read init _ middle hread hfits ⟨rfl, -⟩
  have hbounds := hbounds.of_reads hread
  refine .bind hfits (Attempt.framed_of_rule (Rule.framed_expect ";" .initSemicolon hfits)) ?_
  rintro _ first _ middle hread hfits ⟨rfl, rfl, -⟩
  have hbounds := hbounds.of_reads hread
  have htest := optionalClause_framed (by decide : opensStatement ";" = false)
    (expression_framed hfits) fun _ _ _ h => h.2
  refine .bind hfits (Attempt.framed_of_rule htest) ?_
  rintro read test _ middle hread hfits ⟨rfl, -⟩
  have hbounds := hbounds.of_reads hread
  refine .bind hfits (Attempt.framed_of_rule (Rule.framed_expect ";" .testSemicolon hfits)) ?_
  rintro _ second _ middle hread hfits ⟨rfl, rfl, -⟩
  have hbounds := hbounds.of_reads hread
  have hupdate := optionalClause_framed (by decide : opensStatement ")" = false)
    (expressionOrAssignment_framed hfits) fun _ _ _ h => h.2
  refine .bind hfits (Attempt.framed_of_rule hupdate) ?_
  rintro read update _ middle hread hfits ⟨rfl, -⟩
  have hbounds := hbounds.of_reads hread
  refine .bind hfits (Attempt.framed_of_rule (Rule.framed_expect ")" .forCloseParen hfits)) ?_
  rintro _ closing _ middle hread hfits' ⟨rfl, rfl, hclosing⟩
  have hmidway := midway_of_reads hfits hread (by rw [beq_iff_eq.mp hclosing]; decide)
  have hbounds := hbounds.of_reads hread
  refine bodyLast_framed hbody hfits' hbounds hmidway hkeyword (fun _ => rfl) (fun _ => rfl) ?_
  intro found found' hfound
  rw [hfound.node.eq, hfound.eq]
  simp [Node.mapSpans]

/-- `returnStatement` is the same inside a frame. -/
theorem returnStatement_framed {keyword : Token} (hfits : frame.Fits start)
    (hread : start.Reads [keyword] middle) (hkeyword : keyword.lexeme = "return") :
    Rule.Framed frame frame.IsNode middle (returnStatement start)
      (returnStatement (frame.cursor start)) := by
  have hmidway := midway_of_reads hfits hread (by rw [hkeyword]; decide)
  have hfits' := hfits.of_reads hread
  have hinside : frame.Inside start := fun hend => by
    have hahead := hread.ahead
    rw [hend] at hahead
    cases hahead
  have hends : returnEnds (frame.cursor middle) = returnEnds middle := by
    unfold returnEnds
    rw [Frame.atEnd_cursor hmidway.inside, frame.sees_cursor (by decide),
      frame.sees_cursor (by decide)]
  -- the span goes to the token read last, with which a return ends with a semicolon or without
  have hlast {last : Cursor} {more : List Token} {argument : Node}
      (hmore : start.Reads (keyword :: more) last) :
      frame.Matches (.returnStatement (start.spanTo last) argument)
        (.returnStatement ((frame.cursor start).spanTo (frame.cursor last))
          (frame.node argument)) := by
    have hbehind : last.behind ≠ [] := by
      rw [hmore.behind]
      simp
    obtain ⟨hspan, hfirst, hlast⟩ := spanTo_cursor hfits hinside hmore hbehind
    refine ⟨?_, rfl, hfirst, hlast⟩
    rw [hspan]
    simp [Node.mapSpans]
  -- so what is left to read is the same for every argument
  have hrest (argument : Node) (read : List Token) (place : Cursor)
      (hread' : middle.Reads read place) (hfits : frame.Fits place) :
      Rule.Framed frame frame.IsNode place
        (do
          let _ ← Rule.acceptText ";"
          return .returnStatement (start.spanTo (← get)) argument)
        (do
          let _ ← Rule.acceptText ";"
          return .returnStatement ((frame.cursor start).spanTo (← get)) (frame.node argument)) := by
    have hplace := hread.cons hread'
    refine .acceptText (.inl (by decide)) hfits (.get (.pure (hlast hplace))) ?_
    intro semicolon last hsemicolon hfits _
    exact .get (.pure (hlast (hplace.trans hsemicolon)))
  refine .get ?_
  rw [hends]
  dsimp only
  cases returnEnds middle with
  | true =>
    have habsent : frame.node .absent = .absent := by rw [Frame.node, Node.mapSpans]
    have hreturn := hrest .absent [] middle (.refl middle) hfits'
    rw [habsent] at hreturn
    exact hreturn
  | false =>
    refine .bind hfits' (expression_framed hfits') ?_
    rintro read argument _ place hread hfits ⟨-, ⟨rfl, -, -, -⟩⟩
    exact hrest argument read place hread hfits

/-- `expressionStatement` is the same inside a frame. -/
theorem expressionStatement_framed (hlines : KeepsLines frame lineEnd lineEnd')
    (hfits : frame.Fits start) :
    Attempt.Framed frame (IsPhrase frame) start (expressionStatement lineEnd)
      (expressionStatement lineEnd') := by
  refine .bind hfits (Attempt.framed_of_rule (expressionOrAssignment_framed hfits)) ?_
  rintro read node node' middle hread hfits ⟨hne, hnode⟩
  obtain rfl : node' = frame.node node := hnode.eq
  have hphrase (more : List Token) : read ++ more ≠ [] := List.append_ne_nil_of_left_ne_nil hne more
  have hexpression : Attempt.Framed frame (fun more => IsPhrase frame (read ++ more)) middle
      (do
        let stop ← terminate lineEnd .statement node.span.stop
        return .expressionStatement (.between node.span.start stop) node)
      (do
        let stop ← terminate lineEnd' .statement (frame.node node).span.stop
        return .expressionStatement (.between (frame.node node).span.start stop)
          (frame.node node)) := by
    rw [hnode.span_node, frame.span_start, frame.span_stop]
    refine .bind hfits
      (Attempt.framed_of_reader (terminate_framed hlines .statement hnode.stop hfits)) ?_
    rintro more offset _ last hread hfits ⟨rfl, hoffset⟩
    refine .pure ⟨hphrase _, .of_between ?_ rfl rfl hnode.start hoffset⟩
    simp [Node.mapSpans]
  -- an assignment is not wrapped in a statement but takes the semicolon into its own span
  cases node with
  | assignment span operator target value =>
    have heq : frame.node (.assignment span operator target value) =
        .assignment (frame.span span) operator (frame.node target) (frame.node value) := by
      simp [Node.mapSpans]
    have hspan := hnode.span_node
    rw [heq] at hspan ⊢
    have hstop : (frame.span span).stop = span.stop + frame.distance := rfl
    dsimp only
    rw [hstop]
    refine .bind hfits
      (Attempt.framed_of_reader (terminate_framed hlines .assignment hnode.stop hfits)) ?_
    rintro more offset _ last hread hfits ⟨rfl, hoffset⟩
    refine .pure ⟨hphrase _, .of_between ?_ rfl rfl hnode.start hoffset⟩
    simp [Node.mapSpans]
  | _ => exact hexpression
/-! ## Statements -/

/-- `keywordStatement?` selects a reader that does outside the frame what the one inside does. -/
theorem keywordStatement?_framed (hlines : KeepsLines frame lineEnd lineEnd')
    {body body' : Recovering Body} (hbody : BodyFramed frame bound bound' body body')
    {keyword : Token} (hfits : frame.Fits start) (hread : start.Reads [keyword] middle)
    (hbounds : frame.Within bound bound' middle) :
    (keywordStatement? lineEnd bound body start keyword = none ∧
      keywordStatement? lineEnd' bound' body' (frame.cursor start) (frame.token keyword) = none) ∨
    ∃ rest rest', keywordStatement? lineEnd bound body start keyword = some rest ∧
      keywordStatement? lineEnd' bound' body' (frame.cursor start) (frame.token keyword) =
        some rest' ∧
      Attempt.Framed frame frame.IsNode middle rest rest' := by
  obtain ⟨hkeyword, -⟩ := hfits.covered_of_reads hread
  have hfits' := hfits.of_reads hread
  have hbehind : middle.behind ≠ [] := by
    rw [hread.behind]
    simp
  have hkind : (frame.token keyword).isKeyword = keyword.isKeyword := rfl
  unfold keywordStatement?
  rw [hkind, frame.token_lexeme]
  cases keyword.isKeyword with
  | false => exact .inl ⟨rfl, rfl⟩
  | true =>
    rw [if_pos rfl, if_pos rfl]
    split
    · exact .inr ⟨_, _, rfl, rfl, declaration_framed hlines hkeyword hfits'⟩
    · exact .inr ⟨_, _, rfl, rfl, ifStatement_framed hbody hkeyword hfits' hbounds⟩
    · exact .inr ⟨_, _, rfl, rfl, whileStatement_framed hbody hkeyword hfits' hbounds⟩
    · exact .inr ⟨_, _, rfl, rfl, forStatement_framed hbody hkeyword hfits' hbounds⟩
    · exact .inr ⟨_, _, rfl, rfl, functionStatement_framed hbody hkeyword hfits' hbounds⟩
    · exact .inr ⟨_, _, rfl, rfl, classStatement_framed hbody hkeyword hfits' hbounds hbehind⟩
    · next hreturn =>
      exact .inr ⟨_, _, rfl, rfl,
        Attempt.framed_of_rule (returnStatement_framed hfits hread hreturn)⟩
    · exact .inl ⟨rfl, rfl⟩

/-- `completed` records a statement inside the frame as outside. -/
theorem completed_framed {node : Node} (start : Cursor) (hne : read ≠ []) :
    Attempt.Framed frame (fun more => Attempt.IsStatement frame start (read ++ more)) middle
      (completed start node) (completed (frame.cursor start) (frame.node node)) := by
  have hevent : frame.event (.completed start.index middle.index) =
      .completed (frame.cursor start).index (frame.cursor middle).index := by
    rw [frame.index_cursor start, frame.index_cursor middle]
    rfl
  refine .get ?_
  rw [← hevent]
  exact .record (.pure ⟨rfl, fun _ => List.append_ne_nil_of_left_ne_nil hne []⟩)

/-- `skipToBoundary` skips a token inside the frame as outside. -/
theorem skipToBoundary_framed {token : Token} (hread : start.Reads [token] middle) :
    Recovering.Framed frame (Attempt.IsStatement frame start) start (skipToBoundary token)
      (skipToBoundary (frame.token token)) := by
  have hinside : frame.Inside start := fun hend => by
    have hahead := hread.ahead
    rw [hend] at hahead
    cases hahead
  have hadvance : start.advance = middle := by
    obtain ⟨behind, rest, rfl, rfl⟩ := hread.exists_eq
    rfl
  obtain ⟨synced, hsynced⟩ := Attempt.exists_reads_boundaryFrom middle.behind middle.ahead
  unfold Recovering.Framed skipToBoundary
  dsimp only
  rw [Frame.advance_cursor hinside, hadvance, Frame.synchronize_cursor, frame.index_cursor start,
    frame.index_cursor middle.synchronize]
  exact .kept (hread.cons hsynced) ⟨rfl, fun _ => List.cons_ne_nil _ _⟩

/-- `attempt` is the same inside a frame. -/
theorem attempt_framed (hlines : KeepsLines frame lineEnd lineEnd')
    {body body' : Recovering Body} (hbody : BodyFramed frame bound bound' body body')
    (hfits : frame.Fits start) (hbounds : frame.Within (bound + 1) (bound' + 1) start)
    (hahead : start.ahead ≠ []) :
    Attempt.Framed frame (Attempt.IsStatement frame start) start (attempt lineEnd bound body)
      (attempt lineEnd' bound' body') := by
  have hinside : frame.Inside start := fun hend => absurd hend hahead
  have hstart := frame.index_cursor start
  obtain ⟨behind, ahead⟩ := start
  obtain ⟨token, ahead, rfl⟩ := List.exists_cons_of_ne_nil hahead
  have hread : Cursor.Reads ⟨behind, token :: ahead⟩ [token] ⟨token :: behind, ahead⟩ := ⟨rfl, rfl⟩
  refine .get ?_
  show Attempt.Framed frame _ _
    (liftM (record (.began _)) >>= fun _ => _) (liftM (record (.began _)) >>= fun _ => _)
  have hevent : frame.event (.began (Cursor.index ⟨behind, token :: ahead⟩)) =
      .began (frame.cursor ⟨behind, token :: ahead⟩).index := by
    rw [hstart]
    rfl
  rw [← hevent]
  refine .record ?_
  -- a word may select a reader, and does so for both; else a name starts an expression or all is
  -- skipped
  rcases keywordStatement?_framed hlines hbody hfits hread (hbounds.of_reads_token hread) with
    ⟨hnone, hnone'⟩ | ⟨rest, rest', hsome, hsome', hrest⟩
  · rw [hnone, hnone']
    dsimp only
    have hkind : (frame.token token).isIdentifier = token.isIdentifier := rfl
    rw [hkind]
    split
    · refine .bind hfits (expressionStatement_framed hlines hfits) ?_
      rintro read node _ middle hread hfits ⟨hne, ⟨rfl, -, -, -⟩⟩
      exact completed_framed _ hne
    · exact Attempt.framed_of_reader (skipToBoundary_framed hread)
  · rw [hsome, hsome']
    refine .skip hread (.bind (hfits.of_reads hread) hrest ?_)
    rintro read node _ middle hread' hfits ⟨rfl, -, -, -⟩
    exact completed_framed _ (List.cons_ne_nil _ _)

/-- `statementWithin` reads nothing at the end. -/
theorem statementWithin_of_nil (h : start.ahead = []) :
    statementWithin lineEnd bound start = ⟨(none, start), []⟩ := by
  obtain ⟨behind, ahead⟩ := start
  obtain rfl : ahead = [] := h
  cases bound <;> rfl

/-- `statementWithin` is the same inside a frame, whatever the bounds. -/
theorem statementWithin_framed (hlines : KeepsLines frame lineEnd lineEnd') (bound bound' : Nat) :
    StatementFramed frame bound bound' (statementWithin lineEnd bound)
      (statementWithin lineEnd' bound') := by
  intro start hfits hbounds hinside
  induction hbounds using Frame.Within.induct with
  | @atEnd _ _ start _ hend =>
    have hend' : (frame.cursor start).ahead = [] := by
      rw [Frame.ahead_cursor_of_end hend, hinside hend]
    unfold Recovering.Framed
    rw [statementWithin_of_nil hend, statementWithin_of_nil hend']
    exact .kept (.refl start) ⟨rfl, fun hahead => absurd hend hahead⟩
  | @step bound bound' _ hbounds hend ih =>
    have hinner : StatementFramed frame bound bound' (statementWithin lineEnd bound)
        (statementWithin lineEnd' bound') :=
      fun _ hfits hbounds hinside => ih hbounds hfits hinside
    exact Attempt.Framed.recover hfits hinside
      (attempt_framed hlines (body_framed hinner) hfits hbounds hend)

end NeutronLang.Grammar
