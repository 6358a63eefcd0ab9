import NeutronLang.Proofs.Bindings

/-!
# Spans in a row

The tokens of a document lie one after the other (`Laid`), and so do the trees that are read from
them (`Lie`): in their order, between the offsets that the tokens lie between, and each with its
children in a row inside it. A tree may be read from more tokens than its span covers, as an
expression in parentheses is, so a row has slack on both sides. What is read one after the other
joins to a row (`Lie.append`), and a row inside a span makes a tree (`Lie.node`); every tree of the
grammar is made of these two steps.
-/

namespace NeutronLang

/-! ## Rows -/

/-- The spans of nodes, one after the other from `first` to `last`. -/
inductive InRow : Int → List Node → Int → Prop where
  | nil {first last : Int} : first ≤ last → InRow first [] last
  | cons {first last : Int} {node : Node} {nodes : List Node} : first ≤ node.span.start →
      InRow node.span.stop nodes last → InRow first (node :: nodes) last

namespace InRow

variable {first middle last : Int} {nodes more : List Node}

/-- The ends of an `InRow` are in order. -/
theorem le (h : InRow first nodes last) : first ≤ last := by
  induction h with
  | nil hle => exact hle
  | @cons _ _ node _ hle _ ih => exact Int.le_trans hle (Int.le_trans node.span.start_le_stop ih)

/-- `InRow` stays true with an earlier beginning. -/
theorem of_le {before : Int} (h : InRow first nodes last) (hle : before ≤ first) :
    InRow before nodes last := by
  cases h with
  | nil hfirst => exact .nil (Int.le_trans hle hfirst)
  | cons hfirst hrest => exact .cons (Int.le_trans hle hfirst) hrest

/-- `InRow` holds of two rows one after the other. -/
theorem append (h : InRow first nodes middle) (hmore : InRow middle more last) :
    InRow first (nodes ++ more) last := by
  induction h with
  | nil hle => exact hmore.of_le hle
  | cons hle _ ih => exact .cons hle (ih hmore)

/-- `InRow` holds of some of the nodes in a row. -/
theorem sublist (h : InRow first nodes last) (hsublist : more.Sublist nodes) :
    InRow first more last := by
  induction hsublist generalizing first with
  | slnil => exact h
  | @cons _ _ node _ ih =>
    cases h with
    | cons hfirst hrest => exact (ih hrest).of_le (Int.le_trans hfirst node.span.start_le_stop)
  | cons_cons _ _ ih =>
    cases h with
    | cons hfirst hrest => exact .cons hfirst (ih hrest)

/-- Nodes `InRow` lie between its ends, and each ends before those after it start. -/
theorem between (h : InRow first nodes last) :
    (∀ node ∈ nodes, first ≤ node.span.start ∧ node.span.stop ≤ last) ∧
      nodes.Pairwise fun node later => node.span.stop ≤ later.span.start := by
  induction h with
  | nil => simp
  | @cons first last node nodes hle hrest ih =>
    obtain ⟨hnodes, hpairwise⟩ := ih
    refine ⟨List.forall_mem_cons.mpr ⟨⟨hle, hrest.le⟩, fun other hother => ⟨?_, ?_⟩⟩,
      List.pairwise_cons.mpr ⟨fun other hother => (hnodes other hother).1, hpairwise⟩⟩
    · exact Int.le_trans (Int.le_trans hle node.span.start_le_stop) (hnodes other hother).1
    · exact (hnodes other hother).2

end InRow

/-! ## Trees in a row -/

/-- A span that is not empty, but for a `block` without statements, which is at a place. -/
def Node.Filled (node : Node) : Prop :=
  node.span.start < node.span.stop ∨ ∃ offset, node = .block (.point offset) []

/-- The spans of a tree nest: at every node of it the children lie in a row inside it (`InRow`). -/
def Node.Nests (tree : Node) : Prop :=
  ∀ node ∈ tree.subtrees, InRow node.span.start node.children node.span.stop ∧ node.Filled

/-- Where spans nest, all of them lie in that of the root. -/
theorem Node.Nests.within {tree : Node} (h : tree.Nests) : ∀ node ∈ tree.subtrees,
    tree.span.start ≤ node.span.start ∧ node.span.stop ≤ tree.span.stop := by
  induction tree using Node.subtrees.induct with
  | case1 tree ih =>
    obtain ⟨⟨hrow, -⟩, hchildren⟩ := forall_subtrees_iff.mp h
    refine forall_subtrees_iff.mpr ⟨⟨Int.le_refl _, Int.le_refl _⟩, ?_⟩
    intro child hchild node hnode
    obtain ⟨hstart, hstop⟩ := hrow.between.1 child hchild
    obtain ⟨hstart', hstop'⟩ := ih ⟨child, hchild⟩ (hchildren child hchild) node hnode
    exact ⟨Int.le_trans hstart hstart', Int.le_trans hstop' hstop⟩

/-- Trees of which the spans nest (`Node.Nests`), one after the other from `first` to `last`. -/
structure Lie (first : Int) (trees : List Node) (last : Int) : Prop where
  row : InRow first trees last
  nests : ∀ tree ∈ trees, tree.Nests

namespace Lie

variable {first middle last : Int} {trees more : List Node} {tree : Node}

/-- `Lie` holds of no trees. -/
theorem nil (h : first ≤ last) : Lie first [] last := ⟨.nil h, by simp⟩

/-- The ends between which trees `Lie` are in order. -/
theorem le (h : Lie first trees last) : first ≤ last := h.row.le

/-- A tree that is not a body is not empty. -/
theorem start_lt_stop (h : Lie first [tree] last) (hblock : ∀ span body, tree ≠ .block span body) :
    tree.span.start < tree.span.stop := by
  have htree := Node.forall_subtrees_iff.mp (h.nests tree (List.mem_singleton_self tree))
  rcases htree.1.2 with hlt | ⟨offset, rfl⟩
  · exact hlt
  · exact absurd rfl (hblock _ _)

/-- `Lie` holds of trees one after the other. -/
theorem append (h : Lie first trees middle) (hmore : Lie middle more last) :
    Lie first (trees ++ more) last :=
  ⟨h.row.append hmore.row, List.forall_mem_append.mpr ⟨h.nests, hmore.nests⟩⟩

/-- `Lie` between two offsets holds between offsets around these. -/
theorem mono {before after : Int} (h : Lie first trees last) (hbefore : before ≤ first)
    (hafter : last ≤ after) : Lie before trees after := by
  simpa using ((nil hbefore).append h).append (nil hafter)

/-- `Lie` holds also when trees that are absent are left out. -/
theorem present (h : Lie first trees last) : Lie first (Node.present trees) last :=
  ⟨h.row.sublist List.filter_sublist, fun tree htree => h.nests tree (List.mem_of_mem_filter htree)⟩

/-- `Lie` holds of a tree between the ends of its own span. -/
theorem own (h : Lie first [tree] last) :
    first ≤ tree.span.start ∧ tree.span.stop ≤ last ∧ Lie tree.span.start [tree] tree.span.stop :=
  have hbetween := h.row.between.1 tree (List.mem_singleton_self tree)
  ⟨hbetween.1, hbetween.2, .cons (Int.le_refl _) (.nil (Int.le_refl _)), h.nests⟩

/-- `Lie` holds of the children of a tree between the ends of its span. -/
theorem children (h : Lie first [tree] last) :
    Lie tree.span.start tree.children tree.span.stop := by
  have htree := Node.forall_subtrees_iff.mp (h.nests tree (List.mem_singleton_self tree))
  exact ⟨htree.1.1, htree.2⟩

/-- `Lie` holds of a tree between the offsets that it is read from, if it does of its children. -/
theorem node (hspan : tree.span = .between first last) (hlt : first < last)
    (h : Lie first tree.children last) : Lie first [tree] last := by
  have hstart : tree.span.start = first := by rw [hspan, Span.between_start]
  have hstop : tree.span.stop = last := by
    rw [hspan, Span.between_stop_of_le (Int.le_of_lt hlt)]
  have hroot : InRow tree.span.start tree.children tree.span.stop ∧ tree.Filled := by
    rw [hstart, hstop]
    exact ⟨h.row, .inl (by omega)⟩
  refine ⟨.cons (by omega) (.nil (by omega)), fun other hother => ?_⟩
  rw [List.mem_singleton.mp hother]
  exact Node.forall_subtrees_iff.mpr ⟨hroot, h.nests⟩

/-- `Lie` holds of a tree that ends where the last of its children does. -/
theorem node_of_last {child : Node} (before : List Node)
    (hspan : tree.span = .between first child.span.stop) (hlt : first < middle)
    (hchildren : tree.children = before ++ [child]) (hbefore : Lie first before middle)
    (hchild : Lie middle [child] last) : Lie first [tree] last := by
  obtain ⟨hstart, hlast, hchild⟩ := hchild.own
  have hle := child.span.start_le_stop
  refine (node hspan (by omega) ?_).mono (Int.le_refl _) hlast
  rw [hchildren]
  exact hbefore.append (hchild.mono hstart (Int.le_refl _))

/-- `Lie` holds of a body without statements at a place. -/
theorem place (offset : Int) : Lie offset [.block (.point offset) []] offset := by
  refine ⟨.cons (Int.le_refl _) (.nil (Int.le_refl _)), fun other hother => ?_⟩
  rw [List.mem_singleton.mp hother]
  exact Node.forall_subtrees_iff.mpr
    ⟨⟨.nil (Int.le_refl _), .inr ⟨offset, rfl⟩⟩, by simp [Node.children]⟩

end Lie

/-! ## Tokens in a row -/

/-- Tokens, none of them empty, one after the other from `first` to `last`. -/
inductive Laid : Int → List Token → Int → Prop where
  | nil {first last : Int} : first ≤ last → Laid first [] last
  | cons {first last : Int} {token : Token} {tokens : List Token} : first ≤ token.start →
      token.start < token.stop → Laid token.stop tokens last → Laid first (token :: tokens) last

namespace Laid

variable {first last : Int} {tokens more : List Token} {token : Token}

/-- The ends between which tokens are `Laid` are in order. -/
theorem le (h : Laid first tokens last) : first ≤ last := by
  induction h with
  | nil hle => exact hle
  | cons => omega

/-- `Laid` stays true with an earlier beginning. -/
theorem of_le {before : Int} (h : Laid first tokens last) (hle : before ≤ first) :
    Laid before tokens last := by
  cases h with
  | nil hfirst => exact .nil (Int.le_trans hle hfirst)
  | cons hfirst htoken hrest => exact .cons (Int.le_trans hle hfirst) htoken hrest

/-- `Laid` tokens can be cut between any two of them. -/
theorem exists_middle (h : Laid first (tokens ++ more) last) :
    ∃ middle, Laid first tokens middle ∧ Laid middle more last := by
  induction tokens generalizing first with
  | nil => exact ⟨first, .nil (Int.le_refl _), h⟩
  | cons token tokens ih =>
    cases h with
    | cons hfirst htoken hrest =>
      obtain ⟨middle, htokens, hmore⟩ := ih hrest
      exact ⟨middle, .cons hfirst htoken htokens, hmore⟩

/-- `Laid` tokens can be cut around any of them. -/
theorem exists_around (h : Laid first (tokens ++ token :: more) last) :
    ∃ middle, Laid first tokens middle ∧ middle ≤ token.start ∧ token.start < token.stop ∧
      Laid token.stop more last := by
  obtain ⟨middle, htokens, hmore⟩ := h.exists_middle
  cases hmore with
  | cons hmiddle htoken hrest => exact ⟨middle, htokens, hmiddle, htoken, hrest⟩

/-- `Laid` tokens in parentheses lie between these. -/
theorem exists_inside {opening closing : Token}
    (h : Laid first (opening :: (tokens ++ [closing])) last) :
    ∃ start stop, first < start ∧ Laid start tokens stop ∧ stop < last := by
  cases h with
  | cons hfirst hopening h =>
    obtain ⟨middle, hinner, hle, hclosing, hrest⟩ := h.exists_around
    have hlast := hrest.le
    exact ⟨opening.stop, middle, by omega, hinner, by omega⟩

/-- `Laid` holds of tokens that stand one after the other among such. -/
theorem exists_of_infix (h : Laid first tokens last) (hwithin : more <:+: tokens) :
    ∃ start stop, Laid start more stop := by
  obtain ⟨before, after, rfl⟩ := hwithin
  obtain ⟨stop, hlaid, -⟩ := h.exists_middle
  obtain ⟨start, -, hmore⟩ := hlaid.exists_middle
  exact ⟨start, stop, hmore⟩

/-- `Laid` holds of some of the tokens in a row. -/
theorem sublist (h : Laid first tokens last) (hsublist : more.Sublist tokens) :
    Laid first more last := by
  induction hsublist generalizing first with
  | slnil => exact h
  | cons _ _ ih =>
    cases h with
    | cons hfirst htoken hrest => exact (ih hrest).of_le (by omega)
  | cons_cons _ _ ih =>
    cases h with
    | cons hfirst htoken hrest => exact .cons hfirst htoken (ih hrest)

/-- `Laid` tokens lie between the ends of their row. -/
theorem between (h : Laid first tokens last) :
    ∀ token ∈ tokens, first ≤ token.start ∧ token.start < token.stop ∧ token.stop ≤ last := by
  induction h with
  | nil => simp
  | @cons first last token tokens hfirst htoken hrest ih =>
    refine List.forall_mem_cons.mpr ⟨⟨hfirst, htoken, hrest.le⟩, fun other hother => ?_⟩
    obtain ⟨hother, hrest⟩ := ih other hother
    exact ⟨by omega, hrest⟩

/-- `Lie` holds of the name that a token is, between the ends of the token. -/
theorem lie_name (hfirst : first ≤ token.start) (hlt : token.start < token.stop) :
    Lie first [token.node] token.stop := by
  have hnode : Lie token.start [token.node] token.stop := .node rfl hlt (.nil (Int.le_of_lt hlt))
  exact hnode.mono hfirst (Int.le_refl _)

/-- `Lie` holds between parentheses of trees that are read from there. -/
theorem lie_inside {opening closing : Token} {trees : List Node}
    (h : Laid first (opening :: (tokens ++ [closing])) last)
    (htrees : ∀ start stop, Laid start tokens stop → Lie start trees stop) :
    Lie first trees last := by
  obtain ⟨start, stop, hstart, hinner, hstop⟩ := h.exists_inside
  exact (htrees start stop hinner).mono (Int.le_of_lt hstart) (Int.le_of_lt hstop)

/-- `Lie` holds of a tree that spans two brackets, if it does of what is read from between them. -/
theorem lie_enclosed {opening closing : Token} {tree : Node}
    (h : Laid first (opening :: (tokens ++ [closing])) last)
    (hspan : tree.span = .between opening.start closing.stop)
    (hchildren : ∀ start stop, Laid start tokens stop → Lie start tree.children stop) :
    Lie first [tree] last := by
  cases h with
  | cons hfirst hopening h =>
    obtain ⟨middle, hinner, hle, hclosing, hrest⟩ := h.exists_around
    have hchildren := hchildren _ _ hinner
    have hmiddle := hchildren.le
    exact Lie.mono (.node hspan (by omega) (hchildren.mono (by omega) (by omega))) hfirst hrest.le

/-- `Lie` holds of a tree that starts with its keyword and stops with the last of its parts. -/
theorem lie_led {middle : Int} {tree child : Node} (h : Laid first (token :: tokens) middle)
    (before : List Node)
    (hspan : tree.span = .between token.start child.span.stop)
    (hchildren : tree.children = before ++ [child])
    (hbefore : Laid token.stop tokens middle → Lie token.stop before middle)
    (hchild : Lie middle [child] last) : Lie first [tree] last := by
  cases h with
  | cons hfirst hlt hrest =>
    have hle := hrest.le
    have hfrom := (hbefore hrest).mono (Int.le_of_lt hlt) (Int.le_refl _)
    exact (Lie.node_of_last before hspan (by omega) hchildren hfrom hchild).mono hfirst
      (Int.le_refl _)

/-- `Lie` holds of the names that tokens in a row are. -/
theorem lie_names (h : Laid first tokens last) : Lie first (tokens.map Token.node) last := by
  induction h with
  | nil hle => exact .nil hle
  | cons hfirst hlt _ ih => exact (lie_name hfirst hlt).append ih

end Laid

/-- The place of a cursor is the end of the token read last: what is read is `Laid` between the two
places of a reading, and so is what is left behind it. -/
theorem Cursor.Reads.laid {start stop : Cursor} {read : List Token} {last : Int}
    (h : start.Reads read stop) (hlaid : Laid start.lastStop start.ahead last) :
    Laid start.lastStop read stop.lastStop ∧ Laid stop.lastStop stop.ahead last := by
  induction read generalizing start with
  | nil =>
    rw [h.eq_of_nil]
    exact ⟨.nil (Int.le_refl _), hlaid⟩
  | cons token read ih =>
    obtain ⟨middle, hfirst, hrest⟩ := h.exists_after_first
    have hmiddle : middle.lastStop = token.stop := by
      unfold Cursor.lastStop
      rw [hfirst.behind]
      rfl
    rw [hfirst.ahead] at hlaid
    cases hlaid with
    | cons hle hlt hlaid =>
      obtain ⟨hread, hahead⟩ := ih hrest (hmiddle ▸ hlaid)
      rw [hmiddle] at hread
      exact ⟨.cons hle hlt hread, hahead⟩

namespace Grammar

variable {first last : Int} {tokens : List Token} {tree : Node}

/-! ## Expressions -/

/-- `Lie` holds of trees that are read from `Separated` phrases, if it does of each one. -/
theorem Separated.lie {α : Type} {items : List α} {phrase : α → List Token} {node : α → Node}
    (h : Separated (items.map phrase) tokens)
    (hitems : ∀ item ∈ items, ∀ first last, Laid first (phrase item) last →
      Lie first [node item] last)
    (hlaid : Laid first tokens last) : Lie first (items.map node) last := by
  generalize hphrases : items.map phrase = phrases at h
  induction h generalizing items first with
  | nil =>
    rw [List.map_eq_nil_iff.mp hphrases]
    exact .nil hlaid.le
  | single =>
    obtain ⟨item, rfl, rfl⟩ := List.map_eq_singleton_iff.mp hphrases
    exact hitems item (List.mem_singleton_self item) _ _ hlaid
  | cons _ _ ih =>
    obtain ⟨item, rest, rfl, rfl, hrest⟩ := List.map_eq_cons_iff.mp hphrases
    obtain ⟨hitem, hmore⟩ := List.forall_mem_cons.mp hitems
    obtain ⟨middle, hphrase, hle, hlt, hlaid⟩ := hlaid.exists_around
    exact (hitem _ _ hphrase).append ((ih hmore hlaid hrest).mono (by omega) (Int.le_refl _))

/-- `Lie` holds of the parts of a property if it does of its value. -/
theorem PropertyParts.lie {parts : PropertyParts}
    (hvalue : ∀ first last, Laid first parts.valueTokens last → Lie first [parts.value] last)
    (hlaid : Laid first parts.tokens last) : Lie first [parts.node] last := by
  unfold PropertyParts.tokens at hlaid
  cases hlaid with
  | cons hfirst hkey hlaid =>
    cases hlaid with
    | cons hbetween hcolon hlaid =>
      obtain ⟨hstart, hlast, hvalue⟩ := (hvalue _ _ hlaid).own
      have hspan := parts.value.span.start_le_stop
      have hkeyNode : Lie parts.key.start
          [.literal parts.key.span (.ofQuoted parts.key.lexeme) parts.key.lexeme "string"]
          parts.key.stop := .node rfl hkey (.nil (Int.le_of_lt hkey))
      refine Lie.mono (.node rfl (by omega) ?_) hfirst hlast
      exact hkeyNode.append (hvalue.mono (by omega) (Int.le_refl _))

/-- A literal has no children. -/
theorem children_of_literal? {token : Token} (h : literal? token = some tree) :
    tree.children = [] := by
  obtain ⟨value, type, rfl⟩ := exists_eq_of_literal? h
  rfl

/-- `Lie` holds of the tree of a phrase between the offsets that its tokens lie between. -/
theorem Derives.lie {level : Nat} (h : Derives level tokens tree) (hlaid : Laid first tokens last) :
    Lie first [tree] last := by
  induction h generalizing first last with
  | loosen _ _ _ ih => exact ih hlaid
  | @binary _ operator _ _ left right _ _ _ ihleft ihright =>
    obtain ⟨middle, hleft, hle, hlt, hright⟩ := hlaid.exists_around
    obtain ⟨hfirst, hstop, hleft⟩ := (ihleft hleft).own
    obtain ⟨hstart, hlast, hright⟩ := (ihright hright).own
    have hleftSpan := left.span.start_le_stop
    have hrightSpan := right.span.start_le_stop
    have hoperands : Lie left.span.start [left, right] right.span.stop :=
      hleft.append (hright.mono (by omega) (Int.le_refl _))
    -- both kinds of operations have the same span and the same children
    refine Lie.mono (.node ?_ (by omega) ?_) hfirst hlast <;> unfold operation <;> split
    · rfl
    · rfl
    · exact hoperands
    · exact hoperands
  | @unary sign _ operand _ _ ih =>
    cases hlaid with
    | cons hfirst hlt hlaid =>
      obtain ⟨hstart, hlast, hoperand⟩ := (ih hlaid).own
      have hspan := operand.span.start_le_stop
      exact Lie.mono (.node rfl (by omega) (hoperand.mono (by omega) (Int.le_refl _)))
        hfirst hlast
  | @literal token node hliteral =>
    obtain ⟨hfirst, hlt, hlast⟩ := hlaid.between _ (List.mem_singleton_self _)
    refine Lie.mono (.node (span_of_literal? hliteral) hlt ?_) hfirst hlast
    rw [children_of_literal? hliteral]
    exact .nil (Int.le_of_lt hlt)
  | parenthesised _ _ _ ih => exact hlaid.lie_inside fun _ _ => ih
  | array _ _ _ hseparated ih =>
    exact hlaid.lie_enclosed rfl fun _ _ =>
      hseparated.lie fun element helement _ _ => ih element helement
  | object _ _ _ _ hseparated ih =>
    exact hlaid.lie_enclosed rfl fun _ _ =>
      hseparated.lie fun parts hparts _ _ => PropertyParts.lie fun _ _ => ih parts hparts
  | name _ =>
    cases hlaid with
    | cons hfirst hlt hlaid => exact (Laid.lie_name hfirst hlt).mono (Int.le_refl _) hlaid.le
  | @call _ _ callee _ _ _ _ _ _ _ hseparated ih iharguments =>
    obtain ⟨middle, hcallee, hle, hlt, hlaid⟩ := hlaid.exists_around
    obtain ⟨middle', hinner, hle', hlt', hrest⟩ := hlaid.exists_around
    have hlast := hrest.le
    obtain ⟨hfirst, hstop, hcallee⟩ := (ih hcallee).own
    have hspan := callee.span.start_le_stop
    have harguments :=
      hseparated.lie (fun argument hargument _ _ => iharguments argument hargument) hinner
    have hmiddle := harguments.le
    refine Lie.mono (.node rfl (by omega) ?_) hfirst hlast
    exact hcallee.append (harguments.mono (by omega) (by omega))
  | @member _ name owner _ _ _ _ ih =>
    obtain ⟨middle, howner, hle, hlt, hlaid⟩ := hlaid.exists_around
    cases hlaid with
    | cons hbetween hname hrest =>
      have hlast := hrest.le
      obtain ⟨hfirst, hstop, howner⟩ := (ih howner).own
      have hspan := owner.span.start_le_stop
      have hnode : Lie owner.span.stop [name.node] name.stop := Laid.lie_name (by omega) hname
      have hnameStop : name.node.span.stop = name.stop :=
        Span.between_stop_of_le (Int.le_of_lt hname)
      refine Lie.mono (.node (by rw [hnameStop]; rfl) (by omega) ?_) hfirst hlast
      exact howner.append hnode

/-- The tree of a phrase is no body. -/
theorem Derives.ne_block {level : Nat} (h : Derives level tokens tree) (span : Span)
    (body : List Node) : tree ≠ .block span body := by
  induction h with
  | loosen _ _ _ ih => exact ih
  | binary =>
    unfold operation
    split <;> rintro ⟨⟩
  | literal hliteral =>
    obtain ⟨value, type, rfl⟩ := exists_eq_of_literal? hliteral
    rintro ⟨⟩
  | parenthesised _ _ _ ih => exact ih
  | unary | array | object | name | call | member => rintro ⟨⟩

end Grammar

end NeutronLang
