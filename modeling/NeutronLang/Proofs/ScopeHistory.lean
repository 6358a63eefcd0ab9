import Mathlib.Data.List.Infix
import Mathlib.Data.List.Nodup
import NeutronLang.Typing.SymbolTable

/-!
# Symbol tables and their history

A symbol table keeps its scopes as they come and go. What it answers is here told from the history
alone, in which a scope is known by the place of the step that entered it: the scope is still open
if no later step closes it (`IsOpen`), and a variable belongs to the scope that was the innermost
one when it was defined (`definitions`). The history says how many scopes are open around it by
counting the steps that enter and those that exit, which is where an induction over the steps has to
be careful: an exit closes the one open scope behind which as many are entered as exited, and that
is the last one (`rooms_eq`).
-/

namespace NeutronLang

/-- What can be done to a `SymbolTable`. -/
inductive TableStep where
  | enter (kind : ScopeKind)
  | exit
  | define (symbol : Symbol)
deriving DecidableEq

namespace TableStep

/-- Whether a step enters a scope. -/
def isEnter : TableStep → Bool
  | enter _ => true
  | exit | define _ => false

/-- Whether a step exits from a scope. -/
def isExit : TableStep → Bool
  | exit => true
  | enter _ | define _ => false

/-- The variable that a step defines. -/
def symbol? : TableStep → Option Symbol
  | define symbol => some symbol
  | enter _ | exit => none

end TableStep

/-- The table after one more `TableStep`. -/
def SymbolTable.step (table : SymbolTable) : TableStep → SymbolTable
  | .enter kind => table.enter kind
  | .exit => table.exit
  | .define symbol => table.define symbol

/-- The table after `steps`, one by one. -/
def SymbolTable.run (table : SymbolTable) (steps : List TableStep) : SymbolTable :=
  steps.foldl SymbolTable.step table

/-- `run` takes the last step last. -/
theorem SymbolTable.run_concat (table : SymbolTable) (steps : List TableStep) (step : TableStep) :
    table.run (steps ++ [step]) = (table.run steps).step step := by
  simp [run]

namespace ScopeHistory

/-! ## What a history says -/

/-- How many scopes are entered in `steps`. -/
def enters (steps : List TableStep) : Nat := steps.countP (·.isEnter)

/-- How many exits there are in `steps`. -/
def exits (steps : List TableStep) : Nat := steps.countP (·.isExit)

/-- The exits in `steps` never go below the scope that they begin in. -/
def StaysInside (steps : List TableStep) : Prop := ∀ first ∈ steps.inits, exits first ≤ enters first

instance (steps : List TableStep) : Decidable (StaysInside steps) :=
  inferInstanceAs (Decidable (∀ first ∈ steps.inits, exits first ≤ enters first))

/-- Whether the step at `place` has entered a scope that is still open: no later exit goes below
it. -/
def IsOpen (history : List TableStep) (place : Nat) : Prop :=
  history[place]?.any (·.isEnter) = true ∧ StaysInside (history.drop (place + 1))

instance (history : List TableStep) (place : Nat) : Decidable (IsOpen history place) :=
  inferInstanceAs (Decidable (_ ∧ _))

/-- The scopes that are open (`IsOpen`) besides that of the document, by their places, innermost
last. -/
def openScopes (history : List TableStep) : List Nat :=
  (List.range history.length).filter (IsOpen history ·)

/-- The innermost of the `openScopes`, if it is not that of the document. -/
def current? (history : List TableStep) : Option Nat := (openScopes history).getLast?

/-- The definitions that were made while `scope` was the innermost one (`current?`), in their
order. -/
def definitions (history : List TableStep) (scope : Option Nat) : List Symbol :=
  (List.range history.length).filterMap fun place =>
    if current? (history.take place) = scope then history[place]?.bind TableStep.symbol? else none

/-- The latest of `symbols` that has a name. -/
def latest? (symbols : List Symbol) (name : String) : Option Symbol :=
  symbols.reverse.find? (·.name == name)

/-! ## Counting -/

section

variable {history steps : List TableStep} {step : TableStep} {place : Nat} {symbol : Symbol}
  {kind : ScopeKind}

/-- `enters` counts one more step if it enters a scope. -/
theorem enters_concat (steps : List TableStep) (step : TableStep) :
    enters (steps ++ [step]) = enters steps + if step.isEnter then 1 else 0 := by
  rw [enters, List.countP_append, List.countP_singleton, enters]

/-- `exits` counts one more step if it exits from a scope. -/
theorem exits_concat (steps : List TableStep) (step : TableStep) :
    exits (steps ++ [step]) = exits steps + if step.isExit then 1 else 0 := by
  rw [exits, List.countP_append, List.countP_singleton, exits]

/-- Steps stay inside if they did before the last one and that is no exit too many. -/
theorem staysInside_concat :
    StaysInside (steps ++ [step]) ↔
      StaysInside steps ∧ exits (steps ++ [step]) ≤ enters (steps ++ [step]) := by
  simp only [StaysInside, List.mem_inits, List.prefix_concat_iff, forall_eq_or_imp]
  exact and_comm

/-- Steps that stay inside have no more `exits` than `enters`. -/
theorem StaysInside.exits_le (h : StaysInside steps) : exits steps ≤ enters steps :=
  h steps ((List.mem_inits _ _).mpr (List.prefix_refl steps))

/-- `StaysInside` does not depend on a last step that is no exit. -/
theorem staysInside_concat_of_not_isExit (h : step.isExit = false) :
    StaysInside (steps ++ [step]) ↔ StaysInside steps := by
  refine staysInside_concat.trans (and_iff_left_of_imp fun hsteps => ?_)
  rw [exits_concat, enters_concat, h]
  exact Nat.le_add_right_of_le hsteps.exits_le

/-- `StaysInside` holds with one more exit if there is a scope to close. -/
theorem staysInside_concat_exit :
    StaysInside (steps ++ [.exit]) ↔ StaysInside steps ∧ exits steps < enters steps := by
  rw [staysInside_concat, exits_concat, enters_concat]
  rfl

/-- An `IsOpen` place is a place of the history. -/
theorem IsOpen.lt (h : IsOpen history place) : place < history.length := by
  by_contra hle
  have hnone := List.getElem?_eq_none (Nat.not_lt.mp hle)
  simp [IsOpen, hnone] at h

/-- `IsOpen` stays true after a step if the steps since then, with it, stay inside. -/
theorem isOpen_concat (hplace : place < history.length) :
    IsOpen (history ++ [step]) place ↔ history[place]?.any (·.isEnter) = true ∧
      StaysInside (history.drop (place + 1) ++ [step]) := by
  rw [IsOpen, List.getElem?_append_left hplace, List.drop_append_of_le_length hplace]

/-- `IsOpen` holds of the last step if it enters a scope. -/
theorem isOpen_length : IsOpen (history ++ [step]) history.length ↔ step.isEnter = true := by
  simp [IsOpen, StaysInside, enters, exits]

/-- The `openScopes` after one more step are those of before that are still open, and the scope that
the step may enter. -/
theorem openScopes_concat :
    openScopes (history ++ [step]) =
      (openScopes history).filter (IsOpen (history ++ [step]) ·) ++
        if step.isEnter then [history.length] else [] := by
  have hold : (List.range history.length).filter (IsOpen (history ++ [step]) ·) =
      (openScopes history).filter (IsOpen (history ++ [step]) ·) := by
    rw [openScopes, List.filter_filter]
    refine List.filter_congr fun place hplace => ?_
    have hopen : IsOpen (history ++ [step]) place → IsOpen history place := by
      rw [isOpen_concat (List.mem_range.mp hplace), staysInside_concat]
      exact fun h => ⟨h.1, h.2.1⟩
    simpa using hopen
  rw [openScopes, List.length_append, List.length_singleton, List.range_succ, List.filter_append,
    hold]
  simp only [List.filter_cons, List.filter_nil, decide_eq_true_eq, isOpen_length]

/-- The `openScopes` stay as they are, or get one more, with a step that is no exit. -/
theorem openScopes_concat_of_not_isExit (h : step.isExit = false) :
    openScopes (history ++ [step]) =
      openScopes history ++ if step.isEnter then [history.length] else [] := by
  rw [openScopes_concat, List.filter_eq_self.mpr]
  intro place hplace
  have hopen : IsOpen history place := by simpa using (List.mem_filter.mp hplace).2
  rw [decide_eq_true_eq, isOpen_concat hopen.lt, staysInside_concat_of_not_isExit h]
  exact hopen

/-- The `openScopes` get one more with `.enter`, as the innermost one. -/
theorem openScopes_concat_enter (history : List TableStep) (kind : ScopeKind) :
    openScopes (history ++ [.enter kind]) = openScopes history ++ [history.length] :=
  openScopes_concat_of_not_isExit rfl

/-- The `openScopes` stay as they are with `.define`. -/
theorem openScopes_concat_define (history : List TableStep) (symbol : Symbol) :
    openScopes (history ++ [.define symbol]) = openScopes history :=
  (openScopes_concat_of_not_isExit rfl).trans (List.append_nil _)

/-- How many of the scopes entered after `place` have not been exited from. -/
def room (history : List TableStep) (place : Nat) : Nat :=
  enters (history.drop (place + 1)) - exits (history.drop (place + 1))

/-- There is one more `room` behind every open scope after `.enter`. -/
theorem room_concat_enter (h : IsOpen history place) :
    room (history ++ [.enter kind]) place = room history place + 1 := by
  rw [room, room, List.drop_append_of_le_length h.lt, enters_concat, exits_concat]
  exact Nat.sub_add_comm h.2.exits_le

/-- There is as much `room` as before after `.define`. -/
theorem room_concat_define (h : IsOpen history place) :
    room (history ++ [.define symbol]) place = room history place := by
  rw [room, room, List.drop_append_of_le_length h.lt, enters_concat, exits_concat]
  rfl

/-- There is one less `room` behind every open scope after `.exit`. -/
theorem room_concat_exit (h : IsOpen history place) :
    room (history ++ [.exit]) place = room history place - 1 := by
  rw [room, room, List.drop_append_of_le_length h.lt, enters_concat, exits_concat]
  exact Nat.sub_add_eq _ _ _

/-- A scope is still open after `.exit` if there is `room` behind it. -/
theorem isOpen_concat_exit (h : IsOpen history place) :
    IsOpen (history ++ [.exit]) place ↔ 0 < room history place := by
  rw [isOpen_concat h.lt, staysInside_concat_exit, room, Nat.sub_pos_iff_lt]
  exact ⟨fun hlt => hlt.2.2, fun hlt => ⟨h.1, h.2, hlt⟩⟩

/-- Each of the `openScopes` is open: `IsOpen` holds of its place. -/
theorem isOpen_of_mem (h : place ∈ openScopes history) : IsOpen history place := by
  simpa using (List.mem_filter.mp h).2

/-- `.exit` closes the innermost of the `openScopes`, if there is `room` behind the others and none
behind it. -/
theorem openScopes_concat_exit_of_rooms (h : (openScopes history).map (room history) =
    (List.range (openScopes history).length).reverse) :
    openScopes (history ++ [.exit]) = (openScopes history).dropLast := by
  -- a scope survives an exit if more scopes have been entered behind it than left
  have hfilter : openScopes (history ++ [.exit]) =
      (openScopes history).filter (0 < room history ·) := by
    rw [openScopes_concat]
    refine (List.append_nil _).trans (List.filter_congr fun place hplace => ?_)
    rw [decide_eq_decide, isOpen_concat_exit (isOpen_of_mem hplace)]
  rw [hfilter]
  rcases List.eq_nil_or_concat' (openScopes history) with hnil | ⟨outer, last, hopen⟩
  · rw [hnil]
    rfl
  · rw [hopen, List.length_append, List.length_singleton, List.range_succ_eq_map,
      List.reverse_cons, List.map_append, List.map_singleton] at h
    obtain ⟨houter, hlast⟩ := List.append_inj' h rfl
    rw [hopen, List.filter_append, List.dropLast_concat, List.filter_eq_self.mpr]
    · -- behind the innermost scope there is no room
      simp [List.singleton_inj.mp hlast]
    · -- and behind the others there is, since the numbers before the last one are successors
      intro place hplace
      have hmem := List.mem_map_of_mem (f := room history) hplace
      rw [houter, List.mem_reverse, List.mem_map] at hmem
      obtain ⟨count, -, hcount⟩ := hmem
      rw [decide_eq_true_eq, ← hcount]
      exact Nat.succ_pos count

/-- There is `room` behind each of the `openScopes` for exactly those further in. -/
theorem rooms_eq (history : List TableStep) :
    (openScopes history).map (room history) =
      (List.range (openScopes history).length).reverse := by
  induction history using List.reverseRecOn with
  | nil => rfl
  | append_singleton history step ih =>
    cases step with
    | define symbol =>
      rw [openScopes_concat_define, ← ih]
      exact List.map_congr_left fun place hplace => room_concat_define (isOpen_of_mem hplace)
    | enter kind =>
      -- every room grows by one, and the new scope has none
      have hroom : (openScopes history).map (room (history ++ [.enter kind])) =
          ((openScopes history).map (room history)).map Nat.succ := by
        rw [List.map_map]
        exact List.map_congr_left fun place hplace => room_concat_enter (isOpen_of_mem hplace)
      have hlast : room (history ++ [.enter kind]) history.length = 0 := by simp [room, enters]
      rw [openScopes_concat_enter, List.length_append, List.length_singleton]
      calc (openScopes history ++ [history.length]).map (room (history ++ [.enter kind]))
          = (List.range (openScopes history).length).reverse.map Nat.succ ++ [0] := by
            rw [List.map_append, hroom, ih, List.map_singleton, hlast]
        _ = (List.range ((openScopes history).length + 1)).reverse := by
            rw [List.range_succ_eq_map, List.reverse_cons, List.map_reverse]
    | exit =>
      -- the innermost scope is closed, and every other room shrinks by one
      have hopen := openScopes_concat_exit_of_rooms ih
      have hroom : (openScopes history).dropLast.map (room (history ++ [.exit])) =
          (((openScopes history).map (room history)).dropLast).map Nat.pred := by
        rw [← List.map_dropLast, List.map_map]
        exact List.map_congr_left fun place hplace =>
          room_concat_exit (isOpen_of_mem (List.mem_of_mem_dropLast hplace))
      rw [hopen, hroom, ih, List.length_dropLast]
      cases (openScopes history).length with
      | zero => rfl
      | succ count =>
        rw [List.range_succ_eq_map, List.reverse_cons, List.dropLast_concat, ← List.map_reverse,
          List.map_map]
        exact List.map_id _

/-- `.exit` closes the innermost of the `openScopes`. -/
theorem openScopes_concat_exit (history : List TableStep) :
    openScopes (history ++ [.exit]) = (openScopes history).dropLast :=
  openScopes_concat_exit_of_rooms (rooms_eq history)

/-! ## Definitions -/

/-- One more step may be one more of the `definitions` in the innermost scope. -/
theorem definitions_concat (history : List TableStep) (step : TableStep) (scope : Option Nat) :
    definitions (history ++ [step]) scope = definitions history scope ++
      if current? history = scope then step.symbol?.toList else [] := by
  rw [definitions, List.length_append, List.length_singleton, List.range_succ,
    List.filterMap_append]
  congr 1
  · refine List.filterMap_congr fun place hplace => ?_
    have hlt := List.mem_range.mp hplace
    rw [List.take_append_of_le_length (Nat.le_of_lt hlt), List.getElem?_append_left hlt]
  · rw [List.filterMap_cons, List.filterMap_nil, List.take_left, List.getElem?_concat_length,
      Option.bind_some]
    by_cases hcurrent : current? history = scope
    · rw [if_pos hcurrent, if_pos hcurrent]
      cases step.symbol? <;> rfl
    · rw [if_neg hcurrent, if_neg hcurrent]

/-- There are no `definitions` in a scope before it is entered. -/
theorem definitions_length (history : List TableStep) :
    definitions history (some history.length) = [] := by
  refine List.filterMap_eq_nil_iff.mpr fun place hplace => if_neg fun hcurrent => ?_
  have hlt := (isOpen_of_mem (List.mem_of_getLast? hcurrent)).lt
  rw [List.length_take] at hlt
  omega

/-- `.define` adds to the `definitions` of the innermost scope. -/
theorem definitions_concat_define {scope : Option Nat} (h : current? history = scope)
    (symbol : Symbol) : definitions (history ++ [.define symbol]) scope =
      definitions history scope ++ [symbol] := by
  rw [definitions_concat, if_pos h]
  rfl

/-- `.define` leaves the `definitions` of every other scope as they are. -/
theorem definitions_concat_define_of_ne {scope : Option Nat} (h : current? history ≠ scope)
    (symbol : Symbol) :
    definitions (history ++ [.define symbol]) scope = definitions history scope := by
  rw [definitions_concat, if_neg h, List.append_nil]

/-- The `definitions` stay as they are with a step that defines nothing. -/
theorem definitions_concat_of_symbol?_eq_none (h : step.symbol? = none) :
    definitions (history ++ [step]) = definitions history := by
  funext scope
  rw [definitions_concat, h]
  simp

/-- `latest?` is one more definition for its own name, and what it was for the other names. -/
theorem latest?_concat (symbols : List Symbol) (symbol : Symbol) (name : String) :
    latest? (symbols ++ [symbol]) name =
      if symbol.name = name then some symbol else latest? symbols name := by
  rw [latest?, List.reverse_append, List.reverse_singleton, List.singleton_append,
    List.find?_cons, latest?]
  by_cases h : symbol.name = name
  · simp [h]
  · rw [if_neg h, beq_false_of_ne h]

end

/-! ## Scopes of a table -/

/-- If `find?` of a scope is `latest?` of some definitions, it still is with one more in both. -/
theorem find?_define {symbols : List Symbol} {scope : Scope} (h : scope.find? = latest? symbols)
    (symbol : Symbol) : (scope.define symbol).find? = latest? (symbols ++ [symbol]) := by
  funext name
  rw [latest?_concat]
  split
  · next hname =>
    subst hname
    exact scope.find?_define_self symbol
  · next hname => rw [scope.find?_define_of_ne symbol hname, h]

/-- A nested table has the `openScopes` of a history, in each of which the latest of the
`definitions` made in it is found. -/
structure Follows (history : List TableStep) (table : SymbolTable) : Prop where
  nested : table.nested = true
  inner : table.inner.map Scope.find? =
    (openScopes history).reverse.map fun place => latest? (definitions history (some place))
  document : table.document.find? = latest? (definitions history none)

namespace Follows

variable {history : List TableStep} {table : SymbolTable}

/-- The empty table follows the empty history. -/
theorem empty : Follows [] (.empty true) := ⟨rfl, rfl, rfl⟩

/-- `enter` follows `.enter`: both add a scope without definitions. -/
theorem enter (h : Follows history table) (kind : ScopeKind) :
    Follows (history ++ [.enter kind]) (table.enter kind) := by
  obtain ⟨hnested, hinner, hdocument⟩ := h
  have henter : table.enter kind = { table with inner := .empty kind :: table.inner } :=
    if_pos hnested
  have hsame : definitions (history ++ [.enter kind]) = definitions history :=
    definitions_concat_of_symbol?_eq_none rfl
  rw [henter]
  constructor
  · exact hnested
  · -- nothing is defined yet in the new scope
    rw [openScopes_concat_enter, List.reverse_append, List.reverse_singleton,
      List.singleton_append, List.map_cons, List.map_cons, hinner, hsame, definitions_length]
    rfl
  · rw [hsame]
    exact hdocument

/-- `exit` follows `.exit`: both drop the innermost scope. -/
theorem exit (h : Follows history table) : Follows (history ++ [.exit]) table.exit := by
  obtain ⟨hnested, hinner, hdocument⟩ := h
  have hexit : table.exit = { table with inner := table.inner.tail } := if_pos hnested
  have hsame : definitions (history ++ [.exit]) = definitions history :=
    definitions_concat_of_symbol?_eq_none rfl
  rw [hexit]
  constructor
  · exact hnested
  · rw [openScopes_concat_exit, hsame, ← List.tail_reverse, List.map_tail, hinner, List.map_tail]
  · rw [hsame]
    exact hdocument

/-- `define` follows `.define`: both add to the innermost scope and leave the others alone. -/
theorem define (h : Follows history table) (symbol : Symbol) :
    Follows (history ++ [.define symbol]) (table.define symbol) := by
  obtain ⟨nested, inner, document⟩ := table
  obtain ⟨hnested, hinner, hdocument⟩ := h
  have hcurrent : current? history = (openScopes history).reverse.head? := List.head?_reverse.symm
  have hnodup : (openScopes history).reverse.Nodup :=
    List.nodup_reverse.mpr (List.nodup_range.filter _)
  dsimp only at hinner hdocument
  generalize hplaces : (openScopes history).reverse = places at hinner hcurrent hnodup
  cases inner with
  | nil =>
    obtain rfl := List.map_eq_nil_iff.mp hinner.symm
    replace hcurrent : current? history = none := hcurrent
    constructor
    · exact hnested
    · rw [openScopes_concat_define, hplaces]
      rfl
    · rw [definitions_concat_define hcurrent]
      exact find?_define hdocument symbol
  | cons scope outer =>
    obtain ⟨place, places, rfl⟩ : ∃ place rest, places = place :: rest :=
      List.exists_cons_of_ne_nil (by rintro rfl; cases hinner)
    replace hcurrent : current? history = some place := hcurrent
    rw [List.map_cons, List.map_cons, List.cons.injEq] at hinner
    -- the innermost scope is none of those around it, as each was entered at a place of its own
    have hother : ∀ other ∈ places, current? history ≠ some other := by
      rintro other hmem heq
      obtain rfl : place = other := Option.some.inj (hcurrent.symm.trans heq)
      exact (List.nodup_cons.mp hnodup).1 hmem
    constructor
    · exact hnested
    · have houter : (places.map fun place =>
          latest? (definitions (history ++ [.define symbol]) (some place))) =
            outer.map Scope.find? := by
        rw [hinner.2]
        exact List.map_congr_left fun other hmem => by
          rw [definitions_concat_define_of_ne (hother other hmem)]
      rw [openScopes_concat_define, hplaces, List.map_cons, definitions_concat_define hcurrent,
        houter]
      exact congrArg (· :: outer.map Scope.find?) (find?_define hinner.1 symbol)
    · rw [definitions_concat_define_of_ne (by rw [hcurrent]; exact Option.some_ne_none place)]
      exact hdocument

/-- The nested table follows every history. -/
theorem run (history : List TableStep) :
    Follows history ((SymbolTable.empty true).run history) := by
  induction history using List.reverseRecOn with
  | nil => exact .empty
  | append_singleton history step ih =>
    rw [SymbolTable.run_concat]
    cases step with
    | enter kind => exact ih.enter kind
    | exit => exact ih.exit
    | define symbol => exact ih.define symbol

/-- The `depth` of the table is the number of `openScopes`. -/
theorem depth_eq (h : Follows history table) : table.depth = (openScopes history).length := by
  have hlength := congrArg List.length h.inner
  rwa [List.length_map, List.length_map, List.length_reverse] at hlength

/-- What is looked up is the latest definition in the innermost scope that has one. -/
theorem lookup?_eq (h : Follows history table) (name : String) :
    table.lookup? name = ((openScopes history).reverse.map some ++ [none]).findSome?
      fun scope => latest? (definitions history scope) name := by
  have hscopes : table.scopes.map Scope.find? =
      ((openScopes history).reverse.map some ++ [none]).map
        fun scope => latest? (definitions history scope) := by
    rw [SymbolTable.scopes, List.map_append, h.inner, List.map_append, List.map_map,
      List.map_singleton, h.document]
    rfl
  have hfind := congrArg (List.findSome? (· name)) hscopes
  rw [List.findSome?_map, List.findSome?_map] at hfind
  exact hfind

end Follows

/-! ## Steps inside a scope -/

/-- Steps that stay inside the innermost scope leave the scopes around it alone, and as many are
open inside it as were entered and not exited from. -/
theorem exists_inner_run {steps : List TableStep} (h : StaysInside steps) {table : SymbolTable}
    {scope : Scope} {outer : List Scope} (hnested : table.nested = true)
    (hinner : table.inner = scope :: outer) :
    ∃ inside scope', inside.length + exits steps = enters steps ∧
      table.run steps = { table with inner := inside ++ scope' :: outer } := by
  induction steps using List.reverseRecOn with
  | nil => exact ⟨[], scope, rfl, by rw [List.nil_append, ← hinner]; rfl⟩
  | append_singleton steps step ih =>
    obtain ⟨hsteps, hle⟩ := staysInside_concat.mp h
    obtain ⟨inside, scope', hlength, hrun⟩ := ih hsteps
    rw [SymbolTable.run_concat, hrun]
    rw [enters_concat, exits_concat] at hle ⊢
    cases step with
    | enter kind =>
      refine ⟨.empty kind :: inside, scope', ?_, if_pos hnested⟩
      simp only [List.length_cons, TableStep.isEnter, TableStep.isExit, if_true,
        Bool.false_eq_true, if_false]
      omega
    | exit =>
      simp only [TableStep.isEnter, TableStep.isExit, if_true, Bool.false_eq_true, if_false]
        at hle ⊢
      cases inside with
      | nil =>
        -- this would be an exit too many
        simp only [List.length_nil] at hlength
        omega
      | cons first inside =>
        refine ⟨inside, scope', ?_, if_pos hnested⟩
        simp only [List.length_cons] at hlength
        omega
    | define symbol =>
      cases inside with
      | nil => exact ⟨[], scope'.define symbol, hlength, rfl⟩
      | cons first inside => exact ⟨first.define symbol :: inside, scope', hlength, rfl⟩

/-- A scope that is entered and exited from again leaves nothing behind. -/
theorem run_enter_exit {table : SymbolTable} (hnested : table.nested = true) (kind : ScopeKind)
    {inside : List TableStep} (h : StaysInside inside) (hexits : exits inside = enters inside) :
    table.run (.enter kind :: (inside ++ [.exit])) = table := by
  have henter : table.enter kind = { table with inner := .empty kind :: table.inner } :=
    if_pos hnested
  have hinner : (table.enter kind).inner = .empty kind :: table.inner := by rw [henter]
  obtain ⟨more, scope, hlength, hrun⟩ := exists_inner_run h (by rw [henter]; exact hnested) hinner
  obtain rfl : more = [] := List.length_eq_zero_iff.mp (by omega)
  show (table.enter kind).run (inside ++ [.exit]) = table
  rw [SymbolTable.run_concat, hrun, henter]
  exact if_pos hnested

/-- `exit` does nothing in the scope of the document. -/
theorem exit_of_inner_eq_nil {table : SymbolTable} (h : table.inner = []) : table.exit = table := by
  obtain ⟨nested, inner, document⟩ := table
  obtain rfl : inner = [] := h
  cases nested <;> rfl

/-! ## Flat tables -/

/-- A flat table has one scope, in which the latest definition of each name is found. -/
theorem run_flat (history : List TableStep) :
    ∃ document : Scope, (SymbolTable.empty false).run history = ⟨false, [], document⟩ ∧
      document.find? = latest? (history.filterMap TableStep.symbol?) := by
  induction history using List.reverseRecOn with
  | nil => exact ⟨.empty .document, rfl, rfl⟩
  | append_singleton history step ih =>
    obtain ⟨document, hrun, hfind⟩ := ih
    rw [SymbolTable.run_concat, hrun, List.filterMap_append]
    cases step with
    | enter | exit => exact ⟨document, rfl, hfind.trans (congrArg latest? (List.append_nil _).symm)⟩
    | define symbol => exact ⟨document.define symbol, rfl, find?_define hfind symbol⟩

/-! ## Every history -/

/-- What tables are after a `history`, told by the history alone. -/
structure ToldByHistory (history : List TableStep) : Prop where
  /-- In a nested table a name has the latest definition in the innermost open scope with one. -/
  lookup (name : String) : ((SymbolTable.empty true).run history).lookup? name =
    ((openScopes history).reverse.map some ++ [none]).findSome?
      fun scope => latest? (definitions history scope) name
  /-- The depth of a nested table is the number of scopes open beyond that of the document. -/
  depth : ((SymbolTable.empty true).run history).depth = (openScopes history).length
  /-- Where no scope is open beyond that of the document, an exit changes nothing. -/
  surplus : openScopes history = [] →
    (SymbolTable.empty true).run (history ++ [.exit]) = (SymbolTable.empty true).run history
  /-- A scope that is entered and, after steps that stay inside it, exited from leaves the table as
  it was. -/
  restored (kind : ScopeKind) {inside : List TableStep} : StaysInside inside →
    exits inside = enters inside →
      (SymbolTable.empty true).run (history ++ .enter kind :: (inside ++ [.exit])) =
        (SymbolTable.empty true).run history
  /-- In a flat table a name has its latest definition of all. -/
  flat_lookup (name : String) : ((SymbolTable.empty false).run history).lookup? name =
    latest? (history.filterMap TableStep.symbol?) name
  /-- In a flat table, entering a scope or exiting from one changes nothing. -/
  flat_same {step : TableStep} : step.symbol? = none →
    (SymbolTable.empty false).run (history ++ [step]) = (SymbolTable.empty false).run history
  flat_depth : ((SymbolTable.empty false).run history).depth = 0

/-- Whatever is done to a table, balanced or not, its `history` tells what it is. -/
theorem run_toldByHistory (history : List TableStep) : ToldByHistory history := by
  have hnested := Follows.run history
  obtain ⟨document, hflat, hfind⟩ := run_flat history
  constructor
  · exact hnested.lookup?_eq
  · exact hnested.depth_eq
  · intro hnone
    have hinner : ((SymbolTable.empty true).run history).inner = [] := by
      rw [← List.map_eq_nil_iff, hnested.inner, hnone]
      rfl
    rw [SymbolTable.run_concat]
    exact exit_of_inner_eq_nil hinner
  · intro kind inside hinside hexits
    rw [SymbolTable.run, List.foldl_append]
    exact run_enter_exit hnested.nested kind hinside hexits
  · intro name
    rw [hflat, ← hfind, SymbolTable.lookup?, SymbolTable.scopes, List.nil_append,
      List.findSome?_singleton]
  · intro step hstep
    rw [SymbolTable.run_concat, hflat]
    cases step with
    | define => cases hstep
    | enter | exit => rfl
  · rw [hflat]
    rfl

/-- An exit too many does nothing, and a scope that is entered does not see what was defined in one
that was exited from. -/
example :
    let history : List TableStep := [.exit, .define ⟨"x", .int, none⟩, .enter .block,
      .define ⟨"x", .string, none⟩, .exit, .enter .block, .define ⟨"y", .bool, none⟩]
    openScopes history = [5] ∧ definitions history (some 2) = [⟨"x", .string, none⟩] ∧
      ((SymbolTable.empty true).run history).lookup? "x" = some ⟨"x", .int, none⟩ ∧
      ((SymbolTable.empty false).run history).lookup? "x" = some ⟨"x", .string, none⟩ := by
  decide

end ScopeHistory

end NeutronLang
