import Mathlib.Data.List.Forall2
import Mathlib.Data.List.Perm.Basic
import NeutronLang.Proofs.Bindings

/-!
# Trees are written out as by recursion

A tree is written out with a table of places and a list of nodes that are pending, so that a long
chain of operators does not nest. What this comes to is said by `Node.recursiveJson`: each node is
an object of its heading and its fields in order, where a child stands as what it is written out as.

The nodes that have been given numbers are kept in a list, by which the meaning of a table is said
(`Table.Holds`): the empty places are those of the pending nodes, each of them once, and a place
that is filled is the record of its node, with numbers of children that are greater than its own. A
step takes the last of the pending nodes, gives numbers to the nodes under its labels and fills its
place, and the invariant goes on to hold with more nodes (`Table.Holds.fill`). At the end no place
is empty, and a table that is put together from its end finds every number that a record links to.
-/

namespace NeutronLang.Node

/-! ## Trees as JSON by recursion -/

mutual

/-- A tree as JSON by recursion: its `heading`, then its fields in order. -/
def recursiveJson (node : Node) : Json :=
  if node.isAbsent then .null
  else .object ([("type", .text node.kind), ("start", .int node.span.start),
    ("end", .int node.span.stop)] ++ recursiveMembers node.fields)
termination_by (sizeOf node, 0, 0)
decreasing_by exact .left _ _ node.sizes_contents_lt

/-- Fields as the members of an object, each with its `recursiveValue`. -/
def recursiveMembers : List (String × Field) → List (String × Json)
  | [] => []
  | (label, field) :: fields => (label, recursiveValue field) :: recursiveMembers fields
termination_by fields => (sizes (fields.flatMap (·.2.contents)), 3, fields.length)
decreasing_by
  all_goals simp [Prod.lex_def, sizes_append]
  all_goals omega

/-- A field as JSON by recursion. What is no number is written as `null`, be it a double of that
kind or a numeral without a value; an error is written as the record of its message and offsets. -/
def recursiveValue : Field → Json
  | .node child => recursiveJson child
  | .nodes children => .list (recursiveItems children)
  | .text none => .null
  | .text (some text) => .text text
  | .value (.integer value) => .int value
  | .value (.double value) => if value.isNaN then .null else .double value
  | .value (.text value) => .text value
  | .value (.boolean value) => .bool value
  | .value .nil => .null
  | .value .notANumber => .null
  | .errors errors => .list (errors.map fun error =>
      .object [("message", .text error.fault.message), ("start", .int error.span.start),
        ("end", .int error.span.stop)])
termination_by field => (sizes field.contents, 2, 0)
decreasing_by all_goals simp [Prod.lex_def, Field.contents]

/-- Nodes as the items of a list, each as `recursiveJson`. -/
def recursiveItems : List Node → List Json
  | [] => []
  | node :: nodes => recursiveJson node :: recursiveItems nodes
termination_by nodes => (sizes nodes, 1, nodes.length)
decreasing_by
  all_goals simp [Prod.lex_def, sizeOf_pos]
  omega

end

/-- `recursiveJson` writes nothing where there is no node. -/
theorem recursiveJson_absent : recursiveJson .absent = .null := by
  rw [recursiveJson]
  rfl

/-- `recursiveJson` writes a node that is there as an object. -/
theorem recursiveJson_of_present {node : Node} (h : node.isAbsent = false) :
    node.recursiveJson = .object ([("type", .text node.kind), ("start", .int node.span.start),
      ("end", .int node.span.stop)] ++ recursiveMembers node.fields) := by
  rw [recursiveJson, h]
  rfl

/-! ## Records and their nodes -/

/-- A number, or none, is that of a node among `nodes`, and is not below `least`. -/
inductive NumberOf (nodes : List Node) (least : Nat) : Option Nat → Node → Prop where
  | absent : NumberOf nodes least none .absent
  | number {number : Nat} {node : Node} : least ≤ number → nodes[number]? = some node →
      NumberOf nodes least (some number) node

/-- A slot says what a field does, with numbers (`NumberOf`) in the place of nodes. -/
inductive Slot.Says (nodes : List Node) (least : Nat) : Slot → Field → Prop where
  | link {number : Option Nat} {child : Node} : NumberOf nodes least number child →
      Says nodes least (.link number) (.node child)
  | links {numbers : List (Option Nat)} {children : List Node} :
      List.Forall₂ (NumberOf nodes least) numbers children →
      Says nodes least (.links numbers) (.nodes children)
  | text (text : Option String) : Says nodes least (.value (Json.optionalText text)) (.text text)
  | value (value : LiteralValue) : Says nodes least (.value (literalJson value)) (.value value)
  | errors (errors : List SyntaxError) :
      Says nodes least (.value (.list (errors.map errorJson))) (.errors errors)

/-- A record says what fields do (`Slot.Says`), under the same labels in the same order. -/
def SaysFields (nodes : List Node) (least : Nat) (record : Record)
    (fields : List (String × Field)) : Prop :=
  List.Forall₂ (fun entry field => entry.1 = field.1 ∧ Slot.Says nodes least entry.2 field.2)
    record fields

section

variable {nodes : List Node} {least : Nat}

/-- `NumberOf` stays true with more nodes. -/
theorem NumberOf.append {number : Option Nat} {node : Node} (h : NumberOf nodes least number node)
    (more : List Node) : NumberOf (nodes ++ more) least number node := by
  cases h with
  | absent => exact .absent
  | number hleast hnode =>
    refine .number hleast ?_
    rw [List.getElem?_append_left (List.getElem?_eq_some_iff.mp hnode).1, hnode]

/-- `Slot.Says` stays true with more nodes. -/
theorem Slot.Says.append {slot : Slot} {field : Field} (h : slot.Says nodes least field)
    (more : List Node) : slot.Says (nodes ++ more) least field := by
  cases h with
  | link hchild => exact .link (hchild.append more)
  | links hchildren => exact .links (hchildren.imp fun _ _ hchild => hchild.append more)
  | text text => exact .text text
  | value value => exact .value value
  | errors errors => exact .errors errors

/-- `SaysFields` stays true with more nodes. -/
theorem SaysFields.append {record : Record} {fields : List (String × Field)}
    (h : SaysFields nodes least record fields) (more : List Node) :
    SaysFields (nodes ++ more) least record fields :=
  List.Forall₂.imp (fun _ _ hentry => ⟨hentry.1, hentry.2.append more⟩) h

end

/-! ## Numbers for nodes -/

namespace Table

/-- A table with one more node, which has the next number and is `pending`. -/
def add (table : Table) (node : Node) : Table :=
  ⟨table.records.push none, (table.records.size, node) :: table.pending⟩

/-- A table with more nodes, one by one (`Table.add`). -/
def addAll (table : Table) (nodes : List Node) : Table := nodes.foldl add table

/-- `addAll` adds nodes in two parts as in one. -/
theorem addAll_append (table : Table) (nodes more : List Node) :
    table.addAll (nodes ++ more) = (table.addAll nodes).addAll more := List.foldl_append

/-- `addAll` makes as many more places as there are more nodes. -/
theorem size_addAll (table : Table) (nodes : List Node) :
    (table.addAll nodes).records.size = table.records.size + nodes.length := by
  induction nodes generalizing table with
  | nil => rfl
  | cons node nodes ih =>
    show ((table.add node).addAll nodes).records.size = _
    rw [ih, add, Array.size_push, List.length_cons]
    omega

/-- `addAll` makes the next numbers pending, besides those that were. -/
theorem pending_addAll_perm (table : Table) (nodes : List Node) :
    ((table.addAll nodes).pending.map (·.1)).Perm
      (table.pending.map (·.1) ++ List.range' table.records.size nodes.length) := by
  induction nodes generalizing table with
  | nil => simp [addAll]
  | cons node nodes ih =>
    refine (ih (table.add node)).trans ?_
    rw [add, Array.size_push, List.length_cons, List.range'_succ, List.map_cons, List.cons_append]
    exact List.perm_middle.symm

/-- `reserve` gives a node that is there the next number. -/
theorem reserve_of_present {node : Node} (h : node.isAbsent = false) (table : Table) :
    table.reserve node = (some table.records.size, table.add node) := by
  rw [reserve, h]
  rfl

/-- `reserve` adds its node to the table if the node is there. -/
theorem reserve_snd (table : Table) (node : Node) :
    (table.reserve node).2 = table.addAll (present [node]) := by
  cases h : node.isAbsent
  · rw [reserve_of_present h, present, List.filter_cons_of_pos (by simp [h])]
    rfl
  · rw [reserve, h, present, List.filter_cons_of_neg (by simp [h])]
    rfl

/-- `reserveAll` adds those of its nodes to the table that are there. -/
theorem reserveAll_snd (table : Table) (nodes : List Node) :
    (table.reserveAll nodes).2 = table.addAll (present nodes) := by
  induction nodes generalizing table with
  | nil => rfl
  | cons node nodes ih =>
    show ((table.reserve node).2.reserveAll nodes).2 = _
    rw [ih, reserve_snd, ← addAll_append, ← present_append, List.singleton_append]

/-- `slot` adds the nodes of its field to the table that are there. -/
theorem slot_snd (table : Table) (field : Field) :
    (table.slot field).2 = table.addAll (present field.contents) := by
  cases field with
  | node node => exact table.reserve_snd node
  | nodes nodes => exact table.reserveAll_snd nodes
  | text | value | errors => rfl

/-- `record` adds the nodes of all its fields to the table that are there. -/
theorem record_snd (table : Table) (fields : List (String × Field)) :
    (table.record fields).2 = table.addAll (present (fields.flatMap (·.2.contents))) := by
  induction fields generalizing table with
  | nil => rfl
  | cons field fields ih =>
    show ((table.slot field.2).2.record fields).2 = _
    rw [ih, slot_snd, ← addAll_append, ← present_append, List.flatMap_cons]

variable {table : Table} {nodes : List Node} {least : Nat}

/-- `reserve` answers with the number of its node. -/
theorem numberOf_reserve (hsize : table.records.size = nodes.length) (hleast : least ≤ nodes.length)
    (node : Node) : NumberOf (nodes ++ present [node]) least (table.reserve node).1 node := by
  cases h : node.isAbsent
  · rw [reserve_of_present h]
    refine .number (hsize ▸ hleast) ?_
    have hpresent : present [node] = [node] := List.filter_cons_of_pos (by simp [h])
    rw [hsize, hpresent, List.getElem?_concat_length]
  · have habsent : node = .absent := by
      cases node
      case absent => rfl
      all_goals cases h
    subst habsent
    exact .absent

/-- `reserveAll` answers with the numbers of its nodes in order. -/
theorem numberOf_reserveAll (hsize : table.records.size = nodes.length)
    (hleast : least ≤ nodes.length) (children : List Node) :
    List.Forall₂ (NumberOf (nodes ++ present children) least) (table.reserveAll children).1
      children := by
  induction children generalizing table nodes with
  | nil => exact .nil
  | cons child children ih =>
    have hfirst := numberOf_reserve hsize hleast child
    have hrest : List.Forall₂ (NumberOf (nodes ++ present [child] ++ present children) least)
        ((table.reserve child).2.reserveAll children).1 children :=
      ih (by rw [reserve_snd, size_addAll, hsize, List.length_append])
        (by rw [List.length_append]; omega)
    rw [← List.singleton_append, present_append, ← List.append_assoc]
    exact .cons (hfirst.append _) hrest

/-- `slot` answers with what `Says` the same as its field. -/
theorem slot_says (hsize : table.records.size = nodes.length) (hleast : least ≤ nodes.length)
    (field : Field) :
    (table.slot field).1.Says (nodes ++ present field.contents) least field := by
  cases field with
  | node child => exact .link (numberOf_reserve hsize hleast child)
  | nodes children => exact .links (numberOf_reserveAll hsize hleast children)
  | text text => exact .text text
  | value value => exact .value value
  | errors errors => exact .errors errors

/-- `record` answers with a record that says what its fields do. -/
theorem record_says (hsize : table.records.size = nodes.length) (hleast : least ≤ nodes.length)
    (fields : List (String × Field)) :
    SaysFields (nodes ++ present (fields.flatMap (·.2.contents))) least (table.record fields).1
      fields := by
  induction fields generalizing table nodes with
  | nil => exact .nil
  | cons field fields ih =>
    have hfirst := slot_says hsize hleast field.2
    have hrest : SaysFields (nodes ++ present field.2.contents ++
        present (fields.flatMap (·.2.contents))) least ((table.slot field.2).2.record fields).1
          fields :=
      ih (by rw [slot_snd, size_addAll, hsize, List.length_append])
        (by rw [List.length_append]; omega)
    rw [List.flatMap_cons, present_append, ← List.append_assoc]
    exact .cons ⟨rfl, hfirst.append _⟩ hrest

/-! ## What a table holds -/

/-- What a table says about the nodes that have numbers. Some of them may have been `taken` from the
pending ones to fill their places. -/
structure Holds (nodes : List Node) (taken : List Nat) (table : Table) : Prop where
  size : table.records.size = nodes.length
  isPresent : ∀ node ∈ nodes, node.isAbsent = false
  pending : ∀ entry ∈ table.pending, nodes[entry.1]? = some entry.2
  /-- The places that are empty are those of nodes that are taken or pending. -/
  empty : ∀ number, table.records[number]? = some none ↔
    number ∈ taken ++ table.pending.map (·.1)
  nodup : (taken ++ table.pending.map (·.1)).Nodup
  /-- A record is that of the node with its number, and it links to greater numbers. -/
  filled : ∀ number record, table.records[number]? = some (some record) →
    ∃ node slots, nodes[number]? = some node ∧ record = heading node ++ slots ∧
      SaysFields nodes (number + 1) slots node.fields

namespace Holds

variable {taken : List Nat} {number : Nat} {node : Node}

/-- `Holds` stays true with one more node, which is pending at an empty place. -/
theorem add (h : table.Holds nodes taken) (hnode : node.isAbsent = false) :
    (table.add node).Holds (nodes ++ [node]) taken where
  size := by rw [Table.add, Array.size_push, h.size, List.length_append, List.length_singleton]
  isPresent := List.forall_mem_append.mpr ⟨h.isPresent, List.forall_mem_singleton.mpr hnode⟩
  pending := by
    refine List.forall_mem_cons.mpr ⟨?_, fun entry hentry => ?_⟩
    · rw [h.size, List.getElem?_concat_length]
    · have hfound := h.pending entry hentry
      rw [List.getElem?_append_left (List.getElem?_eq_some_iff.mp hfound).1, hfound]
  empty other := by
    have hempty := h.empty other
    simp only [List.mem_append] at hempty
    simp only [Table.add, Array.getElem?_push, List.map_cons, List.mem_append, List.mem_cons]
    by_cases heq : other = table.records.size
    · simp [heq]
    · simp only [heq, if_false, false_or]
      exact hempty
  nodup := by
    -- the next number belongs to no place so far
    have hnew : table.records.size ∉ taken ++ table.pending.map (·.1) := fun hmem => by
      have hplace := (h.empty _).mpr hmem
      simp at hplace
    exact (List.perm_middle.nodup_iff).mpr (List.nodup_cons.mpr ⟨hnew, h.nodup⟩)
  filled other record hrecord := by
    rw [Table.add, Array.getElem?_push] at hrecord
    split at hrecord
    · cases hrecord
    · obtain ⟨found, slots, hfound, hslots, hsays⟩ := h.filled other record hrecord
      refine ⟨found, slots, ?_, hslots, hsays.append _⟩
      rw [List.getElem?_append_left (List.getElem?_eq_some_iff.mp hfound).1, hfound]

/-- `Holds` stays true with more nodes, which are pending at empty places. -/
theorem addAll {more : List Node} (h : table.Holds nodes taken)
    (hmore : ∀ node ∈ more, node.isAbsent = false) :
    (table.addAll more).Holds (nodes ++ more) taken := by
  induction more generalizing table nodes with
  | nil =>
    rw [List.append_nil]
    exact h
  | cons node more ih =>
    obtain ⟨hnode, hmore⟩ := List.forall_mem_cons.mp hmore
    have hrest := ih (h.add hnode) hmore
    rw [List.append_assoc] at hrest
    exact hrest

/-- The place of a node that is pending is empty. -/
theorem place_eq {records : Array (Option Record)} {pending : List (Nat × Node)}
    (h : (Table.mk records ((number, node) :: pending)).Holds nodes []) :
    records[number]? = some none :=
  (h.empty number).mpr List.mem_cons_self

/-- `Holds` stays true when the place of a node is filled: the table holds the nodes under its
labels too. -/
theorem fill {records : Array (Option Record)} {pending : List (Nat × Node)}
    (h : (Table.mk records ((number, node) :: pending)).Holds nodes []) :
    ((Table.mk records pending).fill number node).Holds (nodes ++ present node.contents) [] := by
  -- the node is no longer pending, and its place is still empty
  have htaken : (Table.mk records pending).Holds nodes [number] :=
    ⟨h.size, h.isPresent, fun entry hentry => h.pending entry (List.mem_cons_of_mem _ hentry),
      h.empty, h.nodup, h.filled⟩
  have hnode : nodes[number]? = some node := h.pending _ List.mem_cons_self
  have hlt : number < nodes.length := (List.getElem?_eq_some_iff.mp hnode).1
  have hrecord : SaysFields (nodes ++ present node.contents) (number + 1)
      ((Table.mk records pending).record node.fields).1 node.fields :=
    record_says htaken.size (Nat.succ_le_of_lt hlt) node.fields
  -- the nodes under its labels get places of their own, which leaves the place as it is
  have hkids : ((Table.mk records pending).addAll (present node.contents)).Holds
      (nodes ++ present node.contents) [number] := htaken.addAll (by simp [present])
  have htable : ((Table.mk records pending).record node.fields).2 =
      (Table.mk records pending).addAll (present node.contents) :=
    record_snd _ _
  unfold Table.fill
  rw [← htable] at hkids
  revert hkids hrecord
  generalize (Table.mk records pending).record node.fields = made
  obtain ⟨record, table⟩ := made
  intro hrecord hkids
  dsimp only at hrecord hkids ⊢
  have hsize : number < table.records.size := by
    rw [hkids.size, List.length_append]
    omega
  obtain ⟨hnot, hnodup⟩ := List.nodup_cons.mp hkids.nodup
  constructor
  · rw [Array.set!_eq_setIfInBounds, Array.size_setIfInBounds, hkids.size]
  · exact hkids.isPresent
  · exact hkids.pending
  · intro other
    have hempty := hkids.empty other
    simp only [List.singleton_append, List.mem_cons] at hempty
    rw [Array.set!_eq_setIfInBounds, Array.getElem?_setIfInBounds]
    by_cases heq : number = other
    · subst heq
      simpa [hsize] using hnot
    · rw [if_neg heq, hempty]
      simp [Ne.symm heq]
  · exact hnodup
  · intro other found hfound
    rw [Array.set!_eq_setIfInBounds, Array.getElem?_setIfInBounds] at hfound
    by_cases heq : number = other
    · subst heq
      rw [if_pos rfl, if_pos hsize] at hfound
      cases hfound
      refine ⟨node, record, ?_, rfl, hrecord⟩
      rw [List.getElem?_append_left hlt, hnode]
    · rw [if_neg heq] at hfound
      exact hkids.filled other found hfound

end Holds

/-! ## Filling all places -/

/-- Places are filled (`Table.fill`) one after the other, each of them empty until then, up to a
table in which no node is pending. -/
inductive Completes : Table → List Nat → Array (Option Record) → Prop where
  | done {records : Array (Option Record)} : Completes ⟨records, []⟩ [] records
  | fill {records last : Array (Option Record)} {pending : List (Nat × Node)} {number : Nat}
      {node : Node} {numbers : List Nat} : records[number]? = some none →
      Completes ((Table.mk records pending).fill number node) numbers last →
      Completes ⟨records, (number, node) :: pending⟩ (number :: numbers) last

/-- `fill` makes as many places as there are nodes under the labels of its node. -/
theorem size_fill (table : Table) (number : Nat) (node : Node) :
    (table.fill number node).records.size =
      table.records.size + (present node.contents).length := by
  have htable := table.record_snd node.fields
  show (Array.set! (table.record node.fields).2.records _ _).size = _
  rw [Array.set!_eq_setIfInBounds, Array.size_setIfInBounds, htable, size_addAll]
  rfl

/-- `fill` makes the nodes under the labels of its node pending, with the next numbers. -/
theorem pending_fill_perm (table : Table) (number : Nat) (node : Node) :
    ((table.fill number node).pending.map (·.1)).Perm (table.pending.map (·.1) ++
      List.range' table.records.size (present node.contents).length) := by
  show ((table.record node.fields).2.pending.map (·.1)).Perm _
  rw [record_snd]
  exact pending_addAll_perm table (present node.contents)

/-- A table that `Holds` nodes is completed: all its places are filled in the end, those of the
pending nodes and those that come up, each once. -/
theorem Holds.completes (h : table.Holds nodes []) : ∃ numbers more,
    Completes table numbers table.complete ∧
      (Table.mk table.complete []).Holds (nodes ++ more) [] ∧
      numbers.Perm (table.pending.map (·.1) ++ List.range' table.records.size more.length) := by
  induction table using Table.complete.induct generalizing nodes with
  | case1 records =>
    refine ⟨[], [], ?_, ?_, .nil⟩ <;> rw [complete]
    · exact .done
    · rw [List.append_nil]
      exact h
  | case2 records number node pending ih =>
    obtain ⟨numbers, more, hcompletes, hholds, hperm⟩ := ih h.fill
    refine ⟨number :: numbers, present node.contents ++ more, ?_, ?_, ?_⟩
    · rw [complete]
      exact .fill h.place_eq hcompletes
    · rw [complete, ← List.append_assoc]
      exact hholds
    · -- the numbers that come up now are followed by those that come up later
      have hpending := pending_fill_perm ⟨records, pending⟩ number node
      rw [size_fill] at hperm
      rw [List.map_cons, List.cons_append, List.length_append, ← List.range'_append_1,
        ← List.append_assoc]
      exact .cons number (hperm.trans (hpending.append_right _))

end Table

/-! ## Putting the table together -/

variable {nodes : List Node} {least size : Nat} {done : Array Json}

/-- Whether the nodes from the number `least` on have been written out, the greatest number
first. -/
def Done (nodes : List Node) (least size : Nat) (done : Array Json) : Prop :=
  ∀ number node, least ≤ number → nodes[number]? = some node →
    done[size - 1 - number]? = some node.recursiveJson

/-- A `NumberOf` a node stands for what the node is written out as. -/
theorem NumberOf.resolved_eq {number : Option Nat} {node : Node}
    (h : NumberOf nodes least number node) (hdone : Done nodes least size done) :
    resolved size done number = node.recursiveJson := by
  cases h with
  | absent => exact recursiveJson_absent.symm
  | number hleast hnode =>
    show (done[size - 1 - _]?).getD .null = _
    rw [hdone _ _ hleast hnode, Option.getD_some]

/-- A list of numbers stands for what its nodes are written out as. -/
theorem map_resolved_eq {numbers : List (Option Nat)} {children : List Node}
    (h : List.Forall₂ (NumberOf nodes least) numbers children)
    (hdone : Done nodes least size done) :
    numbers.map (resolved size done) = recursiveItems children := by
  induction h with
  | nil => rw [recursiveItems, List.map_nil]
  | cons hchild _ ih => rw [recursiveItems, List.map_cons, hchild.resolved_eq hdone, ih]

/-- A slot that `Says` what a field does comes to what the field is written out as. -/
theorem Slot.Says.json_eq {slot : Slot} {field : Field} (h : slot.Says nodes least field)
    (hdone : Done nodes least size done) : slot.json size done = recursiveValue field := by
  cases h with
  | link hchild =>
    rw [recursiveValue]
    exact hchild.resolved_eq hdone
  | links hchildren =>
    rw [recursiveValue, Slot.json, map_resolved_eq hchildren hdone]
  | text text => cases text <;> rw [recursiveValue] <;> rfl
  | value value =>
    -- the reference has a case for each kind of value, and the table asks for it in one place
    cases value <;> rw [recursiveValue] <;> rfl
  | errors errors =>
    rw [recursiveValue]
    rfl

/-- A record that `SaysFields` comes to the members of an object. -/
theorem SaysFields.members_eq {record : Record} {fields : List (String × Field)}
    (h : SaysFields nodes least record fields) (hdone : Done nodes least size done) :
    record.map (fun (label, slot) => (label, slot.json size done)) = recursiveMembers fields := by
  induction h with
  | nil => rw [recursiveMembers, List.map_nil]
  | @cons entry field record fields hentry _ ih =>
    obtain ⟨label, slot⟩ := entry
    obtain ⟨label', field⟩ := field
    obtain ⟨rfl, hsays⟩ := hentry
    rw [recursiveMembers, List.map_cons, ih, ← hsays.json_eq hdone]

/-- `recordJson` writes the record of a node as what `recursiveJson` gives. -/
theorem recordJson_eq {node : Node} {slots : Record} (hnode : node.isAbsent = false)
    (h : SaysFields nodes least slots node.fields) (hdone : Done nodes least size done) :
    recordJson size done (heading node ++ slots) = node.recursiveJson := by
  rw [recursiveJson_of_present hnode, recordJson, List.map_append, h.members_eq hdone]
  rfl

/-- One more record is put together (`recordJson`), by those before it. -/
def putTogether (size : Nat) (place : Option Record) (done : Array Json) : Array Json :=
  done.push (recordJson size done (place.getD []))

/-- `putTogether` on the records from a number on gets their nodes `Done`, from the last one to that
of the number. -/
theorem done_putTogether {places : List (Option Record)} (first : Nat)
    (hsize : first + places.length = nodes.length)
    (hplaces : ∀ i place, places[i]? = some place → ∃ node slots, nodes[first + i]? = some node ∧
      node.isAbsent = false ∧ place = some (heading node ++ slots) ∧
      SaysFields nodes (first + i + 1) slots node.fields) :
    (places.foldr (putTogether nodes.length) #[]).size = places.length ∧
      Done nodes first nodes.length (places.foldr (putTogether nodes.length) #[]) := by
  induction places generalizing first with
  | nil =>
    refine ⟨rfl, fun number node hle hnode => ?_⟩
    have hlt := (List.getElem?_eq_some_iff.mp hnode).1
    rw [List.length_nil] at hsize
    omega
  | cons place places ih =>
    rw [List.length_cons] at hsize
    obtain ⟨hlength, hdone⟩ := ih (first + 1) (by omega) fun i later hlater => by
      rw [Nat.add_assoc, Nat.add_comm 1 i]
      exact hplaces (i + 1) later hlater
    obtain ⟨node, slots, hnode, hpresent, rfl, hslots⟩ := hplaces 0 place rfl
    rw [List.foldr_cons]
    generalize places.foldr (putTogether nodes.length) #[] = done at hlength hdone ⊢
    -- the numbers of the children are larger, so their records have been put together before
    have hrecord := recordJson_eq hpresent hslots hdone
    refine ⟨by rw [putTogether, Array.size_push, hlength, List.length_cons], ?_⟩
    intro number found hle hfound
    have hlt := (List.getElem?_eq_some_iff.mp hfound).1
    rw [putTogether, Array.getElem?_push]
    rcases Nat.eq_or_lt_of_le hle with rfl | hlater
    · -- the record that is put in last is that of the number itself
      obtain rfl := Option.some.inj (hnode.symm.trans hfound)
      rw [if_pos (by omega), Option.getD_some, hrecord]
    · rw [if_neg (by omega)]
      exact hdone number found hlater hfound

/-- `assemble` gets the nodes of a table `Done` in which nothing is pending. -/
theorem Table.Holds.done_assemble {records : Array (Option Record)}
    (h : (Table.mk records []).Holds nodes []) :
    Done nodes 0 records.size (assemble records) := by
  -- going through the records from their end is folding them from the right
  have hassemble : assemble records = records.toList.foldr (putTogether nodes.length) #[] := by
    rw [assemble, List.foldl_reverse, h.size]
    rfl
  rw [hassemble, h.size]
  refine (done_putTogether 0 ?_ fun i place hplace => ?_).2
  · rw [Array.length_toList, h.size, Nat.zero_add]
  · rw [Array.getElem?_toList] at hplace
    rw [Nat.zero_add]
    cases place with
    | none => exact absurd ((h.empty i).mp hplace) List.not_mem_nil
    | some record =>
      obtain ⟨node, slots, hnode, rfl, hslots⟩ := h.filled i record hplace
      exact ⟨node, slots, hnode, h.isPresent node (List.mem_of_getElem? hnode), rfl, hslots⟩

/-! ## Trees -/

/-- The table that a tree is written out from: the root is `pending`, if there is one. -/
def startTable (node : Node) : Table := (Table.reserve ⟨#[], []⟩ node).2

/-- `Holds` holds of the table without places. -/
theorem Table.holds_empty : (Table.mk #[] []).Holds [] [] :=
  ⟨rfl, by simp, by simp, by simp, .nil, by simp⟩

/-- The `startTable` of a tree is completed place by place, each of them once. The number that the
tree was given is its number among the nodes of the last table. -/
theorem completes_startTable (node : Node) : ∃ numbers nodes,
    Table.Completes node.startTable numbers node.startTable.complete ∧
      (Table.mk node.startTable.complete []).Holds nodes [] ∧
      numbers.Perm (List.range node.startTable.complete.size) ∧
      NumberOf nodes 0 (Table.reserve ⟨#[], []⟩ node).1 node := by
  cases habsent : node.isAbsent with
  | true =>
    have hnode : node = .absent := by
      cases node
      case absent => rfl
      all_goals cases habsent
    subst hnode
    have hcomplete : (startTable .absent).complete = #[] := by
      rw [startTable, Table.reserve, habsent, if_pos rfl, Table.complete]
    rw [hcomplete]
    exact ⟨[], [], .done, Table.holds_empty, .nil, .absent⟩
  | false =>
    have hstart : node.startTable = Table.add ⟨#[], []⟩ node := by
      rw [startTable, Table.reserve_of_present habsent]
    have hholds : node.startTable.Holds [node] [] := hstart ▸ Table.holds_empty.add habsent
    obtain ⟨numbers, more, hcompletes, hlast, hperm⟩ := hholds.completes
    have hsize : node.startTable.complete.size = 1 + more.length := by
      rw [hlast.size, List.length_append, List.length_singleton]
    refine ⟨numbers, [node] ++ more, hcompletes, hlast, ?_, ?_⟩
    · -- the root has the number 0, and all others came up
      rw [hsize, List.range_eq_range', ← List.range'_append_1]
      rw [hstart] at hperm
      exact hperm
    · rw [Table.reserve_of_present habsent]
      exact .number (Nat.le_refl _) rfl

/-- `json` writes a tree as the value that `recursiveJson` gives. -/
theorem json_eq_recursiveJson (node : Node) : node.json = node.recursiveJson := by
  obtain ⟨numbers, nodes, -, hholds, -, hroot⟩ := completes_startTable node
  exact hroot.resolved_eq hholds.done_assemble

/-- A tree is written out completely by `Node.json`, and as by recursion (`Node.recursiveJson`). -/
structure WrittenOut (node : Node) : Prop where
  /-- The places are filled one after the other, and each one once, for as many as come up. -/
  completes : ∃ numbers, Table.Completes node.startTable numbers node.startTable.complete ∧
    numbers.Perm (List.range node.startTable.complete.size)
  /-- No place is left empty. -/
  filled : ∀ place ∈ node.startTable.complete.toList, place.isSome
  /-- `json` writes the value that recursion does: the same members and items in the same order. -/
  json : node.json = node.recursiveJson
  /-- No label of a node comes twice, so the order of the members is that of their labels. -/
  labels : ((heading node).map (·.1) ++ node.fields.map (·.1)).Nodup

/-- Whatever the shape of a tree, it is `WrittenOut`: completely, and as by recursion. -/
theorem writtenOut (node : Node) : WrittenOut node := by
  obtain ⟨numbers, nodes, hcompletes, hholds, hperm, -⟩ := completes_startTable node
  refine ⟨⟨numbers, hcompletes, hperm⟩, fun place hplace => ?_, json_eq_recursiveJson node, ?_⟩
  · obtain ⟨number, hnumber⟩ := List.mem_iff_getElem?.mp hplace
    rw [Array.getElem?_toList] at hnumber
    cases place with
    | none => exact absurd ((hholds.empty number).mp hnumber) List.not_mem_nil
    | some record => rfl
  · cases node <;> simp [heading, fields]

end NeutronLang.Node
