import NeutronLang.Json.Basic
import NeutronLang.Node.Basic

/-!
# Trees as JSON

A tree is written as nested JSON objects without following it by recursion, since a chain of
operators nests one level per term. Each node is given a number and an empty place in a table; the
places are filled one by one, with the numbers of children in the place of the children; and as a
child has a greater number than its parent, the table is put together from its end.
-/

namespace NeutronLang

namespace Field

/-- The nodes under a label. -/
def contents : Field → List Node
  | node child => [child]
  | nodes children => children
  | text _ | value _ | errors _ => []

end Field

namespace Node

/-- The nodes under the labels of a node (`Field.contents`). -/
def contents (node : Node) : List Node := node.fields.flatMap (·.2.contents)

/-- `sizes` of two lists of nodes add up to those of the lists together. -/
theorem sizes_append (first second : List Node) :
    sizes (first ++ second) = sizes first + sizes second := by
  induction first with
  | nil => simp
  | cons node nodes ih => simp [ih]; omega

/-- `sizes` of nodes add up to less than that of their list. -/
theorem sizes_le (nodes : List Node) : sizes nodes ≤ sizeOf nodes := by
  induction nodes with
  | nil => simp
  | cons node nodes ih => simp; omega

/-- `sizes` of the nodes under the labels of a node add up to less than that of the node. -/
theorem sizes_contents_lt (node : Node) : sizes node.contents < sizeOf node := by
  cases node
  all_goals simp only [contents, fields, Field.contents, List.flatMap_cons, List.flatMap_nil,
    List.append_nil, List.nil_append, List.cons_append, sizes, sizes_append]
  case functionDeclaration span name params body =>
    have := sizes_le params
    simp +arith
    omega
  case program span nodes _ | block span nodes | array span nodes | object span nodes =>
    have := sizes_le nodes
    simp +arith
    omega
  case call span callee nodes =>
    have := sizes_le nodes
    simp +arith
    omega
  all_goals simp +arith

/-! ## The table -/

/-- What a `Record` holds under a label: a value, or the numbers of nodes where there are any. -/
inductive Slot where
  | value (json : Json)
  | link (number : Option Nat)
  | links (numbers : List (Option Nat))

/-- The record of a node: what its `Slot`s hold, by their labels. -/
abbrev Record := List (String × Slot)

/-- The records of nodes by their numbers, an empty place for each node that is still `pending`. -/
structure Table where
  records : Array (Option Record)
  pending : List (Nat × Node)

/-- Gives a node the next number and an empty place; where a node `isAbsent` there is no number. -/
def Table.reserve (table : Table) (node : Node) : Option Nat × Table :=
  if node.isAbsent then (none, table)
  else (some table.records.size,
    { records := table.records.push none, pending := (table.records.size, node) :: table.pending })

/-- Gives numbers to nodes in order, each by `Table.reserve`. -/
def Table.reserveAll (table : Table) : List Node → List (Option Nat) × Table
  | [] => ([], table)
  | node :: nodes =>
    let (number, table) := table.reserve node
    let (numbers, table) := table.reserveAll nodes
    (number :: numbers, table)

/-- The value of a literal as JSON; what is not a number has none. -/
def literalJson : LiteralValue → Json
  | .integer value => .int value
  | .double value => if value.isNaN then .null else .double value
  | .text value => .text value
  | .boolean value => .bool value
  | .nil | .notANumber => .null

/-- An error of a program as JSON: its message and the offsets of its span. -/
def errorJson (error : SyntaxError) : Json :=
  .object [("message", .text error.fault.message), ("start", .int error.span.start),
    ("end", .int error.span.stop)]

/-- What a record holds in the place of a field, whose nodes get numbers. -/
def Table.slot (table : Table) : Field → Slot × Table
  | .node node =>
    let (number, table) := table.reserve node
    (.link number, table)
  | .nodes nodes =>
    let (numbers, table) := table.reserveAll nodes
    (.links numbers, table)
  | .text text => (.value (Json.optionalText text), table)
  | .value value => (.value (literalJson value), table)
  | .errors errors => (.value (.list (errors.map errorJson)), table)

/-- The record of fields, each by `Table.slot`. -/
def Table.record (table : Table) : List (String × Field) → Record × Table
  | [] => ([], table)
  | (label, field) :: fields =>
    let (slot, table) := table.slot field
    let (record, table) := table.record fields
    ((label, slot) :: record, table)

/-- What a record says about a node apart from its fields. -/
def heading (node : Node) : Record :=
  [("type", .value (.text node.kind)), ("start", .value (.int node.span.start)),
   ("end", .value (.int node.span.stop))]

/-- Fills the place of `node`, whose `number` it is. -/
def Table.fill (table : Table) (number : Nat) (node : Node) : Table :=
  let (record, table) := table.record node.fields
  { table with records := table.records.set! number (some (heading node ++ record)) }

/-- The size of what is pending, which each step of `complete` lowers. -/
noncomputable def Table.cost (table : Table) : Nat := sizes (table.pending.map (·.2))

/-- `reserve` costs at most the size of its node. -/
theorem Table.cost_reserve_le (table : Table) (node : Node) :
    (table.reserve node).2.cost ≤ table.cost + sizeOf node := by
  unfold reserve
  split
  · simp
  · simp [cost]; omega

/-- `reserveAll` costs at most the sizes of its nodes. -/
theorem Table.cost_reserveAll_le (table : Table) (nodes : List Node) :
    (table.reserveAll nodes).2.cost ≤ table.cost + sizes nodes := by
  induction nodes generalizing table with
  | nil => simp [reserveAll]
  | cons node nodes ih =>
    have first := table.cost_reserve_le node
    have rest := ih (table.reserve node).2
    simp only [reserveAll, sizes]
    omega

/-- `slot` costs at most the sizes of the nodes in its field. -/
theorem Table.cost_slot_le (table : Table) (field : Field) :
    (table.slot field).2.cost ≤ table.cost + sizes field.contents := by
  cases field with
  | node node => simpa [slot, Field.contents] using table.cost_reserve_le node
  | nodes nodes => simpa [slot, Field.contents] using table.cost_reserveAll_le nodes
  | text | value | errors => simp [slot, Field.contents]

/-- `record` costs at most the sizes of the nodes in its fields. -/
theorem Table.cost_record_le (table : Table) (fields : List (String × Field)) :
    (table.record fields).2.cost ≤ table.cost + sizes (fields.flatMap (·.2.contents)) := by
  induction fields generalizing table with
  | nil => simp [record]
  | cons field fields ih =>
    obtain ⟨label, field⟩ := field
    have first := table.cost_slot_le field
    have rest := ih (table.slot field).2
    simp only [record, List.flatMap_cons, sizes_append]
    omega

/-- `fill` costs less than the size of its node. -/
theorem Table.cost_fill_lt (table : Table) (number : Nat) (node : Node) :
    (table.fill number node).cost < table.cost + sizeOf node := by
  have record := table.cost_record_le node.fields
  have contents := node.sizes_contents_lt
  simp only [fill, cost] at record ⊢
  simp only [Node.contents] at contents
  omega

/-- Fills all places that are empty (`Table.fill`), and those that come up on the way. -/
def Table.complete (table : Table) : Array (Option Record) :=
  match table with
  | ⟨records, []⟩ => records
  | ⟨records, (number, node) :: pending⟩ => ((Table.mk records pending).fill number node).complete
termination_by table.cost
decreasing_by
  have := (Table.mk records pending).cost_fill_lt number node
  simp only [Table.cost, List.map_cons, sizes] at this ⊢
  omega

/-! ## Putting it together -/

/-- The JSON of a number, by that of all greater ones (`done`), the greatest number first. -/
def resolved (size : Nat) (done : Array Json) : Option Nat → Json
  | none => .null
  | some number => (done[size - 1 - number]?).getD .null

/-- The JSON of a slot, by that of all greater numbers (`done`). -/
def Slot.json (size : Nat) (done : Array Json) : Slot → Json
  | value json => json
  | link number => resolved size done number
  | links numbers => .list (numbers.map (resolved size done))

/-- The JSON of a record, by that of all greater numbers (`done`). -/
def recordJson (size : Nat) (done : Array Json) (record : Record) : Json :=
  .object (record.map fun (label, slot) => (label, slot.json size done))

/-- The JSON of all records, the last one first, each by `recordJson`. -/
def assemble (records : Array (Option Record)) : Array Json :=
  records.toList.reverse.foldl
    (fun done record => done.push (recordJson records.size done (record.getD []))) #[]

/-- A tree as JSON: its records are completed, and then assembled (`assemble`). -/
def json (node : Node) : Json :=
  let (root, table) := Table.reserve ⟨#[], []⟩ node
  let records := table.complete
  resolved records.size (assemble records) root

end Node

end NeutronLang
