import SparqlAlgebra.Expr.Eval
import SparqlAlgebra.Plan.Context

/-!
The operators of the algebra, with the tables, sort keys and aggregates that stand in them.
-/

namespace SparqlAlgebra

/-- Rows that stand in a query, with the variables they are declared to bind. -/
structure Table where
  vars : List Var := []
  rows : List Binding := []
deriving DecidableEq

namespace Table

instance : Inhabited Table := ⟨{}⟩

/-- One empty row, which joins with every row and changes none. -/
def unit : Table := { rows := [∅] }

/-- A table over some rows, declaring every variable that one of them binds. -/
def ofRows (rows : List Binding) : Table where
  vars := (SortedSet.ofList (rows.flatMap SortedMap.keys)).toList
  rows := rows

/-- Whether a join with the table changes nothing. -/
def isIdentity (t : Table) : Bool :=
  match t.rows with
  | [b] => b.isEmpty
  | _ => false

theorem rows_of_isIdentity (t : Table) (h : t.isIdentity = true) : t.rows = [∅] := by
  obtain ⟨vars, rows⟩ := t
  rcases rows with _ | ⟨⟨entries, ascending⟩, _ | ⟨c, rows⟩⟩
  · cases h
  · cases entries with
    | nil => rfl
    | cons e entries => cases h
  · cases h

end Table

/-- The direction of a sort key. -/
inductive Direction where
  | ascending
  | descending
deriving DecidableEq, Repr, Inhabited

/-- A sort key. -/
structure SortKey where
  expr : Expr
  direction : Direction := .ascending
deriving Inhabited

/-- An aggregate over the rows of a group. -/
inductive Aggregator where
  | count (expr : Option Expr) (distinct : Bool)
  | sum (e : Expr)
  | min (e : Expr)
  | max (e : Expr)
  | avg (e : Expr)
  | sample (e : Expr)
  | groupConcat (e : Expr) (separator : String)
deriving Inhabited

/-- An aggregate and the variable it binds. -/
structure Aggregation where
  var : Var
  aggregator : Aggregator
deriving Inhabited

/-- What an extension makes of the rows before it. It takes them as they are or not at all: one that
changes them, or reads them and hides their failures, is not of this kind. -/
inductive Extended where
  /-- It passes them on, with the failures among them. -/
  | input
  /-- It never reads them and gives rows of its own. -/
  | rows (l : List Binding)
  /-- It cannot be evaluated here. -/
  | declined

/-- An operator from outside. It is assumed to do one of the three or to fail, as the context
decides. -/
structure Extension where
  name : String
  eval : Context → Except PlanError Extended

/-- An operator tree. -/
inductive Op where
  | bgp (pattern : BasicPattern)
  | triple (t : TriplePattern)
  | quad (q : QuadPattern)
  | path (p : PathPattern)
  | join (left right : Op)
  | leftJoin (left right : Op) (exprs : Option (List Expr))
  | union (left right : Op)
  | diff (left right : Op)
  | conditional (left right : Op)
  | filter (exprs : List Expr) (sub : Op)
  | graph (name : Slot) (sub : Op)
  | service (endpoint : Slot) (sub : Op) (silent : Bool)
  | procedure (name : String) (args : List Expr) (sub : Op)
  | propFunc (property : String) (subject object : Argument) (sub : Op)
  | datasetNames (graph : Slot)
  | table (t : Table)
  | sequence (steps : List Op)
  | marker (label : String)
  | label (label : String) (sub : Op)
  | list (sub : Op)
  | null
  | project (vars : List Var) (sub : Op)
  | order (keys : List SortKey) (sub : Op)
  | slice (offset length : Option UInt64) (sub : Op)
  | distinct (sub : Op)
  | reduced (sub : Op)
  | group (vars : List Var) (aggs : List Aggregation) (sub : Op)
  | assign (assignments : List (Var × Expr)) (sub : Op)
  | ext (e : Extension)

namespace Op

instance : Inhabited Op := ⟨null⟩

def name : Op → String
  | bgp _ => "bgp"
  | triple _ => "triple"
  | quad _ => "quadpattern"
  | path _ => "path"
  | join .. => "join"
  | leftJoin .. => "leftjoin"
  | union .. => "union"
  | diff .. => "diff"
  | conditional .. => "conditional"
  | filter .. => "filter"
  | graph .. => "graph"
  | service .. => "service"
  | procedure .. => "proc"
  | propFunc .. => "propfunc"
  | datasetNames _ => "datasetnames"
  | table _ => "table"
  | sequence _ => "sequence"
  | marker _ => "label"
  | label .. => "label"
  | list _ => "tolist"
  | null => "null"
  | project .. => "project"
  | order .. => "order"
  | slice .. => "slice"
  | distinct _ => "distinct"
  | reduced _ => "reduced"
  | group .. => "group"
  | assign .. => "assign"
  | ext _ => "ext"

/-- Whether an operator changes the solutions as a whole and hides the scope below it. -/
def isModifier : Op → Bool
  | project .. | order .. | slice .. | distinct _ | reduced _ | group .. => true
  | _ => false

/-- The operators that a nest of unions joins, from left to right. -/
def branches : Op → List Op
  | union l r => branches l ++ branches r
  | op => [op]

end Op

end SparqlAlgebra
