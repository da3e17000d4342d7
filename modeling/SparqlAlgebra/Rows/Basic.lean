import SparqlAlgebra.Op.Basic

/-!
What the operators on whole solutions make of a list of rows: duplicate elimination, exact or with a
memory of recent rows, sorting by several keys, and grouping by the values of variables, with
aggregates over each group.
-/

namespace SparqlAlgebra

namespace Rows

/-- The first occurrences in a list of what is not in `seen`. -/
def firsts {α : Type} [DecidableEq α] (seen : List α) : List α → List α
  | [] => []
  | x :: rest => if x ∈ seen then firsts seen rest else x :: firsts (x :: seen) rest

/-- A memory of rows: it tells whether it knows a row, and takes in a row that it does not know. It
may forget, and what it is asked may change what it forgets next. -/
structure Memory (σ : Type) where
  get : σ → Binding → Bool × σ
  put : σ → Binding → σ

/-- A row that comes by: whether it is known, and the memory afterwards. -/
def Memory.meet {σ : Type} (m : Memory σ) (s : σ) (b : Binding) : Bool × σ :=
  match m.get s b with
  | (true, s) => (true, s)
  | (false, s) => (false, m.put s b)

/-- The memory of recent rows, last met first. A known row moves to the front, and the oldest ones
leave when more than `capacity` are there. -/
def window (capacity : Nat) : Memory (List Binding) where
  get recent b := if recent.contains b then (true, b :: recent.erase b) else (false, recent)
  put recent b := (b :: recent).take capacity

end Rows

/-- The comparison of a key's values in its direction. -/
def Direction.cmp (d : Direction) (a b : Option Term) : Ordering :=
  match d with
  | .ascending => Term.sortCmp? a b
  | .descending => (Term.sortCmp? a b).swap

namespace Rows

/-- The values of the sort keys on a row; a key that fails counts as unbound. -/
def sortValues (fs : Functions) (keys : List SortKey) (b : Binding) : List (Option Term) :=
  keys.map fun k => (k.expr.eval fs b).toOption

/-- The first key on which two rows differ decides. -/
def sortCmp : List Direction → List (Option Term) → List (Option Term) → Ordering
  | d :: ds, a :: as, b :: bs => (d.cmp a b).then (sortCmp ds as bs)
  | _, _, _ => .eq

/-- The rows in the order of the keys, most significant first; rows that tie keep their order. -/
def sort (fs : Functions) (keys : List SortKey) (rows : List Binding) : List Binding :=
  let directions := keys.map (·.direction)
  let keyed := rows.map fun b => (sortValues fs keys b, b)
  (keyed.mergeSort fun x y => (sortCmp directions x.1 y.1).isLE).map (·.2)

end Rows

namespace Aggregator

/-- The values of an expression on the rows where it has one. -/
def values (fs : Functions) (e : Expr) (rows : List Binding) : List Term :=
  rows.filterMap fun b => (e.eval fs b).toOption

def addTo (total : Numeric) (t : Term) : Except EvalError Numeric :=
  match t.numeric? with
  | some x => total.apply .add x
  | none => .error (.typeMismatch "sum of non-numeric value")

/-- The sum of numeric literals, from integer zero. -/
def total (values : List Term) : Except EvalError Numeric := values.foldlM addTo (.integer 0)

/-- The first least value. -/
def least : List Term → Option Term
  | [] => none
  | t :: ts => some (ts.foldl (fun x y => if Term.sortCmp x y = .gt then y else x) t)

/-- The last greatest value. -/
def greatest : List Term → Option Term
  | [] => none
  | t :: ts => some (ts.foldl (fun x y => if Term.sortCmp x y = .gt then x else y) t)

def countTerm (n : Nat) : Option Term := (Number.toInt64? n).map .int

/-- The value of an aggregate over the rows of a group, where it has one. -/
def eval (fs : Functions) (rows : List Binding) : Aggregator → Option Term
  | count none distinct => countTerm (if distinct then Rows.firsts [] rows else rows).length
  | count (some e) distinct =>
    let ts := values fs e rows
    countTerm (if distinct then Rows.firsts [] ts else ts).length
  | sum e => (total (values fs e rows)).toOption.map Numeric.toTerm
  | avg e =>
    let ts := values fs e rows
    if ts.isEmpty then some (.int 0)
    else (total ts).toOption.map fun x => .double (x.toDouble / ts.length.toFloat)
  | min e => least (values fs e rows)
  | max e => greatest (values fs e rows)
  | sample e => (values fs e rows).head?
  | groupConcat e separator =>
    some (.string (separator.intercalate ((values fs e rows).map Term.lexical)))

end Aggregator

namespace Rows

def groupKey (vars : List Var) (b : Binding) : List (Option Term) := vars.map b.get?

/-- Groups that fill up: each with its key and its rows so far, in the order in which the keys came
up, and the place of the group of each key. -/
structure Slots where
  index : List (List (Option Term) × Nat) := []
  groups : List (List (Option Term) × List Binding) := []

/-- Puts a row behind the rows of its group, or into a new group when its key comes up first. -/
def Slots.enter (vars : List Var) (s : Slots) (b : Binding) : Slots :=
  let key := groupKey vars b
  match s.index.lookup key with
  | some i => { s with groups := s.groups.modify i fun g => (g.1, g.2 ++ [b]) }
  | none =>
    { index := (key, s.groups.length) :: s.index, groups := s.groups ++ [(key, [b])] }

/-- The groups of some rows. Without grouping variables there is one group even if there are no
rows. -/
def groups (vars : List Var) (rows : List Binding) : List (List (Option Term) × List Binding) :=
  let filled := (rows.foldl (Slots.enter vars) {}).groups
  if filled.isEmpty && vars.isEmpty then [([], [])] else filled

/-- The row of a group: its key, then the aggregates that have a value, later ones replacing. -/
def groupRow (fs : Functions) (vars : List Var) (aggs : List Aggregation)
    (key : List (Option Term)) (rows : List Binding) : Binding :=
  let bound := (vars.zip key).foldl (fun b (v, t) => t.elim b (b.insert v)) ∅
  aggs.foldl (fun b a => (a.aggregator.eval fs rows).elim b (b.insert a.var)) bound

/-- One row for each group. -/
def group (fs : Functions) (vars : List Var) (aggs : List Aggregation) (rows : List Binding) :
    List Binding :=
  (groups vars rows).map fun (key, members) => groupRow fs vars aggs key members

end Rows

end SparqlAlgebra
