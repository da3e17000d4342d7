import SparqlAlgebra.Rows.Basic

/-!
Stages of a running plan: trees of states from which rows are pulled, their release, and what a run
counts.
-/

namespace SparqlAlgebra

/-- What a run counts: pulls and releases of its outer source, and pieces of work by kind. -/
structure Tally where
  pulls : Nat := 0
  closes : Nat := 0
  compile : Nat := 0
  join : Nat := 0
  leftJoin : Nat := 0
  filter : Nat := 0
  sort : Nat := 0
  group : Nat := 0
  pattern : Nat := 0
deriving DecidableEq, Repr, Inhabited

namespace Tally

def add (a b : Tally) : Tally where
  pulls := a.pulls + b.pulls
  closes := a.closes + b.closes
  compile := a.compile + b.compile
  join := a.join + b.join
  leftJoin := a.leftJoin + b.leftJoin
  filter := a.filter + b.filter
  sort := a.sort + b.sort
  group := a.group + b.group
  pattern := a.pattern + b.pattern

instance : Add Tally := ⟨add⟩

end Tally

/-- What makes rows out of one row of input. A procedure remembers the rows it was asked. -/
inductive Expansion where
  | triple (t : TriplePattern) (g : Graph)
  | path (p : PathPattern) (g : Graph)
  | union (branches : List Op) (ctx : Context)
  | graph (name : Slot) (sub : Op) (ctx : Context)
  | service (endpoint : Slot) (sub : Op) (silent : Bool) (ctx : Context)
  | procedure (p : Procedure) (earlier : List Binding)

/-- An operator that waits to be compiled over a single row. -/
structure Seeded where
  op : Op
  seed : Binding
  ctx : Context

/-- What becomes of single rows as they pass by. -/
inductive RowRule where
  | filter (e : Expr)
  | project (vars : List Var)
  | distinct (seen : List Binding)
  | reduced (capacity : Nat) (recent : List Binding)
  | assign (assignments : List (Var × Expr))

/-- How the rows of two sides are paired. -/
inductive Pairing where
  | inner
  | optional (exprs : List Expr)
  | minus

/-- What becomes of all rows together. -/
inductive Gathering where
  | sort (keys : List SortKey)
  | group (vars : List Var) (aggs : List Aggregation)

/-- A stage of a plan, with all that it has read and not yet passed on. -/
inductive Stage where
  /-- The untouched input of a whole query: one empty row. -/
  | root
  /-- Rows that are there; without any it is spent. -/
  | rows (rest : List Binding)
  /-- A source from outside, of rows and failures. -/
  | source (items : List (Except PlanError Binding))
  /-- Expands the rows of its input one after the other; none is in the works. -/
  | each (rule : Expansion) (input : Stage)
  /-- Passes on what a row of the input was expanded to. -/
  | eachOf (rule : Expansion) (input current : Stage)
  /-- Collects what `row` was expanded to, last row first, before any of it is passed on. -/
  | eachHeld (rule : Expansion) (ctx : Context) (input : Stage) (row : Binding) (held : Stage)
      (acc : List Binding)
  /-- Compiles and passes on waiting operators one after the other; none is in the works. -/
  | chain (pending : List Seeded)
  /-- Passes on the rows of one of them. -/
  | chainOf (pending : List Seeded) (current : Stage)
  /-- Pairs left rows with the right rows, which are loaded when the first left row arrives. -/
  | pair (rule : Pairing) (ctx : Context) (left right : Stage) (loaded : Option (List Binding))
      (queue : List Binding)
  /-- Loads the right rows, last row first, while a left row waits. -/
  | pairLoad (rule : Pairing) (ctx : Context) (left right : Stage) (row : Binding)
      (acc : List Binding)
  /-- Compiles an optional part over each left row. -/
  | optional (part : Op) (ctx : Context) (left : Stage)
  /-- Passes on the rows of the optional part for `seed`, or `seed` if there is none. -/
  | optionalOf (part : Op) (ctx : Context) (left : Stage) (seed : Binding) (current : Stage)
      (found : Bool)
  /-- Collects all rows, last row first. -/
  | gather (rule : Gathering) (ctx : Context) (input : Stage) (acc : List Binding)
  /-- Passes on what all rows were made into. -/
  | gathered (input : Stage) (rest : List Binding)
  /-- Drops rows in front and stops after a number of rows. -/
  | slice (input : Stage) (skip : Nat) (limit : Option Nat)
  /-- Treats rows one by one as they pass by. -/
  | via (rule : RowRule) (fs : Functions) (input : Stage) (closed : Bool)

namespace RowRule

/-- The rule without memory of earlier rows. -/
def reset : RowRule → RowRule
  | distinct _ => distinct []
  | reduced capacity _ => reduced capacity []
  | r => r

/-- Binds each variable in turn to the value of its expression. A value that differs from what is
bound already drops the row; an expression without value binds nothing. -/
def extend (fs : Functions) : List (Var × Expr) → Binding → Option Binding
  | [], b => some b
  | (v, e) :: rest, b =>
    match e.eval fs b with
    | .error _ => extend fs rest b
    | .ok t =>
      match b.get? v with
      | some old => if old = t then extend fs rest b else none
      | none => extend fs rest (b.insert v t)

/-- What becomes of a row, and the rule for the rows after it. -/
def feed (fs : Functions) (b : Binding) : RowRule → RowRule × Option Binding
  | filter e => (filter e, if e.holds fs b then some b else none)
  | project vars => (project vars, some (b.project vars))
  | distinct seen => if b ∈ seen then (distinct seen, none) else (distinct (b :: seen), some b)
  | reduced capacity recent =>
    let (known, recent) := (Rows.window capacity).meet recent b
    (reduced capacity recent, if known then none else some b)
  | assign l => (assign l, extend fs l b)

def tally : RowRule → Tally
  | filter _ => { filter := 1 }
  | _ => {}

end RowRule

namespace Pairing

/-- The rows that a left row gives against all right rows. -/
def combine (fs : Functions) (l : Binding) (right : List Binding) : Pairing → List Binding
  | inner => right.filterMap l.merge
  | optional exprs =>
    let found := (right.filterMap l.merge).filter fun b => exprs.all fun e => e.holds fs b
    if found.isEmpty then [l] else found
  | minus => if right.any l.compatible then [] else [l]

def tally : Pairing → Tally
  | optional _ => { leftJoin := 1 }
  | _ => { join := 1 }

end Pairing

namespace Gathering

/-- What all rows are made into. -/
def arrange (fs : Functions) (rows : List Binding) : Gathering → List Binding
  | sort keys => Rows.sort fs keys rows
  | group vars aggs => Rows.group fs vars aggs rows

/-- What that costs. -/
def tally : Gathering → Tally
  | sort _ => { sort := 1 }
  | group .. => { group := 1 }

end Gathering

namespace Stage

/-- Whether a stage is the untouched input of a query. -/
def isRoot : Stage → Bool
  | root => true
  | _ => false

/-- The stage after its release. It gives no more rows; one that treats rows one by one goes on to
ask its released input. -/
def close : Stage → Stage
  | source _ => source []
  | via rule fs input false => via rule.reset fs (close input) true
  | via rule fs input true => via rule fs input true
  | _ => rows []

/-- How often a release of the stage releases outer sources. -/
def closes : Stage → Nat
  | root => 0
  | rows _ => 0
  | source _ => 1
  | each _ input => closes input
  | eachOf _ input current => closes current + closes input
  | eachHeld _ _ input _ held _ => closes held + closes input
  | chain _ => 0
  | chainOf _ current => closes current
  | pair _ _ left right _ _ => closes left + closes right
  | pairLoad _ _ left right _ _ => closes left + closes right
  | optional _ _ left => closes left
  | optionalOf _ _ left _ current _ => closes current + closes left
  | gather _ _ input _ => closes input
  | gathered input _ => closes input
  | slice input _ _ => closes input
  | via _ _ input false => closes input
  | via _ _ _ true => 0

def closeTally (s : Stage) : Tally := { closes := s.closes }

end Stage

end SparqlAlgebra
