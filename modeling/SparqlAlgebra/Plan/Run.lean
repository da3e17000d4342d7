import SparqlAlgebra.Plan.Progress

/-!
Pulling rows from stages: one row, all rows, or row by row through a cursor over a query.
-/

namespace SparqlAlgebra

/-- What pulling one row gives: a row, the end, or a failure. -/
structure Pull where
  outcome : Except PlanError (Option Binding)
  stage : Stage
  tally : Tally

/-- What pulling rows gives until the end or the first failure. -/
structure Run where
  rows : List Binding
  error : Option PlanError
  stage : Stage
  tally : Tally

namespace Run

/-- The rows of a run that came to its end, or why it did not. -/
def result (r : Run) : Except PlanError (List Binding) :=
  match r.error with
  | none => .ok r.rows
  | some e => .error e

end Run

namespace Stage

theorem progress_silent {raised : Bool} {s : Stage} (h : (step raised s).signal = .silent) :
    Progress (step raised s).stage s :=
  ⟨raised, rfl, by rw [h]; trivial⟩

theorem progress_row {raised : Bool} {s : Stage} {b : Binding}
    (h : (step raised s).signal = .row b) : Progress (step raised s).stage s :=
  ⟨raised, rfl, by rw [h]; trivial⟩

/-- Steps on until there is something to show; `spent` is what it cost before. -/
def pull (raised : Bool) (s : Stage) (spent : Tally := {}) : Pull :=
  let m := step raised s
  match _h : m.signal with
  | .silent => pull raised m.stage (spent + m.tally)
  | .row b => { outcome := .ok (some b), stage := m.stage, tally := spent + m.tally }
  | .finished => { outcome := .ok none, stage := m.stage, tally := spent + m.tally }
  | .failed e => { outcome := .error e, stage := m.stage, tally := spent + m.tally }
termination_by s
decreasing_by exact progress_silent _h

/-- Steps on until the end or a failure; `acc` holds the rows before, last row first. -/
def run (raised : Bool) (s : Stage) (acc : List Binding := []) (spent : Tally := {}) : Run :=
  let m := step raised s
  match _h : m.signal with
  | .silent => run raised m.stage acc (spent + m.tally)
  | .row b => run raised m.stage (b :: acc) (spent + m.tally)
  | .finished =>
    { rows := acc.reverse, error := none, stage := m.stage, tally := spent + m.tally }
  | .failed e =>
    { rows := acc.reverse, error := some e, stage := m.stage, tally := spent + m.tally }
termination_by s
decreasing_by
  · exact progress_silent _h
  · exact progress_row _h

section

variable {raised : Bool} {s : Stage}

theorem pull_of_silent (h : (step raised s).signal = .silent) (spent : Tally) :
    pull raised s spent = pull raised (step raised s).stage (spent + (step raised s).tally) := by
  rw [pull]
  split <;> simp_all

theorem pull_of_row {b : Binding} (h : (step raised s).signal = .row b) (spent : Tally) :
    pull raised s spent =
      { outcome := .ok (some b), stage := (step raised s).stage
        tally := spent + (step raised s).tally } := by
  rw [pull]
  split <;> simp_all

theorem pull_of_finished (h : (step raised s).signal = .finished) (spent : Tally) :
    pull raised s spent =
      { outcome := .ok none, stage := (step raised s).stage
        tally := spent + (step raised s).tally } := by
  rw [pull]
  split <;> simp_all

theorem pull_of_failed {e : PlanError} (h : (step raised s).signal = .failed e) (spent : Tally) :
    pull raised s spent =
      { outcome := .error e, stage := (step raised s).stage
        tally := spent + (step raised s).tally } := by
  rw [pull]
  split <;> simp_all

theorem run_of_silent (h : (step raised s).signal = .silent) (acc : List Binding) (spent : Tally) :
    run raised s acc spent =
      run raised (step raised s).stage acc (spent + (step raised s).tally) := by
  rw [run]
  split <;> simp_all

theorem run_of_row {b : Binding} (h : (step raised s).signal = .row b) (acc : List Binding)
    (spent : Tally) :
    run raised s acc spent =
      run raised (step raised s).stage (b :: acc) (spent + (step raised s).tally) := by
  rw [run]
  split <;> simp_all

theorem run_of_finished (h : (step raised s).signal = .finished) (acc : List Binding)
    (spent : Tally) :
    run raised s acc spent =
      { rows := acc.reverse, error := none, stage := (step raised s).stage
        tally := spent + (step raised s).tally } := by
  rw [run]
  split <;> simp_all

theorem run_of_failed {e : PlanError} (h : (step raised s).signal = .failed e)
    (acc : List Binding) (spent : Tally) :
    run raised s acc spent =
      { rows := acc.reverse, error := some e, stage := (step raised s).stage
        tally := spent + (step raised s).tally } := by
  rw [run]
  split <;> simp_all

end

/-- Collects all rows in a context and releases the stage. A raised token stops it before the first
row. -/
def drain (ctx : Context) (raised : Bool) (s : Stage) : Run :=
  if ctx.stopped raised then
    { rows := [], error := some .cancelled, stage := s.close, tally := s.closeTally }
  else
    let r := s.run raised
    { r with stage := r.stage.close, tally := r.tally + r.stage.closeTally }

end Stage

/-- A query that is read row by row. -/
structure Cursor where
  stage : Stage
  /-- Whether the query was started with a cancel token. -/
  watching : Bool
  done : Bool := false
  /-- How often the stage has been released. -/
  releases : Nat := 0

namespace Cursor

/-- Starts a query over one empty row. `token` is the state of the cancel token that comes with it,
if one does; a raised token stops the query before anything is compiled. -/
def start (ctx : Context) (op : Op) (token : Option Bool) : Except PlanError Cursor × Tally :=
  let ctx := if token.isSome then { ctx with cancellable := true } else ctx
  if ctx.stopped (token.getD false) then (.error .cancelled, {})
  else
    let c := compile ctx op .root
    (c.result.map fun stage => { stage, watching := token.isSome }, c.tally)

/-- Releases the query, unless that is done. A cursor that is dropped does the same. -/
def finish (c : Cursor) : Cursor × Tally :=
  if c.done then (c, {})
  else
    ({ c with stage := c.stage.close, done := true, releases := c.releases + 1 },
      c.stage.closeTally)

/-- The next row. The query is released at its end, after a failure, and when the token is found
raised; nothing comes after that. -/
def next (raised : Bool) (c : Cursor) : Except PlanError (Option Binding) × Cursor × Tally :=
  if c.done then (.ok none, c, {})
  else if c.watching && raised then
    let (c, cost) := c.finish
    (.error .cancelled, c, cost)
  else
    let p := c.stage.pull raised
    let c := { c with stage := p.stage }
    match p.outcome with
    | .ok (some b) => (.ok (some b), c, p.tally)
    | outcome =>
      let (c, cost) := c.finish
      (outcome, c, p.tally + cost)

end Cursor

/-- Why a query has no rows, or not all of them: it was never built, or it failed on its way. -/
inductive Answer where
  | unbuilt (e : PlanError)
  | rows (r : Run)

/-- Runs a query to its end or first failure and releases it, with what building it cost. -/
def Context.answer (ctx : Context) (op : Op) (cancelled : Bool) : Answer × Tally :=
  match Cursor.start ctx op (if cancelled then some true else none) with
  | (.error e, cost) => (.unbuilt e, cost)
  | (.ok c, cost) =>
    let r := c.stage.run false
    (.rows { r with stage := r.stage.close }, cost + r.tally + r.stage.closeTally)

/-- All rows of a query, or its first failure. -/
def Context.execute (ctx : Context) (op : Op) : Except PlanError (List Binding) :=
  match ctx.answer op false with
  | (.unbuilt e, _) => .error e
  | (.rows r, _) => r.result

end SparqlAlgebra
