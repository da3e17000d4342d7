import SparqlAlgebra.Op.Scope
import SparqlAlgebra.Plan.Stage

/-!
Compilation of operators to stages over an input.
-/

namespace SparqlAlgebra

/-- The outcome of a compilation and what it cost. -/
structure Compiled where
  result : Except PlanError Stage
  tally : Tally := {}

namespace Compiled

def ok (s : Stage) : Compiled := { result := .ok s }

def fail (e : PlanError) : Compiled := { result := .error e }

def andThen (c : Compiled) (f : Stage → Compiled) : Compiled :=
  match c.result with
  | .ok s =>
    let d := f s
    { d with tally := c.tally + d.tally }
  | .error e => { result := .error e, tally := c.tally }

def map (c : Compiled) (f : Stage → Stage) : Compiled :=
  { c with result := c.result.map f }

/-- Applies a procedure to the rows; nothing is compiled when the procedure cannot be built. -/
def applying (c : Compiled) : Except PlanError Procedure → Compiled
  | .error e => fail e
  | .ok p => c.map (.each (.procedure p []))

def counted (c : Compiled) : Compiled := { c with tally := { compile := 1 } + c.tally }

end Compiled

def BasicPattern.stage (p : BasicPattern) (g : Graph) (input : Stage) : Stage :=
  p.foldl (fun s t => .each (.triple t g) s) input

/-- Rows of a table joined with an input. The rows alone do when the input is a query's root, and
the input alone when the table is a single empty row. -/
def Table.stage (t : Table) (ctx : Context) (input : Stage) : Stage :=
  if t.isIdentity then input
  else if input.isRoot then .rows t.rows
  else .pair .inner ctx input (.rows t.rows) none []

/-- Only a single empty row gives the input back, and nothing but the root of a query is dropped. -/
theorem Table.stage_cases (t : Table) (ctx : Context) (input : Stage) :
    t.rows = [∅] ∧ t.stage ctx input = input ∨
      input = .root ∧ t.stage ctx input = .rows t.rows ∨
      t.stage ctx input = .pair .inner ctx input (.rows t.rows) none [] := by
  unfold Table.stage
  split
  · rename_i hid
    exact .inl ⟨t.rows_of_isIdentity hid, rfl⟩
  · split
    · rename_i hroot
      cases input with
      | root => exact .inr (.inl ⟨rfl, rfl⟩)
      | _ => cases hroot
    · exact .inr (.inr rfl)

/-- The outcome of an extension over an input. -/
def Extension.stage (e : Extension) (ctx : Context) (input : Stage) : Except PlanError Stage :=
  match e.eval ctx with
  | .ok .input => .ok input
  | .ok (.rows l) => .ok (.rows l)
  | .ok .declined => .error (.unsupportedExtension e.name)
  | .error (.notImplemented _) => .error (.unsupportedExtension e.name)
  | .error err => .error err

/-- The optional part of a streamed left join: its expressions test the merged rows. -/
def Op.filtered (exprs : Option (List Expr)) (op : Op) : Op :=
  match exprs with
  | some (e :: es) => .filter (e :: es) op
  | _ => op

mutual

/-- The stages of an operator over an input, in a context. -/
def compile (ctx : Context) (op : Op) (input : Stage) : Compiled :=
  Compiled.counted <| match op with
    | .bgp p => .ok (p.stage ctx.graph input)
    | .triple t => .ok (.each (.triple t ctx.graph) input)
    | .path p => .ok (.each (.path p ctx.graph) input)
    | .quad q =>
      match q.graph with
      | some _ => .fail (.notImplemented "quad pattern over a named graph")
      | none => .ok (q.pattern.stage ctx.graph input)
    | .join l r =>
      (compile ctx l input).andThen fun s =>
        if ctx.config.streamedJoins && Op.joinStreams l r then compile ctx r s
        else (compile ctx r .root).map fun t => .pair .inner ctx s t none []
    | .leftJoin l r exprs =>
      (compile ctx l input).andThen fun s =>
        if ctx.config.streamedLeftJoins && Op.leftJoinStreams l r then
          .ok (.optional (r.filtered exprs) ctx s)
        else
          (compile ctx r .root).map fun t => .pair (.optional (exprs.getD [])) ctx s t none []
    | .union l r => .ok (.each (.union (l.branches ++ r.branches) ctx) input)
    | .diff l r =>
      (compile ctx l input).andThen fun s =>
        (compile ctx r .root).map fun t => .pair .minus ctx s t none []
    | .conditional .. => .fail (.notImplemented "conditional")
    | .datasetNames _ => .fail (.notImplemented "dataset names")
    | .filter exprs sub =>
      (compile ctx sub input).map fun s =>
        exprs.foldl (fun s e => .via (.filter e) ctx.functions s false) s
    | .graph name sub => .ok (.each (.graph name sub ctx) input)
    | .service endpoint sub silent => .ok (.each (.service endpoint sub silent ctx) input)
    | .procedure name args sub =>
      (compile ctx sub input).applying (ctx.procedures.build name (.args args))
    | .propFunc property subject object sub =>
      (compile ctx sub input).applying (ctx.procedures.build property (.property subject object))
    | .table t => .ok (t.stage ctx input)
    | .sequence steps => compileSteps ctx steps input
    | .marker _ => .ok input
    | .label _ sub => compile ctx sub input
    | .list sub => compile ctx sub input
    | .null => { result := .ok (.rows []), tally := input.closeTally }
    | .project vars sub =>
      (compile ctx sub input).map fun s => .via (.project vars) ctx.functions s false
    | .order keys sub => (compile ctx sub input).map fun s => .gather (.sort keys) ctx s []
    | .slice offset length sub =>
      (compile ctx sub input).map fun s =>
        .slice s (offset.elim 0 UInt64.toNat) (length.map UInt64.toNat)
    | .distinct sub => (compile ctx sub input).map fun s => .via (.distinct []) ctx.functions s false
    | .reduced sub =>
      (compile ctx sub input).map fun s =>
        .via (.reduced (max ctx.config.reducedWindow.toNat 1) []) ctx.functions s false
    | .group vars aggs sub => (compile ctx sub input).map fun s => .gather (.group vars aggs) ctx s []
    | .assign assignments sub =>
      (compile ctx sub input).map fun s => .via (.assign assignments) ctx.functions s false
    | .ext e => { result := e.stage ctx input }

/-- The stages of steps, each over the one before. -/
def compileSteps (ctx : Context) (steps : List Op) (input : Stage) : Compiled :=
  match steps with
  | [] => .ok input
  | op :: rest => (compile ctx op input).andThen fun s => compileSteps ctx rest s

end

section

variable (ctx : Context) (input : Stage)

theorem compile_bgp (p : BasicPattern) :
    compile ctx (.bgp p) input = (Compiled.ok (p.stage ctx.graph input)).counted := rfl

theorem compile_triple (t : TriplePattern) :
    compile ctx (.triple t) input = (Compiled.ok (.each (.triple t ctx.graph) input)).counted := rfl

theorem compile_path (p : PathPattern) :
    compile ctx (.path p) input = (Compiled.ok (.each (.path p ctx.graph) input)).counted := rfl

theorem compile_quad_default (p : BasicPattern) :
    compile ctx (.quad ⟨none, p⟩) input = (Compiled.ok (p.stage ctx.graph input)).counted := rfl

theorem compile_quad_graph (g : Slot) (p : BasicPattern) :
    compile ctx (.quad ⟨some g, p⟩) input =
      (Compiled.fail (.notImplemented "quad pattern over a named graph")).counted := rfl

theorem compile_join (l r : Op) :
    compile ctx (.join l r) input =
      ((compile ctx l input).andThen fun s =>
        if ctx.config.streamedJoins && Op.joinStreams l r then compile ctx r s
        else (compile ctx r .root).map fun t => .pair .inner ctx s t none []).counted := rfl

theorem compile_leftJoin (l r : Op) (exprs : Option (List Expr)) :
    compile ctx (.leftJoin l r exprs) input =
      ((compile ctx l input).andThen fun s =>
        if ctx.config.streamedLeftJoins && Op.leftJoinStreams l r then
          .ok (.optional (r.filtered exprs) ctx s)
        else
          (compile ctx r .root).map fun t =>
            .pair (.optional (exprs.getD [])) ctx s t none []).counted := rfl

theorem compile_union (l r : Op) :
    compile ctx (.union l r) input =
      (Compiled.ok (.each (.union (l.branches ++ r.branches) ctx) input)).counted := rfl

theorem compile_diff (l r : Op) :
    compile ctx (.diff l r) input =
      ((compile ctx l input).andThen fun s =>
        (compile ctx r .root).map fun t => .pair .minus ctx s t none []).counted := rfl

theorem compile_conditional (l r : Op) :
    compile ctx (.conditional l r) input =
      (Compiled.fail (.notImplemented "conditional")).counted := rfl

theorem compile_datasetNames (g : Slot) :
    compile ctx (.datasetNames g) input =
      (Compiled.fail (.notImplemented "dataset names")).counted := rfl

theorem compile_filter (exprs : List Expr) (sub : Op) :
    compile ctx (.filter exprs sub) input =
      ((compile ctx sub input).map fun s =>
        exprs.foldl (fun s e => .via (.filter e) ctx.functions s false) s).counted := rfl

theorem compile_graph (name : Slot) (sub : Op) :
    compile ctx (.graph name sub) input =
      (Compiled.ok (.each (.graph name sub ctx) input)).counted := rfl

theorem compile_service (endpoint : Slot) (sub : Op) (silent : Bool) :
    compile ctx (.service endpoint sub silent) input =
      (Compiled.ok (.each (.service endpoint sub silent ctx) input)).counted := rfl

theorem compile_procedure (name : String) (args : List Expr) (sub : Op) :
    compile ctx (.procedure name args sub) input =
      ((compile ctx sub input).applying (ctx.procedures.build name (.args args))).counted := rfl

theorem compile_propFunc (property : String) (subject object : Argument) (sub : Op) :
    compile ctx (.propFunc property subject object sub) input =
      ((compile ctx sub input).applying
        (ctx.procedures.build property (.property subject object))).counted := rfl

theorem compile_table (t : Table) :
    compile ctx (.table t) input = (Compiled.ok (t.stage ctx input)).counted := rfl

theorem compile_sequence (steps : List Op) :
    compile ctx (.sequence steps) input = (compileSteps ctx steps input).counted := rfl

theorem compileSteps_nil : compileSteps ctx [] input = .ok input := rfl

theorem compileSteps_cons (op : Op) (rest : List Op) :
    compileSteps ctx (op :: rest) input =
      (compile ctx op input).andThen fun s => compileSteps ctx rest s := rfl

theorem compile_marker (label : String) :
    compile ctx (.marker label) input = (Compiled.ok input).counted := rfl

theorem compile_label (label : String) (sub : Op) :
    compile ctx (.label label sub) input = (compile ctx sub input).counted := rfl

theorem compile_list (sub : Op) :
    compile ctx (.list sub) input = (compile ctx sub input).counted := rfl

theorem compile_null :
    compile ctx .null input =
      Compiled.counted { result := .ok (.rows []), tally := input.closeTally } := rfl

theorem compile_project (vars : List Var) (sub : Op) :
    compile ctx (.project vars sub) input =
      ((compile ctx sub input).map fun s => .via (.project vars) ctx.functions s false).counted :=
  rfl

theorem compile_order (keys : List SortKey) (sub : Op) :
    compile ctx (.order keys sub) input =
      ((compile ctx sub input).map fun s => .gather (.sort keys) ctx s []).counted := rfl

theorem compile_slice (offset length : Option UInt64) (sub : Op) :
    compile ctx (.slice offset length sub) input =
      ((compile ctx sub input).map fun s =>
        .slice s (offset.elim 0 UInt64.toNat) (length.map UInt64.toNat)).counted := rfl

theorem compile_distinct (sub : Op) :
    compile ctx (.distinct sub) input =
      ((compile ctx sub input).map fun s => .via (.distinct []) ctx.functions s false).counted := rfl

theorem compile_reduced (sub : Op) :
    compile ctx (.reduced sub) input =
      ((compile ctx sub input).map fun s =>
        .via (.reduced (max ctx.config.reducedWindow.toNat 1) []) ctx.functions s false).counted :=
  rfl

theorem compile_group (vars : List Var) (aggs : List Aggregation) (sub : Op) :
    compile ctx (.group vars aggs sub) input =
      ((compile ctx sub input).map fun s => .gather (.group vars aggs) ctx s []).counted := rfl

theorem compile_assign (assignments : List (Var × Expr)) (sub : Op) :
    compile ctx (.assign assignments sub) input =
      ((compile ctx sub input).map fun s =>
        .via (.assign assignments) ctx.functions s false).counted := rfl

theorem compile_ext (e : Extension) :
    compile ctx (.ext e) input =
      Compiled.counted { result := e.stage ctx input } := rfl

end

end SparqlAlgebra
