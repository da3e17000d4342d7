import SparqlAlgebra.Proofs.Op.Rewritten

/-!
The input of a query. A compilation knows the root of a query from other inputs and spares a table
over the root its join, as it does for a table that is a single empty row. What is shown does not
tell: the root is as good as an input with a single empty row, and a table as good as the join with
its rows, wherever it stands.
-/

namespace SparqlAlgebra

theorem Stage.transcript_pair_rows {raised : Bool} {ctx : Context} (hw : ctx.stopped raised = false)
    (s : Stage) (r : List Binding) :
    (pair .inner ctx s (rows r) none []).transcript raised =
      (s.transcript raised).through (Rows.join · r) := by
  rw [transcript_pair hw, transcript_rows, Transcript.paired_inner]

namespace Op

/-- A table made into a join with its rows. No join streams into a slice, so the rows of the table
are loaded by themselves, and every row that comes in is paired with them. -/
def joinTable : Op → Op
  | table t => join (sequence []) (slice none none (table t))
  | op => op

/-- The operator with a join in place of each table. -/
def joined (op : Op) : Op := op.rewrite joinTable

theorem conj_ofVars (vars : List Var) : ({} : Scope).conj (.ofVars vars) = .ofVars vars := by
  have hfixed : SortedSet.union ∅ (SortedSet.ofList vars) = SortedSet.ofList vars :=
    SortedSet.ext_iff.2 fun v => by simp
  have hnone : SortedSet.union (∅ : SortedSet Var) ∅ = ∅ := SortedSet.ext_iff.2 fun v => by simp
  have hdiff : SortedSet.diff (∅ : SortedSet Var) (SortedSet.ofList vars) = ∅ :=
    SortedSet.ext_iff.2 fun v => by simp
  simp only [Scope.conj, Scope.ofVars, hfixed, hnone, hdiff]

theorem joinStreams_joinTable (t : Table) :
    joinStreams (sequence []) (slice none none (table t)) = false := rfl

/-- Each row that comes in meets all rows of the table, as it does in the table itself. -/
theorem transcript_joinTable (op : Op) (ctx : Context) (x : Transcript) :
    op.joinTable.transcript ctx x = op.transcript ctx x := by
  cases op with
  | table t =>
    have hright : (slice none none (table t)).transcript ctx { rows := [∅] } =
        .ok { rows := t.rows } :=
      congrArg (fun l => Except.ok (Transcript.mk l none)) (Rows.unit_join t.rows)
    have hleft : (sequence []).transcript ctx x = .ok x := rfl
    rw [joinTable, transcript, hleft, Except.bind, joinStreams_joinTable, Bool.and_false,
      if_neg Bool.false_ne_true, hright]
    exact congrArg Except.ok (Transcript.paired_inner ctx.functions x t.rows)
  | _ => rfl

theorem unnoticed_joinTable : Unnoticed joinTable where
  scope op := by
    cases op with
    | table t => exact conj_ofVars t.vars
    | _ => rfl
  blocks op := by cases op <;> rfl
  transcript := transcript_joinTable

/-- In place of a table the plan has the join of the input with the rows of the table. -/
theorem result_compile_joined (ctx : Context) (t : Table) (input : Stage) :
    (compile ctx (table t).joined input).result =
      .ok (.pair .inner ctx input (.slice (t.stage ctx .root) 0 none) none []) := by
  have hjoined : (table t).joined = join (sequence []) (slice none none (table t)) := rfl
  rw [hjoined, compile_join, joinStreams_joinTable, Bool.and_false]
  rfl

end Op

/-- Inputs that show the same rows are as good as each other. -/
theorem Context.shown_input {ctx : Context} {raised : Bool} {op : Op} {i j : Stage}
    (h : ∀ r, ctx.stopped r = false → i.transcript r = j.transcript r) :
    ctx.shown raised op i = ctx.shown raised op j := by
  have hlower : ctx.stopped false = false := Bool.and_false _
  cases hw : ctx.stopped raised with
  | false => rw [shown_eq hw, shown_eq hw, h raised hw]
  | true => rw [shown_stopped hw, shown_stopped hw, h false hlower]

/-- What is shown does not tell the root of a query from an input with a single empty row, nor a
table from the join that it is spared: not below an operator, and not anywhere in it. -/
theorem Context.shown_root (ctx : Context) (raised : Bool) (op : Op) :
    ctx.shown raised op .root = ctx.shown raised op (.rows [∅]) ∧
    (∀ (t : Table) (input : Stage), ctx.shown raised op (t.stage ctx input) =
      ctx.shown raised op (.pair .inner ctx input (.rows t.rows) none [])) ∧
    (∀ input, ctx.shown raised op.joined input = ctx.shown raised op input) ∧
    ∀ (t : Table) (input : Stage), (compile ctx (Op.table t).joined input).result =
      .ok (.pair .inner ctx input (.slice (t.stage ctx .root) 0 none) none []) := by
  refine ⟨shown_input fun r _ => ?_, fun t input => shown_input fun r hw => ?_, fun input => ?_,
    Op.result_compile_joined ctx⟩
  · rw [Stage.transcript_root, Stage.transcript_rows]
  · rw [Stage.transcript_table t hw, Stage.transcript_pair_rows hw]
  · exact shown_congr rfl (Op.unnoticed_joinTable.rewrite.transcript op ctx) raised input

end SparqlAlgebra
