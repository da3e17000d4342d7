import SparqlAlgebra.Proofs.Pattern.Extend
import SparqlAlgebra.Proofs.Stage.Emits

/-!
What the stages that compilation puts on an input emit, in terms of the bag algebra: pairings are
joins, row rules are maps and filters, patterns extend row by row. Compilation is read in the same
way: a plan that gets built and comes to its end gives a list of rows.
-/

namespace SparqlAlgebra

namespace Pairing

variable (fs : Functions) (l r : List Binding)

theorem flatMap_combine_inner : (l.flatMap fun b => inner.combine fs b r) = Rows.join l r := rfl

theorem combine_optional (exprs : List Expr) (b : Binding) :
    (optional exprs).combine fs b r = Rows.optionally fs exprs r b := by
  show (if (Rows.found fs exprs r b).isEmpty then [b] else Rows.found fs exprs r b) = _
  rw [Rows.optionally]
  by_cases h : Rows.found fs exprs r b = []
  · rw [if_pos h, if_pos (List.isEmpty_iff.2 h)]
  · rw [if_neg h, if_neg (mt List.isEmpty_iff.1 h)]

theorem flatMap_combine_optional (exprs : List Expr) :
    (l.flatMap fun b => (optional exprs).combine fs b r) = Rows.leftJoin fs exprs l r :=
  List.flatMap_congr fun b _ => combine_optional fs r exprs b

theorem flatMap_combine_minus : (l.flatMap fun b => minus.combine fs b r) = Rows.diff l r := by
  induction l with
  | nil => rfl
  | cons b l ih =>
    have hb : (r.all fun c => !b.compatible c) = !r.any b.compatible := by
      rw [List.not_any_eq_all_not]
    rw [List.flatMap_cons, ih, Rows.diff, Rows.diff, List.filter_cons]
    rw [hb, combine]
    cases r.any b.compatible <;> rfl

end Pairing

namespace RowRule

variable (fs : Functions)

/-- The rows that come out behind a rule, in order. -/
def treat : RowRule → List Binding → List Binding
  | _, [] => []
  | rule, b :: l => (rule.feed fs b).2.toList ++ treat (rule.feed fs b).1 l

theorem treat_filter (e : Expr) (l : List Binding) :
    (filter e).treat fs l = l.filter fun b => e.holds fs b := by
  induction l with
  | nil => rfl
  | cons b l ih =>
    rw [treat, List.filter_cons, feed, ih]
    split <;> rfl

theorem treat_project (vars : List Var) (l : List Binding) :
    (project vars).treat fs l = l.map (·.project vars) := by
  induction l with
  | nil => rfl
  | cons b l ih =>
    rw [treat, feed, ih]
    rfl

theorem treat_distinct (seen l : List Binding) :
    (distinct seen).treat fs l = Rows.firsts seen l := by
  induction l generalizing seen with
  | nil => rfl
  | cons b l ih =>
    rw [treat, feed, Rows.firsts]
    split <;> rw [ih] <;> rfl

theorem extend_eq_foldlM (assignments : List (Var × Expr)) (b : Binding) :
    extend fs assignments b = assignments.foldlM (Rows.assignOne fs) b := by
  induction assignments generalizing b with
  | nil => rfl
  | cons a assignments ih =>
    obtain ⟨v, e⟩ := a
    rw [extend, List.foldlM_cons, Rows.assignOne]
    cases e.eval fs b with
    | error err => exact ih b
    | ok t =>
      simp only [Binding.merge_single]
      cases b.get? v with
      | none => exact ih _
      | some old =>
        by_cases h : old = t
        · simpa [h] using ih b
        · simp [h]

theorem treat_assign (assignments : List (Var × Expr)) (l : List Binding) :
    (assign assignments).treat fs l = Rows.assign fs assignments l := by
  induction l with
  | nil => rfl
  | cons b l ih =>
    rw [treat, feed, ih, extend_eq_foldlM, Rows.assign, Rows.assign, List.filterMap_cons]
    cases assignments.foldlM (Rows.assignOne fs) b <;> rfl

end RowRule

namespace Stage

variable {raised : Bool} {s : Stage} {l : List Binding} {o : Option PlanError}

theorem emits_via {rule : RowRule} {fs : Functions} {closed : Bool} (h : Emits raised s l o) :
    Emits raised (via rule fs s closed) (rule.treat fs l) o := by
  induction h generalizing rule with
  | @finished s t h =>
    have hs : Shows raised (via rule fs s closed) .finished (via rule fs t closed) := by
      simp [Shows, step_via, Move.via, Move.within, h.1, h.2]
    exact .finished hs
  | @failed s t e h =>
    have hs : Shows raised (via rule fs s closed) (.failed e) (via rule fs t closed) := by
      simp [Shows, step_via, Move.via, Move.within, h.1, h.2]
    exact .failed hs
  | @silent s t l o h _ ih =>
    have hs : Shows raised (via rule fs s closed) .silent (via rule fs t closed) := by
      simp [Shows, step_via, Move.via, Move.within, h.1, h.2]
    exact .silent hs ih
  | @row s t b l o h _ ih =>
    have hs : Shows raised (via rule fs s closed) ((rule.feed fs b).2.elim .silent .row)
        (via (rule.feed fs b).1 fs t closed) := by
      simp [Shows, step_via, Move.via, Move.turn, h.1, h.2]
    rw [RowRule.treat]
    -- A row that the rule drops makes a silent step of the input's row.
    cases hb : (rule.feed fs b).2 with
    | none =>
      rw [hb] at hs
      exact .silent hs ih
    | some c =>
      rw [hb] at hs
      exact .row hs ih

theorem emits_filters (fs : Functions) (exprs : List Expr) (h : Emits raised s l o) :
    Emits raised (exprs.foldl (fun s e => via (.filter e) fs s false) s)
      (l.filter (Expr.allHold fs exprs)) o := by
  induction exprs generalizing s l with
  | nil =>
    have hl : l.filter (Expr.allHold fs []) = l := List.filter_eq_self.2 fun _ _ => rfl
    rw [hl]
    exact h
  | cons e exprs ih =>
    have he : Emits raised (via (.filter e) fs s false) (l.filter fun b => e.holds fs b) o :=
      RowRule.treat_filter fs e l ▸ emits_via h
    have hl : l.filter (Expr.allHold fs (e :: exprs)) =
        (l.filter fun b => e.holds fs b).filter (Expr.allHold fs exprs) := by
      rw [List.filter_filter]
      exact List.filter_congr fun b _ => by simp [Expr.allHold, Bool.and_comm]
    rw [List.foldl_cons, hl]
    exact ih he

theorem emits_triple (t : TriplePattern) (g : Graph) (h : Emits raised s l o) :
    Emits raised (each (.triple t g) s) (l.flatMap (t.extend g)) o :=
  emits_each (fun _ => rfl) h fun b _ => ⟨rows (t.extend g b), rfl, emits_rows _⟩

theorem emits_path (p : PathPattern) (g : Graph) (h : Emits raised s l o) :
    Emits raised (each (.path p g) s) (l.flatMap (p.extend g)) o :=
  emits_each (fun _ => rfl) h fun b _ => ⟨rows (p.extend g b), rfl, emits_rows _⟩

theorem emits_pattern (p : BasicPattern) (g : Graph) (h : Emits raised s l o) :
    Emits raised (p.stage g s) (p.extend g l) o := by
  induction p generalizing s l with
  | nil => exact h
  | cons t p ih => exact ih (emits_triple t g h)

/-- A table joins its rows with the input; at the root of a query and for a single empty row the
join is left out, which does not show. -/
theorem emits_table (t : Table) {ctx : Context} (hw : ctx.stopped raised = false)
    (h : Emits raised s l o) : Emits raised (t.stage ctx s) (Rows.join l t.rows) o := by
  rcases t.stage_cases ctx s with ⟨hrows, ht⟩ | ⟨rfl, ht⟩ | ht <;> rw [ht]
  · -- The identity table leaves the input alone.
    rw [hrows, Rows.join_unit]
    exact h
  · -- The root is dropped for the rows of the table.
    obtain ⟨rfl, rfl⟩ := h.unique emits_root
    rw [Rows.unit_join]
    exact emits_rows _
  · exact emits_pair hw h (emits_rows _)

end Stage

namespace Compiled

theorem result_map {c : Compiled} {s : Stage} (h : c.result = .ok s) (f : Stage → Stage) :
    (c.map f).result = .ok (f s) := by
  rw [Compiled.map, h]
  rfl

theorem result_andThen {c : Compiled} {s t : Stage} {f : Stage → Compiled} (h : c.result = .ok s)
    (ht : (f s).result = .ok t) : (c.andThen f).result = .ok t := by
  rw [Compiled.andThen, h]
  exact ht

variable {raised : Bool}

/-- The compilation succeeds, and its stage emits a list of rows and comes to its end. -/
def Gives (raised : Bool) (c : Compiled) (l : List Binding) : Prop :=
  ∃ s, c.result = .ok s ∧ s.Emits raised l none

theorem gives_ok {s : Stage} {l : List Binding} (h : s.Emits raised l none) :
    (ok s).Gives raised l :=
  ⟨s, rfl, h⟩

theorem Gives.counted {c : Compiled} {l : List Binding} (h : c.Gives raised l) :
    c.counted.Gives raised l := h

theorem Gives.map {c : Compiled} {k l : List Binding} {f : Stage → Stage} (h : c.Gives raised k)
    (hf : ∀ s, s.Emits raised k none → (f s).Emits raised l none) : (c.map f).Gives raised l := by
  obtain ⟨s, hc, hs⟩ := h
  exact ⟨f s, result_map hc f, hf s hs⟩

theorem Gives.andThen {c : Compiled} {k l : List Binding} {f : Stage → Compiled}
    (h : c.Gives raised k) (hf : ∀ s, s.Emits raised k none → (f s).Gives raised l) :
    (c.andThen f).Gives raised l := by
  obtain ⟨s, hc, hs⟩ := h
  obtain ⟨t, ht, he⟩ := hf s hs
  exact ⟨t, result_andThen hc ht, he⟩

end Compiled

/-- The rows of an operator over some input, or the first failure. -/
def Context.solutions (ctx : Context) (op : Op) (input : Stage) : Except PlanError (List Binding) :=
  (compile ctx op input).result.bind fun s => (s.drain ctx false).result

/-- A plan that is not stopped by a raised token gives its rows to the one who drains it. -/
theorem Context.solutions_eq {ctx : Context} {op : Op} {input : Stage} {l : List Binding}
    (h : (compile ctx op input).Gives false l) : ctx.solutions op input = .ok l := by
  obtain ⟨s, hc, hs⟩ := h
  rw [solutions, hc]
  exact hs.result_drain (Bool.and_false _)

end SparqlAlgebra
