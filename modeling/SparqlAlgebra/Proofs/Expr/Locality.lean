import SparqlAlgebra.Expr.Eval
import SparqlAlgebra.Proofs.Binding.Merge

/-!
An expression reads no variable but those it mentions, so it cannot tell a row from a larger one
that binds only other variables besides.
-/

namespace SparqlAlgebra

namespace Expr

variable {fs : Functions} {b c : Binding}

mutual

theorem eval_congr : (e : Expr) → (∀ v ∈ e.mentions, b.get? v = c.get? v) →
    e.eval fs b = e.eval fs c
  | var v, h => by
    have hv : b.get? v = c.get? v := h v (by simp [mentions])
    rw [eval, eval, hv]
  | const t, _ => rfl
  | bound v, h => by
    have hv : b.get? v = c.get? v := h v (by simp [mentions])
    rw [eval, eval, SortedMap.contains, SortedMap.contains, hv]
  | not e, h => by
    have he := eval_congr e fun v hv => h v (by simpa [mentions] using hv)
    rw [eval, eval, he]
  | binary op l r, h => by
    have hl := eval_congr l fun v hv => h v (by simp [mentions, hv])
    have hr := eval_congr r fun v hv => h v (by simp [mentions, hv])
    rw [eval, eval, hl, hr]
  | call name args, h => by
    have ha := evalAll_congr args fun v hv => h v (by simpa [mentions] using hv)
    rw [eval, eval, ha]

theorem evalAll_congr : (es : List Expr) → (∀ v ∈ mentionsAll es, b.get? v = c.get? v) →
    evalAll fs b es = evalAll fs c es
  | [], _ => rfl
  | e :: es, h => by
    have he := eval_congr e fun v hv => h v (by simp [mentionsAll, hv])
    have hes := evalAll_congr es fun v hv => h v (by simp [mentionsAll, hv])
    rw [evalAll, evalAll, he, hes]

end

theorem test_congr (e : Expr) (h : ∀ v ∈ e.mentions, b.get? v = c.get? v) :
    e.test fs b = e.test fs c := by
  rw [test, test, eval_congr e h]

/-- On rows that agree on the variables an expression reports, it has the same value or the same
error, and the same truth. -/
theorem eval_vars (e : Expr) (h : ∀ v ∈ e.vars, b.get? v = c.get? v) :
    e.eval fs b = e.eval fs c ∧ e.test fs b = e.test fs c := by
  have hmentions : ∀ v ∈ e.mentions, b.get? v = c.get? v := fun v hv =>
    h v (SortedSet.mem_ofList.2 hv)
  exact ⟨eval_congr e hmentions, test_congr e hmentions⟩

/-- A variable that neither row binds, one that both bind alike, and others that the expression
cannot see. -/
theorem eval_vars_call :
    let b : Binding := (Binding.single ⟨"s"⟩ (.string "héllo")).insert ⟨"y"⟩ (.int 1)
    let c : Binding := (Binding.single ⟨"s"⟩ (.string "héllo")).insert ⟨"z"⟩ (.int 2)
    let unbound : Expr := .binary .lt (.var ⟨"x"⟩) (.const (.int 0))
    let long : Expr := .binary .gt (.call "strlen" [.var ⟨"s"⟩]) (.const (.int 4))
    let e : Expr := .binary .or unbound (.binary .and (.not (.bound ⟨"x"⟩)) long)
    (∀ v ∈ e.vars, b.get? v = c.get? v) ∧ b ≠ c ∧
      (e.eval .builtins b = e.eval .builtins c ∧ e.test .builtins b = e.test .builtins c) ∧
      e.eval .builtins b = .ok (.boolean true) := by
  intro b c unbound long e
  have hvars : ∀ v ∈ e.vars, b.get? v = c.get? v := by
    intro v hv
    have hmentions : ∀ v ∈ e.mentions, b.get? v = c.get? v := by decide
    exact hmentions v (SortedSet.mem_ofList.1 hv)
  exact ⟨hvars, by decide, eval_vars e hvars, rfl⟩

theorem holds_congr (e : Expr) (h : ∀ v ∈ e.mentions, b.get? v = c.get? v) :
    e.holds fs b = e.holds fs c := by
  rw [holds, holds, test_congr e h]

theorem mem_mentionsAll {es : List Expr} {v : Var} :
    v ∈ mentionsAll es ↔ ∃ e ∈ es, v ∈ e.mentions := by
  induction es with
  | nil => simp [mentionsAll]
  | cons e es ih => simp [mentionsAll, ih]

/-- Whether every expression of a list is true on a row. -/
def allHold (fs : Functions) (es : List Expr) (b : Binding) : Bool := es.all fun e => e.holds fs b

theorem allHold_congr (es : List Expr) (h : ∀ v ∈ mentionsAll es, b.get? v = c.get? v) :
    allHold fs es b = allHold fs es c := by
  rw [Bool.eq_iff_iff, allHold, allHold, List.all_eq_true, List.all_eq_true]
  refine forall₂_congr fun e he => ?_
  rw [holds_congr e fun v hv => h v (mem_mentionsAll.2 ⟨e, he, hv⟩)]

/-- Merging a row into another one that binds what both bind and the expressions mention leaves the
expressions as they are. -/
theorem allHold_merge {i m x : Binding} (hx : i.merge m = some x) (es : List Expr)
    (h : ∀ v ∈ mentionsAll es, i.contains v → m.contains v) :
    allHold fs es x = allHold fs es m :=
  allHold_congr es fun v hv => Binding.get?_merge_right hx (h v hv)

end Expr

end SparqlAlgebra
