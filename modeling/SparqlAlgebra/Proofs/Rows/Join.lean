import Mathlib.Data.List.Basic
import Mathlib.Data.List.Perm.Basic
import SparqlAlgebra.Proofs.Expr.Locality
import SparqlAlgebra.Rows.Basic

/-!
The bag algebra on lists of rows: join, left join, difference, assignment and slices as plain list
functions. A row may be joined in before or after each of them, as long as it binds nothing that
they look at and the rows leave open.
-/

namespace SparqlAlgebra

namespace Rows

/-- The merges of compatible rows, left rows first. -/
def join (l r : List Binding) : List Binding := l.flatMap fun a => r.filterMap a.merge

/-- The merges of a row with those right rows on which all expressions hold. -/
def found (fs : Functions) (exprs : List Expr) (r : List Binding) (a : Binding) : List Binding :=
  (r.filterMap a.merge).filter (Expr.allHold fs exprs)

/-- The merges found for a row, or the row itself if there are none. -/
def optionally (fs : Functions) (exprs : List Expr) (r : List Binding) (a : Binding) :
    List Binding :=
  if found fs exprs r a = [] then [a] else found fs exprs r a

/-- For each left row its merges on which all expressions hold, or the row once. -/
def leftJoin (fs : Functions) (exprs : List Expr) (l r : List Binding) : List Binding :=
  l.flatMap (optionally fs exprs r)

/-- The left rows that are compatible with no right row. -/
def diff (l r : List Binding) : List Binding := l.filter fun a => r.all fun b => !a.compatible b

/-- Binds one variable to the value of an expression. A row that binds it to another term is
dropped, and an expression without value binds nothing. -/
def assignOne (fs : Functions) (b : Binding) (a : Var × Expr) : Option Binding :=
  match a.2.eval fs b with
  | .ok t => b.merge (.single a.1 t)
  | .error _ => some b

/-- Binds variables in turn, each expression evaluated with the variables before. -/
def assign (fs : Functions) (assignments : List (Var × Expr)) (l : List Binding) : List Binding :=
  l.filterMap fun b => assignments.foldlM (assignOne fs) b

/-- The rows from `offset` on, at most `length` of them. -/
def slice (offset : Nat) (length : Option Nat) (l : List Binding) : List Binding :=
  match length with
  | some n => (l.drop offset).take n
  | none => l.drop offset

@[simp] theorem join_nil (l : List Binding) : join l [] = [] := by simp [join]

@[simp] theorem singleton_join (a : Binding) (r : List Binding) :
    join [a] r = r.filterMap a.merge := by simp [join]

@[simp] theorem unit_join (r : List Binding) : join [∅] r = r := by
  rw [singleton_join]
  have hm : Binding.merge ∅ = some := funext Binding.empty_merge
  rw [hm, List.filterMap_some]

@[simp] theorem join_unit (l : List Binding) : join l [∅] = l := by
  simp [join]

/-- Rows merged into what a row was merged into are merged with the row last. -/
theorem filterMap_merge_filterMap (a b : Binding) (r : List Binding) :
    (r.filterMap b.merge).filterMap a.merge =
      ((a.merge b).elim [] fun ab => r.filterMap ab.merge) := by
  rw [List.filterMap_filterMap]
  have hassoc (c : Binding) : (b.merge c).bind a.merge = (a.merge b).bind fun ab => ab.merge c :=
    (Binding.merge_assoc a b c).symm
  simp only [hassoc]
  cases a.merge b with
  | none => simp
  | some ab => rfl

theorem flatMap_filterMap {α β γ : Type} (f : α → Option β) (g : β → List γ) (l : List α) :
    (l.filterMap f).flatMap g = l.flatMap fun a => (f a).elim [] g := by
  induction l with
  | nil => rfl
  | cons a l ih =>
    rw [List.flatMap_cons, ← ih]
    cases h : f a with
    | none =>
      rw [List.filterMap_cons_none h]
      rfl
    | some b =>
      rw [List.filterMap_cons_some h, List.flatMap_cons]
      rfl

theorem join_assoc (l r s : List Binding) : join (join l r) s = join l (join r s) := by
  simp only [join, List.flatMap_assoc]
  refine List.flatMap_congr fun a _ => ?_
  rw [List.filterMap_flatMap, flatMap_filterMap]
  simp only [filterMap_merge_filterMap]

theorem join_perm {k l r s : List Binding} (hl : k.Perm l) (hr : r.Perm s) :
    (join k r).Perm (join l s) :=
  hl.flatMap fun _ _ => hr.filterMap _

theorem slice_sublist (offset : Nat) (length : Option Nat) (l : List Binding) :
    (slice offset length l).Sublist l := by
  cases length with
  | none => exact List.drop_sublist _ _
  | some n => exact (List.take_sublist _ _).trans (List.drop_sublist _ _)

theorem mem_join {l r : List Binding} {c : Binding} :
    c ∈ join l r ↔ ∃ a ∈ l, ∃ b ∈ r, a.merge b = some c := by
  simp [join]

end Rows

end SparqlAlgebra
