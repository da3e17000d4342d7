import SparqlAlgebra.Proofs.Pattern.Extend

/-!
The bag algebra of operators: the rows of an operator in a graph, each operand evaluated by itself
and without a look at how plans are built. Proofs about operators go by induction over what an
operator is made of, where a nest of unions is made of its branches.
-/

namespace SparqlAlgebra

/-- The graphs that a graph clause is about, each with the row that binds its name. -/
def Dataset.graphs (d : Dataset) : Slot → List (Binding × Graph)
  | .term t => (d.named.get? t).toList.map (∅, ·)
  | .var v => d.named.entries.map fun e => (.single v e.1, e.2)

namespace Op

mutual

/-- The rows of an operator in a graph. Operators outside the algebra have none. -/
def bag (d : Dataset) (fs : Functions) : Op → Graph → List Binding
  | bgp p, g => p.extend g [∅]
  | triple t, g => t.extend g ∅
  | quad q, g => if q.graph.isNone then q.pattern.extend g [∅] else []
  | path p, g => p.extend g ∅
  | join l r, g => Rows.join (bag d fs l g) (bag d fs r g)
  | leftJoin l r exprs, g => Rows.leftJoin fs (exprs.getD []) (bag d fs l g) (bag d fs r g)
  | union l r, g => bag d fs l g ++ bag d fs r g
  | diff l r, g => Rows.diff (bag d fs l g) (bag d fs r g)
  | filter exprs sub, g => (bag d fs sub g).filter (Expr.allHold fs exprs)
  | graph name sub, _ => (d.graphs name).flatMap fun e => Rows.join [e.1] (bag d fs sub e.2)
  | table t, _ => t.rows
  | sequence steps, g => bagSteps d fs steps g
  | marker _, _ => [∅]
  | label _ sub, g => bag d fs sub g
  | list sub, g => bag d fs sub g
  | project vars sub, g => (bag d fs sub g).map (·.project vars)
  | slice offset length sub, g =>
    Rows.slice (offset.elim 0 UInt64.toNat) (length.map UInt64.toNat) (bag d fs sub g)
  | distinct sub, g => Rows.firsts [] (bag d fs sub g)
  | assign assignments sub, g => Rows.assign fs assignments (bag d fs sub g)
  | _, _ => []

/-- The join of all steps. -/
def bagSteps (d : Dataset) (fs : Functions) : List Op → Graph → List Binding
  | [], _ => [∅]
  | op :: rest, g => Rows.join (bag d fs op g) (bagSteps d fs rest g)

end

/-- The operators that an operator is made of; a union is made of its sides and their branches. -/
def operands : Op → List Op
  | join l r => [l, r]
  | leftJoin l r _ => [l, r]
  | union l r => l :: r :: (branches l ++ branches r)
  | diff l r => [l, r]
  | conditional l r => [l, r]
  | filter _ sub => [sub]
  | graph _ sub => [sub]
  | service _ sub _ => [sub]
  | procedure _ _ sub => [sub]
  | propFunc _ _ _ sub => [sub]
  | sequence steps => steps
  | label _ sub => [sub]
  | list sub => [sub]
  | project _ sub => [sub]
  | order _ sub => [sub]
  | slice _ _ sub => [sub]
  | distinct sub => [sub]
  | reduced sub => [sub]
  | group _ _ sub => [sub]
  | assign _ sub => [sub]
  | _ => []

theorem sizeOf_of_mem_branches {op b : Op} (h : b ∈ op.branches) : sizeOf b ≤ sizeOf op := by
  fun_induction branches op with
  | case1 l r hl hr =>
    rw [union.sizeOf_spec]
    rcases List.mem_append.1 h with h | h
    · have := hl h
      omega
    · have := hr h
      omega
  | case2 op _ => exact Nat.le_of_eq (congrArg sizeOf (List.mem_singleton.1 h))

theorem sizeOf_of_mem_operands {op sub : Op} (h : sub ∈ op.operands) : sizeOf sub < sizeOf op := by
  cases op with
  | union l r =>
    -- Branches are no operands of the sides but parts of them at any depth.
    rw [union.sizeOf_spec]
    simp only [operands, List.mem_cons, List.mem_append] at h
    rcases h with rfl | rfl | h | h
    · omega
    · omega
    · have := sizeOf_of_mem_branches h
      omega
    · have := sizeOf_of_mem_branches h
      omega
  | sequence steps =>
    have hs : sizeOf sub < sizeOf steps := List.sizeOf_lt_of_mem h
    rw [sequence.sizeOf_spec]
    omega
  | _ =>
    simp only [operands, List.mem_cons, List.not_mem_nil, or_false] at h <;>
      rcases h with rfl | rfl <;> simp +arith

/-- Induction over operators, with the claim for every branch of a union and every step of a
sequence. -/
@[elab_as_elim] theorem operands_induction {P : Op → Prop}
    (step : ∀ op, (∀ sub ∈ op.operands, P sub) → P op) (op : Op) : P op :=
  step op fun sub h =>
    have := sizeOf_of_mem_operands h
    operands_induction step sub
termination_by op

theorem flatMap_bag_branches (d : Dataset) (fs : Functions) (op : Op) (g : Graph) :
    (op.branches.flatMap fun b => b.bag d fs g) = op.bag d fs g := by
  fun_induction branches op with
  | case1 l r hl hr => rw [List.flatMap_append, hl, hr, bag]
  | case2 op _ => exact List.flatMap_singleton _ op

/-- A check of steps that goes down the list is the check of each of them. -/
theorem steps_eq_all {P : Op → Bool} {S : List Op → Bool} (hnil : S [] = true)
    (hcons : ∀ op rest, S (op :: rest) = (P op && S rest)) (steps : List Op) :
    S steps = steps.all P := by
  induction steps with
  | nil => exact hnil
  | cons op rest ih => rw [hcons, ih, List.all_cons]

/-- What goes from a union to its sides goes to all its branches. -/
theorem forall_mem_branches {P : Op → Prop} (hu : ∀ l r, P (union l r) → P l ∧ P r) {op : Op}
    (h : P op) : ∀ b ∈ op.branches, P b := by
  intro b hb
  fun_induction branches op with
  | case1 l r hl hr =>
    obtain ⟨h, h'⟩ := hu l r h
    rcases List.mem_append.1 hb with hb | hb
    · exact hl h hb
    · exact hr h' hb
  | case2 op _ => exact List.mem_singleton.1 hb ▸ h

end Op

end SparqlAlgebra
