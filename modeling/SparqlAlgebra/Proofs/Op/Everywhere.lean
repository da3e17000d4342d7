import SparqlAlgebra.Proofs.Op.Bag

/-!
Checks that look at every operator of a tree. What is true everywhere in an operator is true
everywhere in each operator that it is made of, the branches of a union included.
-/

namespace SparqlAlgebra

namespace Op

mutual

/-- Whether a check holds of an operator and of all operators below it. -/
def everywhere (p : Op → Bool) : Op → Bool
  | join l r => p (join l r) && everywhere p l && everywhere p r
  | leftJoin l r exprs => p (leftJoin l r exprs) && everywhere p l && everywhere p r
  | union l r => p (union l r) && everywhere p l && everywhere p r
  | diff l r => p (diff l r) && everywhere p l && everywhere p r
  | conditional l r => p (conditional l r) && everywhere p l && everywhere p r
  | filter exprs sub => p (filter exprs sub) && everywhere p sub
  | graph name sub => p (graph name sub) && everywhere p sub
  | service endpoint sub silent => p (service endpoint sub silent) && everywhere p sub
  | procedure name args sub => p (procedure name args sub) && everywhere p sub
  | propFunc property subject object sub =>
    p (propFunc property subject object sub) && everywhere p sub
  | sequence steps => p (sequence steps) && everywhereSteps p steps
  | label name sub => p (label name sub) && everywhere p sub
  | list sub => p (list sub) && everywhere p sub
  | project vars sub => p (project vars sub) && everywhere p sub
  | order keys sub => p (order keys sub) && everywhere p sub
  | slice offset length sub => p (slice offset length sub) && everywhere p sub
  | distinct sub => p (distinct sub) && everywhere p sub
  | reduced sub => p (reduced sub) && everywhere p sub
  | group vars aggs sub => p (group vars aggs sub) && everywhere p sub
  | assign assignments sub => p (assign assignments sub) && everywhere p sub
  | op => p op

def everywhereSteps (p : Op → Bool) : List Op → Bool
  | [] => true
  | op :: rest => everywhere p op && everywhereSteps p rest

end

/-- Whether no operator in the tree comes from outside. -/
def native (op : Op) : Bool :=
  op.everywhere fun
    | ext _ => false
    | _ => true

variable {p : Op → Bool} {op sub : Op}

theorem everywhereSteps_eq (p : Op → Bool) (steps : List Op) :
    everywhereSteps p steps = steps.all (everywhere p) :=
  steps_eq_all rfl (fun _ _ => rfl) steps

theorem everywhere_self (h : op.everywhere p = true) : p op = true := by
  cases op <;> simp only [everywhere, Bool.and_eq_true] at h
  all_goals first
    | exact h
    | exact h.1
    | exact h.1.1

theorem everywhere_of_mem_branches (h : op.everywhere p = true) :
    ∀ b ∈ op.branches, b.everywhere p = true := by
  refine forall_mem_branches (fun l r h => ?_) h
  simp only [everywhere, Bool.and_eq_true] at h
  exact ⟨h.1.2, h.2⟩

theorem everywhere_of_mem_operands (h : op.everywhere p = true) (hs : sub ∈ op.operands) :
    sub.everywhere p = true := by
  cases op with
  | union l r =>
    simp only [everywhere, Bool.and_eq_true] at h
    simp only [operands, List.mem_cons, List.mem_append] at hs
    -- The branches of a side are parts of the side.
    rcases hs with rfl | rfl | hs | hs
    · exact h.1.2
    · exact h.2
    · exact everywhere_of_mem_branches h.1.2 sub hs
    · exact everywhere_of_mem_branches h.2 sub hs
  | sequence steps =>
    simp only [everywhere, Bool.and_eq_true, everywhereSteps_eq] at h
    exact List.all_eq_true.1 h.2 sub hs
  | _ =>
    simp only [everywhere, Bool.and_eq_true] at h
    simp only [operands, List.mem_cons, List.not_mem_nil, or_false] at hs
    all_goals first
      | exact hs ▸ h.2
      | exact hs.elim (fun e => e ▸ h.1.2) (fun e => e ▸ h.2)

end Op

end SparqlAlgebra
