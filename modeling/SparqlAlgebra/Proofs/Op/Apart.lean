import SparqlAlgebra.Proofs.Op.Extent

/-!
Operators whose rows stay apart whatever is merged into them, so that duplicates may be removed
below as well as above a join with them.
-/

namespace SparqlAlgebra

/-- Whether no two rows are equal and all bind the same variables. -/
def Table.apart (t : Table) : Bool := t.rows.Pairwise fun a b => a ≠ b ∧ a.dom = b.dom

theorem Table.apart_rows {t : Table} (h : t.apart = true) : Rows.Apart t.rows := by
  have hpair : t.rows.Pairwise fun a b => a ≠ b ∧ a.dom = b.dom := of_decide_eq_true h
  have hdom := List.Pairwise.forall_of_forall_of_flip
    (R := fun a b : Binding => a.dom = b.dom) (fun _ _ => rfl) (hpair.imp (·.2))
    (hpair.imp fun h => h.2.symm)
  refine ⟨hpair.imp (·.1), fun a ha b hb v => ?_⟩
  rw [Bool.eq_iff_iff, ← Binding.mem_dom, ← Binding.mem_dom, hdom ha hb]

namespace Op

/-- Operators that have no two equal rows, and whose rows all bind the same variables, in every
dataset. -/
def apart : Op → Bool
  | bgp _ => true
  | triple _ => true
  | quad _ => true
  | join l r => apart l && apart r
  | diff l _ => apart l
  | filter _ sub => apart sub
  | table t => t.apart
  | marker _ => true
  | label _ sub => apart sub
  | list sub => apart sub
  | null => true
  | slice _ _ sub => apart sub
  | distinct sub => sub.extent.may.toList.all (· ∈ sub.extent.sure)
  | _ => false

theorem apart_bag {op : Op} (h : op.apart = true) (d : Dataset) (fs : Functions) (g : Graph) :
    Rows.Apart (op.bag d fs g) := by
  induction op using operands_induction with
  | step op ih =>
    cases op with
    | bgp p => exact p.apart_extend g
    | triple t => exact t.apart_extend g
    | quad q =>
      rw [bag]
      split
      · exact q.pattern.apart_extend g
      · exact Rows.apart_nil
    | join l r =>
      obtain ⟨hl, hr⟩ := Bool.and_eq_true_iff.1 h
      exact (ih l (by simp [operands]) hl).join (ih r (by simp [operands]) hr)
    | diff l r => exact (ih l (by simp [operands]) h).sublist List.filter_sublist
    | filter exprs sub => exact (ih sub (by simp [operands]) h).sublist List.filter_sublist
    | table t => exact t.apart_rows h
    | marker name => exact Rows.apart_singleton ∅
    | label name sub => exact ih sub (by simp [operands]) h
    | list sub => exact ih sub (by simp [operands]) h
    | null => exact Rows.apart_nil
    | slice offset length sub =>
      exact (ih sub (by simp [operands]) h).sublist (Rows.slice_sublist _ _ _)
    | distinct sub =>
      have hb := bounds_bag sub d fs g
      have hall (a : Binding) (ha : a ∈ (distinct sub).bag d fs g) (v : Var)
          (hv : v ∈ sub.extent.may) : a.contains v = true :=
        hb.sure a (Rows.mem_firsts.1 ha).1 v
          (of_decide_eq_true (List.all_eq_true.1 h v (SortedSet.mem_toList.2 hv)))
      have hmay (a : Binding) (ha : a ∈ (distinct sub).bag d fs g) (v : Var)
          (hv : a.contains v = true) : v ∈ sub.extent.may := hb.may a (Rows.mem_firsts.1 ha).1 v hv
      refine ⟨Rows.nodup_firsts _ _, fun a ha b hb' v => ?_⟩
      rw [Bool.eq_iff_iff]
      exact ⟨fun hv => hall b hb' v (hmay a ha v hv), fun hv => hall a ha v (hmay b hb' v hv)⟩
    | _ => cases h

end Op

end SparqlAlgebra
