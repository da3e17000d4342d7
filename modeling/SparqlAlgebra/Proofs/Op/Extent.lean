import SparqlAlgebra.Proofs.Op.Bag
import SparqlAlgebra.Proofs.Path.Extend
import SparqlAlgebra.Proofs.Rows.Extent

/-!
What the rows of an operator bind, next to the active graph. Unlike the scope that plans are built
from, the extent of an operator looks into its tables, and it holds of the rows of the bag algebra
whatever the operator.
-/

namespace SparqlAlgebra

/-- What the rows of a table bind. -/
def Table.extent (t : Table) : Extent :=
  { Extent.ofRows t.rows with
    sure := SortedSet.ofList (t.vars.filter fun v => t.rows.all (·.contains v)) }

theorem Table.bounds (t : Table) (g : Graph) : t.extent.Bounds g t.rows := by
  have hrows := Extent.bounds_ofRows t.rows g
  refine ⟨fun b hb v hv => ?_, hrows.may, hrows.inside⟩
  have hall := (List.mem_filter.1 (SortedSet.mem_ofList.1 hv)).2
  exact List.all_eq_true.1 hall b hb

/-- What the rows of a triple pattern bind; only a predicate need be no node. -/
def TriplePattern.extent (p : TriplePattern) : Extent :=
  .ofVars p.vars (p.vars.filter (· ∉ p.ends))

theorem TriplePattern.bounds (p : TriplePattern) (g : Graph) :
    p.extent.Bounds g (p.extend g ∅) := by
  refine Extent.bounds_ofVars (fun b hb => p.contains_extend hb) fun b hb v hv hn => ?_
  refine p.exists_node_of_extend hb ?_
  by_contra hne
  exact hn (List.mem_filter.2 ⟨hv, decide_eq_true hne⟩)

/-- What the rows of a basic pattern bind. -/
def BasicPattern.extent (p : BasicPattern) : Extent :=
  .ofVars p.vars (p.vars.filter (· ∉ p.ends))

theorem BasicPattern.bounds (p : BasicPattern) (g : Graph) :
    p.extent.Bounds g (p.extend g [∅]) := by
  refine Extent.bounds_ofVars (fun b hb => contains_extend hb) fun b hb v hv hn => ?_
  refine exists_node_of_extend hb ?_
  by_contra hne
  exact hn (List.mem_filter.2 ⟨hv, decide_eq_true hne⟩)

/-- What the rows of a path pattern bind; a walk of length zero may start and end anywhere. -/
def PathPattern.extent (p : PathPattern) : Extent :=
  .ofVars p.vars (if p.path.nullable && !p.adrift then p.vars else [])

theorem PathPattern.bounds (p : PathPattern) (g : Graph) : p.extent.Bounds g (p.extend g ∅) := by
  refine Extent.bounds_ofVars (fun b hb => p.contains_extend hb) fun b hb v hv hn => ?_
  refine PathPattern.exists_node_of_extend (fun hp => ?_) hb hv
  by_contra ha
  rw [hp, Bool.eq_false_iff.2 ha] at hn
  exact hn hv

namespace Op

mutual

/-- What the rows of an operator bind. -/
def extent : Op → Extent
  | bgp p => p.extent
  | triple t => t.extent
  | quad q => q.pattern.extent
  | path p => p.extent
  | join l r => (extent l).join (extent r)
  | leftJoin l r _ => (extent l).leftJoin (extent r)
  | union l r => (extent l).either (extent r)
  | diff l _ => extent l
  | filter _ sub => extent sub
  | graph name sub =>
    (Extent.ofVars name.var?.toList name.var?.toList).join (extent sub).abroad
  | table t => t.extent
  | sequence steps => extentSteps steps
  | label _ sub => extent sub
  | list sub => extent sub
  | project vars sub => (extent sub).project vars
  | slice _ _ sub => extent sub
  | distinct sub => extent sub
  | assign assignments sub => (extent sub).assign (assignments.map (·.1))
  | _ => {}

/-- What the rows joined from all steps bind. -/
def extentSteps : List Op → Extent
  | [] => {}
  | op :: rest => (extent op).join (extentSteps rest)

end

theorem bounds_graphs {d : Dataset} {name : Slot} {e : Binding × Graph} (h : e ∈ d.graphs name)
    (g : Graph) : (Extent.ofVars name.var?.toList name.var?.toList).Bounds g [e.1] := by
  refine Extent.bounds_ofVars (fun b hb v => ?_) fun b _ v hv hn => (hn hv).elim
  rw [List.mem_singleton.1 hb]
  cases name with
  | term t =>
    obtain ⟨g, -, rfl⟩ := List.mem_map.1 h
    simp [Slot.var?, SortedMap.contains]
  | var w =>
    obtain ⟨p, -, rfl⟩ := List.mem_map.1 h
    rw [SortedMap.contains, Binding.get?_single]
    by_cases e : v = w <;> simp [Slot.var?, e]

theorem bounds_bag (op : Op) (d : Dataset) (fs : Functions) (g : Graph) :
    op.extent.Bounds g (op.bag d fs g) := by
  -- The graph is general, since graph clauses change it.
  induction op using operands_induction generalizing g with
  | step op ih =>
    cases op with
    | bgp p => exact p.bounds g
    | triple t => exact t.bounds g
    | quad q =>
      rw [bag]
      split
      · exact q.pattern.bounds g
      · exact Extent.bounds_nil _ g
    | path p => exact p.bounds g
    | join l r => exact (ih l (by simp [operands]) g).join (ih r (by simp [operands]) g)
    | leftJoin l r exprs =>
      exact (ih l (by simp [operands]) g).leftJoin (ih r (by simp [operands]) g) fs _
    | union l r => exact (ih l (by simp [operands]) g).either (ih r (by simp [operands]) g)
    | diff l r => exact (ih l (by simp [operands]) g).subset fun _ => List.mem_of_mem_filter
    | filter exprs sub =>
      exact (ih sub (by simp [operands]) g).subset fun _ => List.mem_of_mem_filter
    | graph name sub =>
      have hsub (h : Graph) := ih sub (by simp [operands]) h
      -- The nodes of a named graph are no nodes of the active one.
      refine Extent.bounds_flatMap fun e he => ?_
      exact (bounds_graphs he g).join (hsub e.2).abroad
    | table t => exact t.bounds g
    | sequence steps =>
      have hsteps (rest : List Op) (h : ∀ op ∈ rest, op ∈ steps) :
          (extentSteps rest).Bounds g (bagSteps d fs rest g) := by
        induction rest with
        | nil => exact Extent.bounds_unit g
        | cons op rest ihr =>
          exact (ih op (h op List.mem_cons_self) g).join
            (ihr fun o ho => h o (List.mem_cons_of_mem op ho))
      exact hsteps steps fun _ h => h
    | marker name => exact Extent.bounds_unit g
    | label name sub => exact ih sub (by simp [operands]) g
    | list sub => exact ih sub (by simp [operands]) g
    | project vars sub => exact (ih sub (by simp [operands]) g).project vars
    | slice offset length sub =>
      exact (ih sub (by simp [operands]) g).subset (Rows.slice_sublist _ _ _).subset
    | distinct sub =>
      exact (ih sub (by simp [operands]) g).subset fun b hb => (Rows.mem_firsts.1 hb).1
    | assign assignments sub => exact (ih sub (by simp [operands]) g).assign fs assignments
    | _ => exact Extent.bounds_nil _ g

end Op

end SparqlAlgebra
