import SparqlAlgebra.Proofs.Op.Seeded
import SparqlAlgebra.Proofs.Op.Summary

/-!
Operators that do not notice the rows they are fed with. In whatever way they are nested, and
whatever is streamed, running them over rows is the same as joining the rows with a run of their own.
-/

namespace SparqlAlgebra

/-- Whether a path has no part that may be skipped. -/
def Path.obliging : Path → Bool
  | link _ => true
  | inverse p => obliging p
  | sequence p q => obliging p && obliging q
  | alternative p q => obliging p && obliging q
  | zeroOrOne _ => false
  | zeroOrMore _ => false
  | oneOrMore p => obliging p

theorem Path.nullable_of_obliging {p : Path} (h : p.obliging = true) : p.nullable = false := by
  induction p with
  | link predicate => rfl
  | inverse p ih => exact ih h
  | sequence p q hp _ => rw [nullable, hp (Bool.and_eq_true_iff.1 h).1, Bool.false_and]
  | alternative p q hp hq =>
    obtain ⟨hop, hoq⟩ := Bool.and_eq_true_iff.1 h
    rw [nullable, hp hop, hq hoq, Bool.or_false]
  | zeroOrOne p => cases h
  | zeroOrMore p => cases h
  | oneOrMore p ih => exact ih h

namespace Op

mutual

/-- Operators that bind all they look at: patterns, complete tables, and what is built from them by
joins, unions, sequences, graph clauses and filters over fixed variables. -/
def transparent : Op → Bool
  | bgp _ => true
  | triple _ => true
  | quad q => q.graph.isNone
  | path p => p.path.obliging
  | join l r => transparent l && transparent r
  | union l r => transparent l && transparent r
  | filter exprs sub =>
    transparent sub && (Expr.mentionsAll exprs).all (· ∈ (scope sub).fixed)
  | graph _ sub => transparent sub
  | table t => t.complete
  | sequence steps => transparentSteps steps
  | marker _ => true
  | label _ sub => transparent sub
  | list sub => transparent sub
  | null => true
  | _ => false

/-- All steps are of this kind. -/
def transparentSteps : List Op → Bool
  | [] => true
  | op :: rest => transparent op && transparentSteps rest

end

theorem transparentSteps_eq (steps : List Op) : transparentSteps steps = steps.all transparent :=
  steps_eq_all rfl (fun _ _ => rfl) steps

theorem summarized_of_transparent {op : Op} (h : op.transparent = true) : op.summarized = true := by
  induction op using operands_induction with
  | step op ih =>
    cases op with
    | bgp p => rfl
    | triple t => rfl
    | quad q => exact h
    | path p => rfl
    | join l r =>
      obtain ⟨hl, hr⟩ := Bool.and_eq_true_iff.1 h
      exact Bool.and_eq_true_iff.2 ⟨ih l (by simp [operands]) hl, ih r (by simp [operands]) hr⟩
    | union l r =>
      obtain ⟨hl, hr⟩ := Bool.and_eq_true_iff.1 h
      exact Bool.and_eq_true_iff.2 ⟨ih l (by simp [operands]) hl, ih r (by simp [operands]) hr⟩
    | filter exprs sub => exact ih sub (by simp [operands]) (Bool.and_eq_true_iff.1 h).1
    | graph name sub => exact ih sub (by simp [operands]) h
    | table t => exact h
    | sequence steps =>
      have hall : steps.all transparent = true := (transparentSteps_eq steps).symm.trans h
      refine (summarizedSteps_eq steps).trans (List.all_eq_true.2 fun op ho => ?_)
      exact ih op ho (List.all_eq_true.1 hall op ho)
    | marker name => rfl
    | label name sub => exact ih sub (by simp [operands]) h
    | list sub => exact ih sub (by simp [operands]) h
    | null => rfl
    | _ => cases h

/-- A transparent operator accepts any rows. -/
theorem accepts_of_transparent {op : Op} (h : op.transparent = true) (c : Config) (far : Bool)
    (fed : Extent) : op.accepts c far fed = true := by
  induction op using operands_induction generalizing far fed with
  | step op ih =>
    cases op with
    | bgp p => rfl
    | triple t => rfl
    | quad q => exact h
    | path p =>
      have hn : p.path.nullable = false := Path.nullable_of_obliging h
      rw [accepts, PathPattern.anchored, PathPattern.adrift, hn]
      rfl
    | join l r =>
      obtain ⟨hl, hr⟩ := Bool.and_eq_true_iff.1 h
      have har := ih r (by simp [operands]) hr
      refine Bool.and_eq_true_iff.2 ⟨ih l (by simp [operands]) hl _ _, ?_⟩
      split
      · exact har _ _
      · exact har _ _
    | union l r =>
      obtain ⟨hl, hr⟩ := Bool.and_eq_true_iff.1 h
      exact Bool.and_eq_true_iff.2
        ⟨ih l (by simp [operands]) hl _ _, ih r (by simp [operands]) hr _ _⟩
    | filter exprs sub =>
      obtain ⟨hs, hm⟩ := Bool.and_eq_true_iff.1 h
      -- A fixed variable is bound by the rows themselves, whatever is fed in.
      have hset : sub.extent.settles fed.may (SortedSet.ofList (Expr.mentionsAll exprs)) = true := by
        refine Extent.settles_iff.2 fun v _ hv => ?_
        have hfix := List.all_eq_true.1 hm v (SortedSet.mem_ofList.1 hv)
        exact (describes (summarized_of_transparent hs)).sure v (of_decide_eq_true hfix)
      exact Bool.and_eq_true_iff.2 ⟨ih sub (by simp [operands]) hs _ _, hset⟩
    | graph name sub => exact ih sub (by simp [operands]) h _ _
    | table t => rfl
    | sequence steps =>
      have hall : steps.all transparent = true := (transparentSteps_eq steps).symm.trans h
      have hsteps (rest : List Op) (hr : ∀ op ∈ rest, op ∈ steps) (far : Bool)
          (fed : Extent) : acceptsSteps c rest far fed = true := by
        induction rest generalizing far fed with
        | nil => rfl
        | cons op rest ihr =>
          have ho := hr op List.mem_cons_self
          exact Bool.and_eq_true_iff.2 ⟨ih op ho (List.all_eq_true.1 hall op ho) _ _,
            ihr (fun o hm => hr o (List.mem_cons_of_mem op hm)) _ _⟩
      exact hsteps steps (fun _ hm => hm) far fed
    | marker name => rfl
    | label name sub => exact ih sub (by simp [operands]) h _ _
    | list sub => exact ih sub (by simp [operands]) h _ _
    | null => rfl
    | _ => cases h

end Op

/-- A transparent operator, run over rows that come to their end, has rows, and they are those
rows joined with the rows of a run of its own. -/
theorem Context.solutions_seeded {ctx : Context} {op : Op} {input : Stage} {l : List Binding}
    (h : op.transparent = true) (hi : input.Emits false l none) :
    ∃ base rows, ctx.solutions op .root = .ok base ∧ ctx.solutions op input = .ok rows ∧
      rows.Perm (Rows.join l base) := by
  have hacc := Op.accepts_of_transparent h ctx.config
  have hop : op.Seeds := op.seeds
  obtain ⟨base, hbase, hb⟩ := solutions_perm (hop.root (hacc true {}))
  obtain ⟨rows, hrows, hr⟩ := solutions_perm
    (hop (hacc false _) (Extent.bounds_ofRows l _) nofun hi.bag)
  exact ⟨base, rows, hbase, hrows, hr.trans (Rows.join_perm (.refl l) hb.symm)⟩

theorem Context.solutions_seeded_path :
    let ctx := ofDataset (({} : Dataset).addTriple ⟨.iri "a", .iri "p", .iri "b"⟩)
    let op : Op := .join (.path ⟨.var ⟨"x"⟩, .oneOrMore (.link "p"), .var ⟨"y"⟩⟩)
      (.filter [.bound ⟨"y"⟩] (.table (.ofRows [.single ⟨"y"⟩ (.iri "b")])))
    let l : List Binding := [.single ⟨"y"⟩ (.iri "b"), .single ⟨"y"⟩ (.iri "c")]
    op.transparent = true ∧ Stage.Emits false (.rows l) l none ∧
      ∃ base rows, ctx.solutions op .root = .ok base ∧ ctx.solutions op (.rows l) = .ok rows ∧
        rows.Perm (Rows.join l base) := by
  refine ⟨by decide, Stage.emits_rows _, ?_⟩
  exact solutions_seeded (by decide) (Stage.emits_rows _)

end SparqlAlgebra
