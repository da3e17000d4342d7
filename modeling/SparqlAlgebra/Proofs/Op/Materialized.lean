import SparqlAlgebra.Proofs.Op.Bag
import SparqlAlgebra.Proofs.Stage.Build

/-!
With both kinds of streaming switched off, a plan over the root of a query gives exactly the rows
of the bag algebra, in the same order.
-/

namespace SparqlAlgebra

namespace Op

/-- Operators that are evaluated bottom-up from their operands, in the active graph. -/
def algebraic : Op → Bool
  | bgp _ => true
  | triple _ => true
  | quad q => q.graph.isNone
  | path _ => true
  | join l r => algebraic l && algebraic r
  | leftJoin l r _ => algebraic l && algebraic r
  | union l r => algebraic l && algebraic r
  | diff l r => algebraic l && algebraic r
  | filter _ sub => algebraic sub
  | table _ => true
  | marker _ => true
  | label _ sub => algebraic sub
  | list sub => algebraic sub
  | null => true
  | project _ sub => algebraic sub
  | slice _ _ sub => algebraic sub
  | distinct sub => algebraic sub
  | assign _ sub => algebraic sub
  | _ => false

section Gives

variable {ctx : Context} {input : Stage} {l r sub : Op} {k m : List Binding}

theorem gives_table (t : Table) (h : input.Emits false k none) :
    (compile ctx (table t) input).Gives false (Rows.join k t.rows) :=
  (Compiled.gives_ok (Stage.emits_table t (Bool.and_false _) h)).counted

theorem gives_filter (exprs : List Expr) (h : (compile ctx sub input).Gives false k) :
    (compile ctx (filter exprs sub) input).Gives false
      (k.filter (Expr.allHold ctx.functions exprs)) :=
  (h.map fun _ hs => Stage.emits_filters ctx.functions exprs hs).counted

theorem gives_project (vars : List Var) (h : (compile ctx sub input).Gives false k) :
    (compile ctx (project vars sub) input).Gives false (k.map (·.project vars)) := by
  rw [← RowRule.treat_project ctx.functions]
  exact (h.map fun _ hs => Stage.emits_via hs).counted

theorem gives_join (hj : ctx.config.streamedJoins = false)
    (hl : (compile ctx l input).Gives false k) (hr : (compile ctx r .root).Gives false m) :
    (compile ctx (join l r) input).Gives false (Rows.join k m) := by
  rw [compile_join]
  refine (hl.andThen fun s hs => ?_).counted
  rw [hj, Bool.false_and, if_neg Bool.false_ne_true]
  rw [← Pairing.flatMap_combine_inner ctx.functions]
  exact hr.map fun t ht => Stage.emits_pair (Bool.and_false _) hs ht

/-- A streaming join runs its right side over the left rows. -/
theorem gives_join_streamed (hc : (ctx.config.streamedJoins && joinStreams l r) = true)
    (hl : (compile ctx l input).Gives false k)
    (hr : ∀ s : Stage, s.Emits false k none → (compile ctx r s).Gives false m) :
    (compile ctx (join l r) input).Gives false m := by
  rw [compile_join]
  refine (hl.andThen fun s hs => ?_).counted
  rw [if_pos hc]
  exact hr s hs

theorem gives_leftJoin (exprs : Option (List Expr)) (ho : ctx.config.streamedLeftJoins = false)
    (hl : (compile ctx l input).Gives false k) (hr : (compile ctx r .root).Gives false m) :
    (compile ctx (leftJoin l r exprs) input).Gives false
      (Rows.leftJoin ctx.functions (exprs.getD []) k m) := by
  rw [compile_leftJoin, ← Pairing.flatMap_combine_optional]
  refine (hl.andThen fun s hs => ?_).counted
  rw [ho, Bool.false_and, if_neg Bool.false_ne_true]
  exact hr.map fun t ht => Stage.emits_pair (Bool.and_false _) hs ht

theorem gives_diff (hl : (compile ctx l input).Gives false k)
    (hr : (compile ctx r .root).Gives false m) :
    (compile ctx (diff l r) input).Gives false (Rows.diff k m) := by
  rw [compile_diff, ← Pairing.flatMap_combine_minus ctx.functions]
  refine (hl.andThen fun s hs => ?_).counted
  exact hr.map fun t ht => Stage.emits_pair (Bool.and_false _) hs ht

end Gives

/-- Over any input of one empty row, the operator gives the rows of the bag algebra in order, where
nothing is streamed. -/
def Materializes (op : Op) : Prop :=
  ∀ ctx input, ctx.config.streamedJoins = false → ctx.config.streamedLeftJoins = false →
    input.Emits false [∅] none →
    (compile ctx op input).Gives false (op.bag ctx.dataset ctx.functions ctx.graph)

variable {l r sub : Op}

theorem materializes_join (hl : l.Materializes) (hr : r.Materializes) :
    (join l r).Materializes := fun ctx input hj ho hi =>
  gives_join hj (hl ctx input hj ho hi) (hr ctx .root hj ho Stage.emits_root)

theorem materializes_leftJoin (hl : l.Materializes) (hr : r.Materializes)
    (exprs : Option (List Expr)) : (leftJoin l r exprs).Materializes := fun ctx input hj ho hi =>
  gives_leftJoin exprs ho (hl ctx input hj ho hi) (hr ctx .root hj ho Stage.emits_root)

theorem materializes_diff (hl : l.Materializes) (hr : r.Materializes) :
    (diff l r).Materializes := fun ctx input hj ho hi =>
  gives_diff (hl ctx input hj ho hi) (hr ctx .root hj ho Stage.emits_root)

/-- The branches of a nest of unions are built over the empty row one after the other. -/
theorem materializes_union (h : ∀ b ∈ l.branches ++ r.branches, b.Materializes) :
    (union l r).Materializes := by
  intro ctx input hj ho hi
  rw [compile_union]
  -- The bag of the sides is the bag of their branches, in the same order.
  have hrows : bag ctx.dataset ctx.functions (union l r) ctx.graph =
      [∅].flatMap fun b => ((l.branches ++ r.branches).map fun op =>
        ({ op, seed := b, ctx } : Seeded)).flatMap fun p =>
          p.op.bag ctx.dataset ctx.functions ctx.graph := by
    rw [List.flatMap_singleton, List.flatMap_map, List.flatMap_append, flatMap_bag_branches,
      flatMap_bag_branches, bag]
  rw [hrows]
  refine (Compiled.gives_ok (Stage.emits_each (fun _ => rfl) hi fun b hb => ?_)).counted
  -- The empty row is the only row of the input.
  rw [List.mem_singleton.1 hb]
  refine ⟨_, rfl, Stage.emits_chain fun p hp => ?_⟩
  obtain ⟨op, hop, rfl⟩ := List.mem_map.1 hp
  exact h op hop ctx _ hj ho (Stage.emits_rows _)

/-- An operator that puts one stage on its operand. -/
theorem materializes_of_map {op : Op} (h : sub.Materializes) {f : Context → Stage → Stage}
    (hc : ∀ ctx input, compile ctx op input = ((compile ctx sub input).map (f ctx)).counted)
    (hf : ∀ ctx s, s.Emits false (sub.bag ctx.dataset ctx.functions ctx.graph) none →
      (f ctx s).Emits false (op.bag ctx.dataset ctx.functions ctx.graph) none) :
    op.Materializes := by
  intro ctx input hj ho hi
  rw [hc]
  exact ((h ctx input hj ho hi).map (hf ctx)).counted

theorem materializes_filter (h : sub.Materializes) (exprs : List Expr) :
    (filter exprs sub).Materializes := fun ctx input hj ho hi =>
  gives_filter exprs (h ctx input hj ho hi)

theorem materializes_project (h : sub.Materializes) (vars : List Var) :
    (project vars sub).Materializes := fun ctx input hj ho hi =>
  gives_project vars (h ctx input hj ho hi)

theorem materializes_distinct (h : sub.Materializes) : (distinct sub).Materializes := by
  refine materializes_of_map h (compile_distinct · · sub) fun ctx s hs => ?_
  rw [bag, ← RowRule.treat_distinct ctx.functions]
  exact Stage.emits_via hs

theorem materializes_assign (h : sub.Materializes) (assignments : List (Var × Expr)) :
    (assign assignments sub).Materializes := by
  refine materializes_of_map h (compile_assign · · assignments sub) fun ctx s hs => ?_
  rw [bag, ← RowRule.treat_assign]
  exact Stage.emits_via hs

theorem algebraic_of_mem_branches {op : Op} (h : op.algebraic = true) :
    ∀ b ∈ op.branches, b.algebraic = true :=
  forall_mem_branches (fun l r h => by simpa [algebraic] using h) h

theorem materializes {op : Op} (h : op.algebraic = true) : op.Materializes := by
  -- Each operand is run by itself over the empty row, which is what the bag algebra says of it.
  induction op using operands_induction with
  | step op ih =>
    cases op with
    | bgp p =>
      intro ctx input _ _ hi
      exact (Compiled.gives_ok (Stage.emits_pattern p ctx.graph hi)).counted
    | triple t =>
      intro ctx input _ _ hi
      have hs := Stage.emits_triple t ctx.graph hi
      rw [List.flatMap_singleton] at hs
      exact (Compiled.gives_ok hs).counted
    | quad q =>
      obtain ⟨g, p⟩ := q
      cases g with
      | some g => cases h
      | none =>
        intro ctx input _ _ hi
        exact (Compiled.gives_ok (Stage.emits_pattern p ctx.graph hi)).counted
    | path p =>
      intro ctx input _ _ hi
      have hs := Stage.emits_path p ctx.graph hi
      rw [List.flatMap_singleton] at hs
      exact (Compiled.gives_ok hs).counted
    | join l r =>
      obtain ⟨hl, hr⟩ := Bool.and_eq_true_iff.1 h
      exact materializes_join (ih l (by simp [operands]) hl) (ih r (by simp [operands]) hr)
    | leftJoin l r exprs =>
      obtain ⟨hl, hr⟩ := Bool.and_eq_true_iff.1 h
      exact materializes_leftJoin (ih l (by simp [operands]) hl) (ih r (by simp [operands]) hr) exprs
    | union l r =>
      obtain ⟨hl, hr⟩ := Bool.and_eq_true_iff.1 h
      refine materializes_union fun b hb => ih b (by simp [operands] at hb ⊢; exact .inr (.inr hb)) ?_
      rcases List.mem_append.1 hb with hb | hb
      · exact algebraic_of_mem_branches hl b hb
      · exact algebraic_of_mem_branches hr b hb
    | diff l r =>
      obtain ⟨hl, hr⟩ := Bool.and_eq_true_iff.1 h
      exact materializes_diff (ih l (by simp [operands]) hl) (ih r (by simp [operands]) hr)
    | filter exprs sub => exact materializes_filter (ih sub (by simp [operands]) h) exprs
    | table t =>
      intro ctx input _ _ hi
      have hs : (compile ctx (table t) input).Gives false (Rows.join [∅] t.rows) := gives_table t hi
      rwa [Rows.unit_join] at hs
    | marker name => exact fun ctx input _ _ hi => (Compiled.gives_ok hi).counted
    | label name sub =>
      exact fun ctx input hj ho hi => (ih sub (by simp [operands]) h ctx input hj ho hi).counted
    | list sub =>
      exact fun ctx input hj ho hi => (ih sub (by simp [operands]) h ctx input hj ho hi).counted
    | null => exact fun ctx input _ _ _ => ⟨.rows [], rfl, Stage.emits_rows []⟩
    | project vars sub => exact materializes_project (ih sub (by simp [operands]) h) vars
    | slice offset length sub =>
      exact materializes_of_map (ih sub (by simp [operands]) h)
        (compile_slice · · offset length sub) fun _ _ hs => Stage.emits_slice hs _ _
    | distinct sub => exact materializes_distinct (ih sub (by simp [operands]) h)
    | assign assignments sub =>
      exact materializes_assign (ih sub (by simp [operands]) h) assignments
    | _ => cases h

end Op

/-- Without streaming, the rows of a query are the rows of the bag algebra, in the same order. -/
theorem Context.solutions_materialized {ctx : Context} {op : Op}
    (hj : ctx.config.streamedJoins = false) (ho : ctx.config.streamedLeftJoins = false)
    (h : op.algebraic = true) :
    ctx.solutions op .root = .ok (op.bag ctx.dataset ctx.functions ctx.graph) :=
  solutions_eq (Op.materializes h ctx .root hj ho Stage.emits_root)

/-- A left join finds a match for one row of two, and the variable of the match is projected away. -/
theorem Context.solutions_materialized_leftJoin :
    let ctx : Context := { ofDataset {} with config := .materializing }
    let left : Op := .table (.ofRows [.single ⟨"x"⟩ (.iri "a"), .single ⟨"x"⟩ (.iri "b")])
    let right : Op := .table (.ofRows [.ofList [(⟨"x"⟩, .iri "a"), (⟨"y"⟩, .iri "c")]])
    let op : Op := .distinct (.project [⟨"x"⟩] (.leftJoin left right none))
    ctx.config.streamedJoins = false ∧ ctx.config.streamedLeftJoins = false ∧
      op.algebraic = true ∧
      ctx.solutions op .root = .ok [.single ⟨"x"⟩ (.iri "a"), .single ⟨"x"⟩ (.iri "b")] := by
  refine ⟨rfl, rfl, rfl, ?_⟩
  exact (solutions_materialized rfl rfl rfl).trans (congrArg Except.ok (by decide))

end SparqlAlgebra
