import SparqlAlgebra.Proofs.Op.Summary
import SparqlAlgebra.Proofs.Op.Within
import SparqlAlgebra.Proofs.Rows.Bound

/-!
The scope of an operator misses no variable: whatever a stage shows binds only variables of the
scope and variables that the rows of its input bind. The scope trusts the declarations of tables
and does not look into procedures and extensions.
-/

namespace SparqlAlgebra

/-- All variables that the row binds are of the kind. -/
def Binding.Only (D : Var → Prop) (b : Binding) : Prop := ∀ v, b.contains v = true → D v

/-- Whether the table declares at least the variables that its rows bind. -/
def Table.declared (t : Table) : Bool := t.rows.all fun b => b.keys.all (· ∈ t.vars)

theorem Table.only_of_declared {t : Table} (h : t.declared = true) :
    ∀ b ∈ t.rows, b.Only (· ∈ t.vars) := by
  intro b hb v hv
  have hkeys : b.keys.all (· ∈ t.vars) = true := List.all_eq_true.1 h b hb
  exact of_decide_eq_true (List.all_eq_true.1 hkeys v (SortedMap.mem_keys.2 hv))

namespace Stage

open Binding

variable {D E : Var → Prop} {s right : Stage}

theorem Within.only_mono (h : s.Within (Only D)) (hDE : ∀ v, D v → E v) : s.Within (Only E) :=
  h.mono fun _ hb v hv => hDE v (hb v hv)

theorem within_only_root : root.Within (Only fun _ => False) := by
  intro b hb v hv
  obtain rfl := yields_root_iff.1 hb
  cases hv

theorem within_only_triple (p : TriplePattern) (g : Graph) (hs : s.Within (Only D)) :
    (each (.triple p g) s).Within (Only fun v => v ∈ p.vars ∨ D v) :=
  within_triple hs fun _ hb _ hc v hv =>
    ((TriplePattern.contains_of_mem_extend hc v).1 hv).symm.imp_right (hb v)

theorem within_only_pattern (p : BasicPattern) (g : Graph) (hs : s.Within (Only D)) :
    (p.stage g s).Within (Only fun v => v ∈ p.vars ∨ D v) := by
  induction p generalizing s D with
  | nil => exact hs.only_mono fun _ => .inr
  | cons t p ih =>
    refine (ih (within_only_triple t g hs)).only_mono fun v hv => ?_
    have hvars : v ∈ BasicPattern.vars (t :: p) ↔ v ∈ t.vars ∨ v ∈ BasicPattern.vars p := by
      simp [BasicPattern.vars]
    rw [hvars]
    tauto

theorem within_only_path (p : PathPattern) (g : Graph) (hs : s.Within (Only D)) :
    (each (.path p g) s).Within (Only fun v => v ∈ p.vars ∨ D v) :=
  within_path hs fun _ hb _ hc v hv =>
    ((PathPattern.contains_of_mem_extend hc v).1 hv).symm.imp_right (hb v)

/-- Whatever the pairing, a row binds nothing that neither side binds. -/
theorem within_only_pair (rule : Pairing) (ctx : Context) (hs : s.Within (Only D))
    (hr : right.Within (Only E)) :
    (pair rule ctx s right none []).Within (Only fun v => E v ∨ D v) := by
  refine within_pair hs hr fun b r hb hr c hc v hv => ?_
  rcases Pairing.contains_of_mem_combine hc hv with hbv | ⟨d, hd, hdv⟩
  · exact .inr (hb v hbv)
  · exact .inl (hr d hd v hdv)

theorem within_only_table {t : Table} (h : t.declared = true) (ctx : Context)
    (hs : s.Within (Only D)) : (t.stage ctx s).Within (Only fun v => v ∈ t.vars ∨ D v) := by
  have hrows : (rows t.rows).Within (Only (· ∈ t.vars)) := within_rows (t.only_of_declared h)
  rcases t.stage_cases ctx s with ⟨-, ht⟩ | ⟨-, ht⟩ | ht <;> rw [ht]
  · exact hs.only_mono fun _ => .inr
  · exact hrows.only_mono fun _ => .inl
  · exact within_only_pair .inner ctx hs hrows

theorem within_only_group (vars : List Var) (aggs : List Aggregation) (ctx : Context)
    (hs : s.Within (Only D)) :
    (gather (.group vars aggs) ctx s []).Within (Only (· ∈ vars ++ aggs.map (·.var))) :=
  within_gather hs fun _ _ _ hc _ hv => Rows.contains_of_mem_group hc hv

end Stage

namespace Op

open Stage Binding

/-- Whether all variables of the rows can be read off the operator: its tables declare what they
bind, and there are no procedures and no extensions. -/
def overt (op : Op) : Bool :=
  op.everywhere fun
    | table t => t.declared
    | procedure .. => false
    | propFunc .. => false
    | ext _ => false
    | _ => true

/-- Besides what the rows of the input bind, the operator binds variables of its scope only. -/
def Covers (op : Op) : Prop :=
  ∀ ⦃ctx : Context⦄ ⦃i s : Stage⦄ ⦃D : Var → Prop⦄, Builds ctx op i s → i.Within (Only D) →
    s.Within (Only fun v => v ∈ op.scope.all ∨ D v)

variable {op l r sub : Op}

/-- An operator that is compiled over a single row. -/
theorem Covers.seeded (h : op.Covers) {ctx : Context} {b : Binding} {u : Stage} {D : Var → Prop}
    (hu : (compile ctx op (rows [b])).result = .ok u) (hb : b.Only D) :
    u.Within (Only fun v => v ∈ op.scope.all ∨ D v) :=
  h (builds_of_compile hu) (within_single hb)

theorem mem_all_of_mem_branches {v : Var} (op : Op) :
    ∀ b ∈ op.branches, v ∈ b.scope.all → v ∈ op.scope.all := by
  refine forall_mem_branches (P := fun b => v ∈ b.scope.all → v ∈ op.scope.all) ?_ id
  exact fun l r h => ⟨fun hv => h (Scope.mem_all_either.2 (.inl hv)),
    fun hv => h (Scope.mem_all_either.2 (.inr hv))⟩

theorem covers_union (h : ∀ op ∈ l.branches ++ r.branches, op.Covers) : (union l r).Covers := by
  intro ctx i s D hs hi
  cases hs
  refine within_union hi fun op ho b u hb hu => ?_
  refine (h op ho hu (within_single hb)).only_mono fun v hv => ?_
  exact hv.imp_left (mem_all_of_mem_branches (union l r) op ho)

/-- What a row that binds the name besides leads to is in the scope of the clause. -/
theorem covers_graph (h : sub.Covers) (name : Slot) : (graph name sub).Covers := by
  intro ctx i s D hs hi
  cases hs
  refine within_graph hi fun b c t g u hb hc hu => ?_
  have hseed : c.Only fun v => name = .var v ∨ D v := fun v hv => (hc.only v hv).imp_right (hb v)
  refine (h hu (within_single hseed)).only_mono fun v hv => ?_
  rcases hv with hv | rfl | hv
  · exact .inl (Scope.mem_all_fixing.2 (.inr hv))
  · exact .inl (Scope.mem_all_fixing.2 (.inl (List.mem_singleton.2 rfl)))
  · exact .inr hv

theorem covers_service (h : sub.Covers) (endpoint : Slot) (silent : Bool) :
    (service endpoint sub silent).Covers := by
  intro ctx i s D hs hi
  cases hs
  refine within_service hi (fun b d u hb _ hu => ?_) fun _ b hb v hv => .inr (hb v hv)
  refine (h hu (within_single hb)).only_mono fun v hv => ?_
  exact hv.imp_left fun hv => Scope.mem_all_fixing.2 (.inr hv)

theorem covers_join (hl : l.Covers) (hr : r.Covers) : (join l r).Covers := by
  intro ctx i s D hs hi
  have hmono (v : Var) (hv : v ∈ r.scope.all ∨ v ∈ l.scope.all ∨ D v) :
      v ∈ (join l r).scope.all ∨ D v := by
    rw [scope, Scope.mem_all_conj]
    tauto
  cases hs with
  | joinFed _ hls hrs => exact (hr hrs (hl hls hi)).only_mono hmono
  | joinPaired _ hls hrs =>
    have hright := (hr hrs within_only_root).only_mono fun v hv => hv.resolve_right id
    exact (within_only_pair .inner ctx (hl hls hi) hright).only_mono hmono

theorem covers_diff (hl : l.Covers) (hr : r.Covers) : (diff l r).Covers := by
  intro ctx i s D hs hi
  cases hs with
  | diff hls hrs =>
    have hright := (hr hrs within_only_root).only_mono fun v hv => hv.resolve_right id
    refine (within_only_pair .minus ctx (hl hls hi) hright).only_mono fun v hv => ?_
    rw [scope, Scope.mem_all_minus]
    tauto

theorem covers_filter (h : sub.Covers) (exprs : List Expr) : (filter exprs sub).Covers := by
  intro ctx i s D hs hi
  cases hs with
  | filter exprs hs => exact within_filters exprs (h hs hi)

theorem Covers.filtered (h : op.Covers) (exprs : Option (List Expr)) {ctx : Context}
    {b : Binding} {u : Stage} {D : Var → Prop}
    (hu : (compile ctx (op.filtered exprs) (rows [b])).result = .ok u) (hb : b.Only D) :
    u.Within (Only fun v => v ∈ op.scope.all ∨ D v) := by
  rcases exprs with _ | _ | ⟨e, es⟩
  · exact h.seeded hu hb
  · exact h.seeded hu hb
  · exact (covers_filter h (e :: es)).seeded hu hb

theorem covers_leftJoin (hl : l.Covers) (hr : r.Covers) (exprs : Option (List Expr)) :
    (leftJoin l r exprs).Covers := by
  intro ctx i s D hs hi
  have hall : (leftJoin l r exprs).scope.all = (l.scope.maybe r.scope).all := rfl
  have hmono (v : Var) (hv : v ∈ r.scope.all ∨ v ∈ l.scope.all ∨ D v) :
      v ∈ (leftJoin l r exprs).scope.all ∨ D v := by
    rw [hall, Scope.mem_all_maybe]
    tauto
  cases hs with
  | leftJoinFed _ hls =>
    refine within_optional (hl hls hi) (fun b hb v hv => hmono v (.inr (hb v hv))) ?_
    exact fun b u hb hu => (hr.filtered exprs hu hb).only_mono hmono
  | leftJoinPaired _ hls hrs =>
    have hright := (hr hrs within_only_root).only_mono fun v hv => hv.resolve_right id
    exact (within_only_pair _ ctx (hl hls hi) hright).only_mono hmono

/-- Step by step, from a scope that covers the steps before. -/
theorem covers_steps {ctx : Context} {steps : List Op} (h : ∀ op ∈ steps, op.Covers) {i s : Stage}
    {D : Var → Prop} (hs : Builds ctx (sequence steps) i s) {sc : Scope}
    (hi : i.Within (Only fun v => v ∈ sc.all ∨ D v)) :
    s.Within (Only fun v => v ∈ (scopeSteps sc steps).all ∨ D v) := by
  induction steps generalizing i sc with
  | nil =>
    cases hs
    exact hi
  | cons op rest ih =>
    cases hs with
    | steps hop hrest =>
      have hmid : _ := h op List.mem_cons_self hop hi
      refine ih (fun o ho => h o (List.mem_cons_of_mem op ho)) hrest (hmid.only_mono fun v hv => ?_)
      rw [Scope.mem_all_conj]
      tauto

theorem covers_sequence {steps : List Op} (h : ∀ op ∈ steps, op.Covers) :
    (sequence steps).Covers :=
  fun _ _ _ _ hs hi => covers_steps h hs (hi.only_mono fun _ => .inr)

theorem covers (h : op.overt = true) : op.Covers := by
  -- `D` is what the rows of the input bind. Parts that are run over single rows get it through the
  -- row, and sides that are run over the root get nothing.
  induction op using operands_induction with
  | step op ih =>
    have ih (sub : Op) (hs : sub ∈ op.operands) : sub.Covers :=
      ih sub hs (everywhere_of_mem_operands h hs)
    cases op with
    | join l r => exact covers_join (ih l (by simp [operands])) (ih r (by simp [operands]))
    | leftJoin l r exprs =>
      exact covers_leftJoin (ih l (by simp [operands])) (ih r (by simp [operands])) exprs
    | union l r =>
      exact covers_union fun op ho => ih op (List.mem_cons_of_mem l (List.mem_cons_of_mem r ho))
    | diff l r => exact covers_diff (ih l (by simp [operands])) (ih r (by simp [operands]))
    | filter exprs sub => exact covers_filter (ih sub (by simp [operands])) exprs
    | graph name sub => exact covers_graph (ih sub (by simp [operands])) name
    | service endpoint sub silent =>
      exact covers_service (ih sub (by simp [operands])) endpoint silent
    | sequence steps => exact covers_sequence ih
    | bgp p =>
      rintro ctx i _ D ⟨⟩ hi
      exact (within_only_pattern p _ hi).only_mono fun v => Or.imp_left Scope.mem_all_ofVars.2
    | triple p =>
      rintro ctx i _ D ⟨⟩ hi
      exact (within_only_triple p _ hi).only_mono fun v => Or.imp_left Scope.mem_all_ofVars.2
    | quad q =>
      rintro ctx i _ D ⟨⟩ hi
      refine (within_only_pattern _ _ hi).only_mono fun v => Or.imp_left fun hv => ?_
      exact Scope.mem_all_ofVars.2 (List.mem_append_left _ hv)
    | path p =>
      rintro ctx i _ D ⟨⟩ hi
      exact (within_only_path p _ hi).only_mono fun v => Or.imp_left Scope.mem_all_ofVars.2
    | table t =>
      rintro ctx i _ D ⟨⟩ hi
      have ht := within_only_table (everywhere_self h) ctx hi
      exact ht.only_mono fun v => Or.imp_left Scope.mem_all_ofVars.2
    | marker name =>
      rintro ctx i _ D ⟨⟩ hi
      exact hi.only_mono fun _ => .inr
    | null =>
      rintro ctx i _ D ⟨⟩ -
      exact within_nil _
    | conditional l r => rintro ctx i s D ⟨⟩
    | datasetNames g => rintro ctx i s D ⟨⟩
    | procedure name args sub => cases everywhere_self h
    | propFunc property subject object sub => cases everywhere_self h
    | ext e => cases everywhere_self h
    | label name sub =>
      intro ctx i s D hs hi
      cases hs with
      | label name hs => exact ih sub (by simp [operands]) hs hi
    | list sub =>
      intro ctx i s D hs hi
      cases hs with
      | list hs => exact ih sub (by simp [operands]) hs hi
    | project vars sub =>
      intro ctx i s D hs hi
      cases hs with
      | project vars hs =>
        refine within_project (ih sub (by simp [operands]) hs hi) fun b hb v hv => ?_
        obtain ⟨hvars, hv⟩ := (contains_project b vars v).1 hv
        exact (hb v hv).imp_left fun hs => Scope.mem_all_project.2 ⟨hvars, hs⟩
    | order keys sub =>
      intro ctx i s D hs hi
      cases hs with
      | order keys hs =>
        refine within_gather (ih sub (by simp [operands]) hs hi) fun l hl c hc => ?_
        exact hl c (Move.mem_of_mem_sort hc)
    | slice offset length sub =>
      intro ctx i s D hs hi
      cases hs with
      | slice offset length hs => exact within_slice (ih sub (by simp [operands]) hs hi) _ _
    | distinct sub =>
      intro ctx i s D hs hi
      cases hs with
      | distinct hs => exact within_sifted rfl (ih sub (by simp [operands]) hs hi)
    | reduced sub =>
      intro ctx i s D hs hi
      cases hs with
      | reduced hs => exact within_sifted rfl (ih sub (by simp [operands]) hs hi)
    | group vars aggs sub =>
      intro ctx i s D hs hi
      cases hs with
      | group vars aggs hs =>
        have hsub := ih sub (by simp [operands]) hs hi
        refine (within_only_group vars aggs ctx hsub).only_mono fun v hv => ?_
        exact .inl (Scope.mem_all_ofVars.2 hv)
    | assign assignments sub =>
      intro ctx i s D hs hi
      cases hs with
      | assign assignments hs =>
        refine within_assign (ih sub (by simp [operands]) hs hi) fun b hb c hc v hv => ?_
        rcases RowRule.contains_of_extend hc hv with hv | hv
        · exact (hb v hv).imp_left fun hs => Scope.mem_all_fixing.2 (.inr hs)
        · exact .inl (Scope.mem_all_fixing.2 (.inl hv))

end Op

/-- Whatever a stage shows of an operator binds only variables of the scope of the operator and
variables that some row of the input binds. -/
theorem Context.mem_scope_of_yields {ctx : Context} {op : Op} {input s : Stage} {c : Binding}
    (h : op.overt = true) (hs : (compile ctx op input).result = .ok s) (hc : s.Yields c) :
    ∀ v ∈ c.dom, v ∈ op.scope.all ∨ ∃ b, input.Yields b ∧ v ∈ b.dom := by
  have hi : input.Within (Binding.Only fun v => ∃ b, input.Yields b ∧ v ∈ b.dom) :=
    fun b hb v hv => ⟨b, hb, Binding.mem_dom.2 hv⟩
  intro v hv
  exact Op.covers h (Op.builds_of_compile hs) hi c hc v (Binding.mem_dom.1 hv)

/-- The name of the graph is in the scope; the other variable comes from the input, behind a
failure. -/
theorem Context.mem_scope_of_yields_graph :
    let ctx := ofDataset (({} : Dataset).addNamedTriple (.iri "g") ⟨.iri "a", .iri "p", .iri "b"⟩)
    let part : Op := .table (.ofRows [.single ⟨"y"⟩ (.iri "d")])
    let op : Op := .graph (.var ⟨"g"⟩) part
    let b : Binding := .single ⟨"x"⟩ (.iri "a")
    let input : Stage := .source [.error (.invalid "broken"), .ok b]
    let s : Stage := .each (.graph (.var ⟨"g"⟩) part ctx) input
    let c : Binding := (b.insert ⟨"g"⟩ (.iri "g")).insert ⟨"y"⟩ (.iri "d")
    op.overt = true ∧ (compile ctx op input).result = .ok s ∧ s.Yields c ∧
      c.dom.toList = [⟨"g"⟩, ⟨"x"⟩, ⟨"y"⟩] ∧ op.scope.all.toList = [⟨"g"⟩, ⟨"y"⟩] ∧
      ∀ v ∈ c.dom, v ∈ op.scope.all ∨ ∃ b, input.Yields b ∧ v ∈ b.dom := by
  intro ctx part op b input s c
  have hs : (compile ctx op input).result = .ok s := rfl
  have hc : s.Yields c := by
    -- The failure, the row, the graph, the row of the table, and then their merge.
    apply Stage.Yields.later false ⟨rfl, rfl⟩
    apply Stage.Yields.later false ⟨rfl, rfl⟩
    apply Stage.Yields.later false ⟨rfl, rfl⟩
    apply Stage.Yields.later false ⟨rfl, rfl⟩
    apply Stage.Yields.later false ⟨rfl, rfl⟩
    apply Stage.Yields.later false ⟨rfl, rfl⟩
    exact Stage.Yields.here false ⟨rfl, rfl⟩
  exact ⟨rfl, hs, hc, rfl, rfl, mem_scope_of_yields rfl hs hc⟩

end SparqlAlgebra
