import SparqlAlgebra.Proofs.Op.Within
import SparqlAlgebra.Proofs.Rows.Bound

/-!
Operators that keep what the rows of their input bind. A graph clause and a service seed their part
with a row and pass on what the part makes of it, so the row survives as far as the part retains its
variables. Projections and groupings retain only the variables that they list.
-/

namespace SparqlAlgebra

open Binding

/-- The row binds the variable to the term. -/
def Binding.Binds (v : Var) (t : Term) (b : Binding) : Prop := b.get? v = some t

theorem Binding.upward_binds (v : Var) (t : Term) : Upward (Binds v t) :=
  fun _ _ hb h => h v t hb

namespace Rows

/-- Rows that agree on a grouping variable give it to all groups, unless an aggregate replaces
it. -/
theorem binds_of_mem_group {fs : Functions} {vars : List Var} {aggs : List Aggregation} {v : Var}
    {t : Term} (hv : v ∈ vars) (ha : ∀ a ∈ aggs, a.var ≠ v) {l : List Binding}
    (hl : ∀ b ∈ l, Binds v t b) : ∀ c ∈ group fs vars aggs l, Binds v t c := by
  intro c hc
  obtain ⟨⟨key, members⟩, hmem, rfl⟩ := List.mem_map.1 hc
  obtain ⟨hsub, ⟨rfl, -⟩ | ⟨b, hb, rfl⟩⟩ := mem_groups hmem
  · cases hv
  · have hbv : b.get? v = some t := hl b (hsub.subset hb)
    show (groupRow fs vars aggs (groupKey vars b) members).get? v = some t
    rw [groupRow, get?_foldl_aggregates fs aggs members _ ha, get?_foldl_zip, if_pos hv, hbv]
    rfl

end Rows

namespace Op

mutual

/-- Whether what fed rows bind a variable to is still bound in the rows that come out. -/
def retains (c : Config) (v : Var) : Op → Bool
  | join l r =>
    retains c v l && (!(c.streamedJoins && joinStreams l r) || retains c v r)
  | leftJoin l r _ =>
    retains c v l && (!(c.streamedLeftJoins && leftJoinStreams l r) || retains c v r)
  | union l r => retains c v l && retains c v r
  | diff l _ => retains c v l
  | filter _ sub => retains c v sub
  | graph _ sub => retains c v sub
  | service _ sub _ => retains c v sub
  | procedure .. => false
  | propFunc .. => false
  | sequence steps => retainsSteps c v steps
  | label _ sub => retains c v sub
  | list sub => retains c v sub
  | project vars sub => vars.contains v && retains c v sub
  | order _ sub => retains c v sub
  | slice _ _ sub => retains c v sub
  | distinct sub => retains c v sub
  | reduced sub => retains c v sub
  | group vars aggs sub => vars.contains v && aggs.all (·.var != v) && retains c v sub
  | assign _ sub => retains c v sub
  | ext _ => false
  | _ => true

def retainsSteps (c : Config) (v : Var) : List Op → Bool
  | [] => true
  | op :: rest => retains c v op && retainsSteps c v rest

end

variable {c : Config} {v : Var} {t : Term}

theorem retainsSteps_eq (c : Config) (v : Var) (steps : List Op) :
    retainsSteps c v steps = steps.all (retains c v) :=
  steps_eq_all rfl (fun _ _ => rfl) steps

theorem retains_of_mem_branches {op : Op} (h : op.retains c v = true) :
    ∀ b ∈ op.branches, b.retains c v = true :=
  forall_mem_branches (fun _ _ h => Bool.and_eq_true_iff.1 h) h

theorem retains_filtered {op : Op} (h : op.retains c v = true) (exprs : Option (List Expr)) :
    (op.filtered exprs).retains c v = true := by
  rcases exprs with _ | _ | ⟨e, es⟩
  · exact h
  · exact h
  · exact h

open Stage

/-- Fed with rows that bind the variable to the term, the operator shows no others, if it retains
the variable. -/
def Guards (v : Var) (t : Term) (op : Op) : Prop :=
  ∀ ⦃ctx : Context⦄ ⦃i s : Stage⦄, Builds ctx op i s → op.retains ctx.config v = true →
    i.Within (Binds v t) → s.Within (Binds v t)

theorem within_pattern (p : BasicPattern) (g : Graph) {s : Stage} (hs : s.Within (Binds v t)) :
    (p.stage g s).Within (Binds v t) := by
  induction p generalizing s with
  | nil => exact hs
  | cons q p ih =>
    exact ih (within_triple hs fun b hb c hc =>
      upward_binds v t hb (TriplePattern.extends_of_mem_extend hc))

theorem within_table (table : Table) (ctx : Context) {i : Stage} (hi : i.Within (Binds v t)) :
    (table.stage ctx i).Within (Binds v t) := by
  rcases table.stage_cases ctx i with ⟨-, ht⟩ | ⟨rfl, ht⟩ | ht <;> rw [ht]
  · exact hi
  · -- The row of the root binds nothing.
    cases (SortedMap.get?_empty v).symm.trans (hi ∅ (yields_root_iff.2 rfl))
  · exact within_paired (upward_binds v t) .inner ctx _ hi

/-- An operator that is compiled over a single row. -/
theorem Guards.seeded {op : Op} (h : op.Guards v t) {ctx : Context} {b : Binding} {u : Stage}
    (hu : (compile ctx op (rows [b])).result = .ok u) (hr : op.retains ctx.config v = true)
    (hb : Binds v t b) : u.Within (Binds v t) :=
  h (builds_of_compile hu) hr (within_single hb)

theorem guards_union {l r : Op} (h : ∀ op ∈ l.branches ++ r.branches, op.Guards v t) :
    (union l r).Guards v t := by
  intro ctx i s hs hr hi
  cases hs
  obtain ⟨hl, hr⟩ := Bool.and_eq_true_iff.1 hr
  refine within_union hi fun op ho b u hb hu => ?_
  have hkeeps : op.retains ctx.config v = true :=
    (List.mem_append.1 ho).elim (retains_of_mem_branches hl op) (retains_of_mem_branches hr op)
  exact h op ho hu hkeeps (within_single hb)

theorem guards_graph {sub : Op} (h : sub.Guards v t) (name : Slot) :
    (graph name sub).Guards v t := by
  intro ctx i s hs hr hi
  cases hs
  refine within_graph hi fun b c _ g u hb hc hu => ?_
  exact h hu hr (within_single (upward_binds v t hb hc.kept))

theorem within_service {sub : Op} (h : sub.Guards v t) (endpoint : Slot) (silent : Bool)
    {ctx : Context} (hr : sub.retains ctx.config v = true) {i : Stage} (hi : i.Within (Binds v t)) :
    (each (.service endpoint sub silent ctx) i).Within (Binds v t) :=
  Stage.within_service hi (fun _ _ _ hb _ hu => h hu hr (within_single hb)) fun _ _ hb => hb

theorem guards_sequence {steps : List Op} (h : ∀ op ∈ steps, op.Guards v t) :
    (sequence steps).Guards v t := by
  intro ctx i s hs hr hi
  have hall : steps.all (retains ctx.config v) = true := (retainsSteps_eq _ v steps).symm.trans hr
  induction steps generalizing i with
  | nil =>
    cases hs
    exact hi
  | cons op rest ih =>
    cases hs with
    | steps hop hrest =>
      obtain ⟨ho, hall⟩ := Bool.and_eq_true_iff.1 hall
      have hmid := h op List.mem_cons_self hop ho hi
      exact ih (fun o hm => h o (List.mem_cons_of_mem op hm)) hrest
        ((retainsSteps_eq _ v rest).trans hall) hmid hall

theorem guards_join {l r : Op} (hl : l.Guards v t) (hr : r.Guards v t) :
    (join l r).Guards v t := by
  intro ctx i s hs h hi
  obtain ⟨hkl, hkr⟩ := Bool.and_eq_true_iff.1 h
  cases hs with
  | joinFed hfed hls hrs =>
    have hkr : r.retains ctx.config v = true := by simpa [hfed] using hkr
    exact hr hrs hkr (hl hls hkl hi)
  | joinPaired _ hls _ => exact within_paired (upward_binds v t) .inner ctx _ (hl hls hkl hi)

theorem guards_diff {l : Op} (hl : l.Guards v t) (r : Op) : (diff l r).Guards v t := by
  intro ctx i s hs h hi
  cases hs with
  | diff hls _ => exact within_paired (upward_binds v t) .minus ctx _ (hl hls h hi)

theorem guards_filter (exprs : List Expr) {sub : Op} (h : sub.Guards v t) :
    (filter exprs sub).Guards v t := by
  intro ctx i s hs hr hi
  cases hs with
  | filter exprs hs => exact within_filters exprs (h hs hr hi)

theorem Guards.filtered {op : Op} (h : op.Guards v t) (exprs : Option (List Expr)) :
    (op.filtered exprs).Guards v t := by
  rcases exprs with _ | _ | ⟨e, es⟩
  · exact h
  · exact h
  · exact guards_filter (e :: es) h

theorem guards_leftJoin {l r : Op} (hl : l.Guards v t) (hr : r.Guards v t)
    (exprs : Option (List Expr)) : (leftJoin l r exprs).Guards v t := by
  intro ctx i s hs h hi
  obtain ⟨hkl, hkr⟩ := Bool.and_eq_true_iff.1 h
  cases hs with
  | leftJoinFed hfed hls =>
    have hkr : r.retains ctx.config v = true := by simpa [hfed] using hkr
    refine within_optional (hl hls hkl hi) (fun _ hb => hb) fun b u hb hu => ?_
    exact (hr.filtered exprs).seeded hu (retains_filtered hkr exprs) hb
  | leftJoinPaired _ hls _ => exact within_paired (upward_binds v t) _ ctx _ (hl hls hkl hi)

theorem guards (v : Var) (t : Term) (op : Op) : op.Guards v t := by
  induction op using operands_induction with
  | step op ih =>
    cases op with
    | join l r => exact guards_join (ih l (by simp [operands])) (ih r (by simp [operands]))
    | leftJoin l r exprs =>
      exact guards_leftJoin (ih l (by simp [operands])) (ih r (by simp [operands])) exprs
    | union l r =>
      exact guards_union fun op ho => ih op (List.mem_cons_of_mem l (List.mem_cons_of_mem r ho))
    | filter exprs sub => exact guards_filter exprs (ih sub (by simp [operands]))
    | graph name sub => exact guards_graph (ih sub (by simp [operands])) name
    | sequence steps => exact guards_sequence ih
    | service endpoint sub silent =>
      rintro ctx i _ ⟨⟩ hr hi
      exact within_service (ih sub (by simp [operands])) endpoint silent hr hi
    | diff l r => exact guards_diff (ih l (by simp [operands])) r
    | bgp p =>
      rintro ctx i _ ⟨⟩ - hi
      exact within_pattern p _ hi
    | triple p =>
      rintro ctx i _ ⟨⟩ - hi
      exact within_triple hi fun b hb c hc =>
        upward_binds v t hb (TriplePattern.extends_of_mem_extend hc)
    | quad q =>
      rintro ctx i _ ⟨⟩ - hi
      exact within_pattern _ _ hi
    | path p =>
      rintro ctx i _ ⟨⟩ - hi
      exact within_path hi fun b hb c hc =>
        upward_binds v t hb (PathPattern.extends_of_mem_extend hc)
    | table table =>
      rintro ctx i _ ⟨⟩ - hi
      exact within_table table ctx hi
    | marker name =>
      rintro ctx i _ ⟨⟩ - hi
      exact hi
    | null =>
      rintro ctx i _ ⟨⟩ - -
      exact within_nil _
    | conditional l r => rintro ctx i s ⟨⟩
    | datasetNames g => rintro ctx i s ⟨⟩
    | procedure name args sub => rintro ctx i s - ⟨⟩
    | propFunc property subject object sub => rintro ctx i s - ⟨⟩
    | ext e => rintro ctx i s - ⟨⟩
    | label name sub =>
      intro ctx i s hs hr hi
      cases hs with
      | label name hs =>
        exact ih sub (by simp [operands]) hs hr hi
    | list sub =>
      intro ctx i s hs hr hi
      cases hs with
      | list hs =>
        exact ih sub (by simp [operands]) hs hr hi
    | project vars sub =>
      intro ctx i s hs hr hi
      cases hs with
      | project vars hs =>
        obtain ⟨hv, hr⟩ := Bool.and_eq_true_iff.1 hr
        refine within_project (ih sub (by simp [operands]) hs hr hi) fun b hb => ?_
        exact (get?_project b vars v).trans ((if_pos (List.contains_iff_mem.1 hv)).trans hb)
    | order keys sub =>
      intro ctx i s hs hr hi
      cases hs with
      | order keys hs =>
        refine within_gather (ih sub (by simp [operands]) hs hr hi) fun l hl c hc => ?_
        exact hl c (Move.mem_of_mem_sort hc)
    | slice offset length sub =>
      intro ctx i s hs hr hi
      cases hs with
      | slice offset length hs =>
        exact within_slice (ih sub (by simp [operands]) hs hr hi) _ _
    | distinct sub =>
      intro ctx i s hs hr hi
      cases hs with
      | distinct hs => exact within_sifted rfl (ih sub (by simp [operands]) hs hr hi)
    | reduced sub =>
      intro ctx i s hs hr hi
      cases hs with
      | reduced hs => exact within_sifted rfl (ih sub (by simp [operands]) hs hr hi)
    | group vars aggs sub =>
      intro ctx i s hs hr hi
      cases hs with
      | group vars aggs hs =>
        obtain ⟨hvars, hr⟩ := Bool.and_eq_true_iff.1 hr
        obtain ⟨hv, ha⟩ := Bool.and_eq_true_iff.1 hvars
        have ha : ∀ a ∈ aggs, a.var ≠ v := fun a hm => bne_iff_ne.1 (List.all_eq_true.1 ha a hm)
        exact within_gather (ih sub (by simp [operands]) hs hr hi) fun l hl =>
          Rows.binds_of_mem_group (List.contains_iff_mem.1 hv) ha hl
    | assign assignments sub =>
      intro ctx i s hs hr hi
      cases hs with
      | assign assignments hs =>
        exact within_assign (ih sub (by simp [operands]) hs hr hi) fun b hb c hc =>
          upward_binds v t hb (RowRule.extends_of_extend hc)

/-- Over a single row, an operator that retains all that the row binds shows only extensions of
it. -/
theorem within_extends {op : Op} {ctx : Context} {b : Binding} {s : Stage}
    (hb : ∀ v, b.contains v = true → op.retains ctx.config v = true)
    (hs : (compile ctx op (rows [b])).result = .ok s) : s.Within (·.Extends b) := by
  intro c hc v t ht
  have hv : op.retains ctx.config v = true := hb v (by simp [SortedMap.contains, ht])
  exact (op.guards v t).seeded hs hv ht c hc

/-- Each row of a graph clause whose name is left open comes from one of the graphs, over the row
that binds the name to it. -/
theorem within_open {op : Op} {ctx : Context} {b : Binding} {v : Var} (hv : b.get? v = none) :
    (each (.graph (.var v) op ctx) (rows [b])).Within fun c =>
      ∃ n g s, ctx.dataset.named.get? n = some g ∧
        (compile { ctx with graph := g } op (rows [b.insert v n])).result = .ok s ∧ s.Yields c := by
  have hexpand := Expansion.expand_graph_inl (Expansion.inGraphs_open hv op ctx)
  refine within_each (fun _ => rfl) (within_single (P := (· = b)) rfl) ?_ ?_
  · rintro _ u rfl hu
    rw [hexpand] at hu
    obtain rfl := Expansion.reaches_flow.1 hu
    refine within_chain fun p hp u hu c hc => ?_
    obtain ⟨e, he, rfl⟩ := List.mem_map.1 hp
    exact ⟨e.1, e.2, u, (SortedMap.get?_eq_some_iff _).2 he, hu, hc⟩
  · rintro _ ctx' u rfl hu
    rw [hexpand] at hu
    cases hu

end Op

/-- A graph clause and a service whose part retains all that a row binds show only extensions of the
row. A name that the row leaves open is bound to the graph that an extension comes from, if the part
retains it too. -/
theorem Context.extends_of_retains {op : Op} {ctx : Context} {b : Binding}
    (hb : ∀ v, b.contains v = true → op.retains ctx.config v = true) :
    (∀ name c, (Stage.each (.graph name op ctx) (.rows [b])).Yields c → c.Extends b ∧
      ∀ v, name = .var v → b.get? v = none → op.retains ctx.config v = true →
        ∃ n g s, c.get? v = some n ∧ ctx.dataset.named.get? n = some g ∧
          (compile { ctx with graph := g } op (.rows [b.insert v n])).result = .ok s ∧
          s.Yields c) ∧
    (∀ d s c, (compile (ctx.remote d) op (.rows [b])).result = .ok s → s.Yields c →
      b.compatible c = true ∧ c.Extends b) ∧
    ∀ endpoint silent c, (Stage.each (.service endpoint op silent ctx) (.rows [b])).Yields c →
      b.compatible c = true ∧ c.Extends b := by
  have hkeeps (v : Var) (t : Term) (ht : b.get? v = some t) : op.retains ctx.config v = true :=
    hb v (by simp [SortedMap.contains, ht])
  refine ⟨fun name c hc => ⟨fun v t ht => ?_, ?_⟩, fun d s c hs hc => ?_,
    fun endpoint silent c hc => ?_⟩
  · have hgraph := Op.guards_graph (op.guards v t) name
    exact hgraph (.graph name op _) (hkeeps v t ht) (Stage.within_single ht) c hc
  · rintro v rfl hv hr
    obtain ⟨n, g, s, hg, hs, hsc⟩ := Op.within_open hv c hc
    have hn : (b.insert v n).get? v = some n := by simp [SortedMap.get?_insert]
    exact ⟨n, g, s, (op.guards v n).seeded hs hr hn c hsc, hg, hs, hsc⟩
  · have hremote (v : Var) (hv : b.contains v = true) :
        op.retains (ctx.remote d).config v = true := hb v hv
    have hext : c.Extends b := Op.within_extends hremote hs c hc
    exact ⟨hext.compatible, hext⟩
  · have hext : c.Extends b := fun v t ht =>
      Op.within_service (op.guards v t) endpoint silent (hkeeps v t ht)
        (Stage.within_single ht) c hc
    exact ⟨hext.compatible, hext⟩

theorem Context.extends_of_retains_project :
    let ctx := ofDataset (({} : Dataset).addNamedTriple (.iri "g") ⟨.iri "a", .iri "p", .iri "b"⟩)
    let part : Op := .table (.ofRows [.single ⟨"y"⟩ (.iri "2")])
    let op : Op := .project [⟨"g"⟩, ⟨"y"⟩, ⟨"x"⟩] part
    let b : Binding := .single ⟨"x"⟩ (.iri "1")
    let s : Stage := .each (.graph (.var ⟨"g"⟩) op ctx) (.rows [b])
    let c : Binding := (b.insert ⟨"g"⟩ (.iri "g")).insert ⟨"y"⟩ (.iri "2")
    (∀ v, b.contains v = true → op.retains ctx.config v = true) ∧ s.Yields c ∧ c.Extends b ∧
      ∃ n g s, c.get? ⟨"g"⟩ = some n ∧ ctx.dataset.named.get? n = some g ∧
        (compile { ctx with graph := g } op (.rows [b.insert ⟨"g"⟩ n])).result = .ok s ∧
        s.Yields c := by
  intro ctx part op b s c
  have hb (v : Var) (hv : b.contains v = true) : op.retains ctx.config v = true := by
    have hx : v = ⟨"x"⟩ := by
      by_contra hne
      simp [b, SortedMap.contains, Binding.get?_single, hne] at hv
    subst hx
    rfl
  have hc : s.Yields c := by
    apply Stage.Yields.later false ⟨rfl, rfl⟩
    apply Stage.Yields.later false ⟨rfl, rfl⟩
    apply Stage.Yields.later false ⟨rfl, rfl⟩
    apply Stage.Yields.later false ⟨rfl, rfl⟩
    apply Stage.Yields.later false ⟨rfl, rfl⟩
    exact Stage.Yields.here false ⟨rfl, rfl⟩
  obtain ⟨hgraph, -, -⟩ := extends_of_retains hb
  obtain ⟨hext, hname⟩ := hgraph _ c hc
  exact ⟨hb, hc, hext, hname ⟨"g"⟩ rfl rfl rfl⟩

/-- A projection of the part takes away what the row binds, and the name of the graph. -/
theorem Context.dropped_project :
    let ctx := ofDataset (({} : Dataset).addNamedTriple (.iri "g") ⟨.iri "a", .iri "p", .iri "b"⟩)
    let op : Op := .project [⟨"y"⟩] (.table (.ofRows [.single ⟨"y"⟩ (.iri "2")]))
    let b : Binding := .single ⟨"x"⟩ (.iri "1")
    let c : Binding := .single ⟨"y"⟩ (.iri "2")
    (Stage.each (.graph (.term (.iri "g")) op ctx) (.rows [b])).Yields c ∧
      (Stage.each (.graph (.var ⟨"g"⟩) op ctx) (.rows [b])).Yields c ∧
      (∃ s, (compile (ctx.remote {}) op (.rows [b])).result = .ok s ∧ s.Yields c) ∧
      ¬ c.Extends b ∧ c.get? ⟨"g"⟩ = none := by
  intro ctx op b c
  refine ⟨?_, ?_, ⟨_, rfl, ?_⟩, fun h => ?_, rfl⟩
  · apply Stage.Yields.later false ⟨rfl, rfl⟩
    apply Stage.Yields.later false ⟨rfl, rfl⟩
    apply Stage.Yields.later false ⟨rfl, rfl⟩
    apply Stage.Yields.later false ⟨rfl, rfl⟩
    exact Stage.Yields.here false ⟨rfl, rfl⟩
  · apply Stage.Yields.later false ⟨rfl, rfl⟩
    apply Stage.Yields.later false ⟨rfl, rfl⟩
    apply Stage.Yields.later false ⟨rfl, rfl⟩
    apply Stage.Yields.later false ⟨rfl, rfl⟩
    apply Stage.Yields.later false ⟨rfl, rfl⟩
    exact Stage.Yields.here false ⟨rfl, rfl⟩
  · apply Stage.Yields.later false ⟨rfl, rfl⟩
    apply Stage.Yields.later false ⟨rfl, rfl⟩
    apply Stage.Yields.later false ⟨rfl, rfl⟩
    exact Stage.Yields.here false ⟨rfl, rfl⟩
  · cases h ⟨"x"⟩ (.iri "1") rfl

end SparqlAlgebra
