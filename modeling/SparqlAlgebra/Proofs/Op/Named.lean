import SparqlAlgebra.Proofs.Op.Accepts

/-!
Feeding a graph clause. A row that fixes the name of the clause goes into that graph; a row that
leaves it open goes into every named graph, with the name bound.
-/

namespace SparqlAlgebra

namespace Op

variable {sub : Op} {ctx : Context} {vars : SortedSet Var} {b : Binding}

/-- What a graph clause with an open name gives a row, graph by graph. -/
theorem filterMap_bag_graph_var (d : Dataset) (fs : Functions) (v : Var) (g : Graph) :
    ((graph (.var v) sub).bag d fs g).filterMap b.merge =
      d.named.entries.flatMap fun e =>
        (b.merge (.single v e.1)).elim [] fun x => (sub.bag d fs e.2).filterMap x.merge := by
  rw [bag, Dataset.graphs, List.flatMap_map, List.filterMap_flatMap]
  refine List.flatMap_congr fun e _ => ?_
  rw [Rows.singleton_join, Rows.filterMap_merge_filterMap]

theorem filterMap_bag_graph_bound (d : Dataset) (fs : Functions) {v : Var} {t : Term}
    (hb : b.get? v = some t) (g : Graph) :
    ((graph (.var v) sub).bag d fs g).filterMap b.merge =
      (d.named.get? t).elim [] fun h => (sub.bag d fs h).filterMap b.merge := by
  rw [filterMap_bag_graph_var, ← SortedMap.flatMap_entries_ite d.named t fun h =>
    (sub.bag d fs h).filterMap b.merge]
  refine List.flatMap_congr fun e _ => ?_
  rw [Binding.merge_single, hb]
  by_cases ht : t = e.1 <;> simp [ht]

theorem filterMap_bag_graph_term (d : Dataset) (fs : Functions) (t : Term) (g : Graph) :
    ((graph (.term t) sub).bag d fs g).filterMap b.merge =
      (d.named.get? t).elim [] fun h => (sub.bag d fs h).filterMap b.merge := by
  rw [bag, Dataset.graphs]
  cases d.named.get? t with
  | none => rfl
  | some h => simp

/-- A graph clause about one graph of known name. -/
theorem expand_graph_named (h : sub.Seeds) (ha : sub.accepts ctx.config true (.upTo vars) = true)
    (hb : ∀ v, b.contains v = true → v ∈ vars) {name : Slot} {t : Term} (hn : name.resolve b = some t) :
    ∃ s, ((Expansion.graph name sub ctx).expand b).1 = .flow s ∧
      s.EmitsBag ((ctx.dataset.named.get? t).elim [] fun g =>
        (sub.bag ctx.dataset ctx.functions g).filterMap b.merge) := by
  cases hg : ctx.dataset.named.get? t with
  | none =>
    have he : Expansion.inGraphs name sub ctx b = .inl (.rows []) := by
      simp [Expansion.inGraphs, hn, hg]
    exact ⟨.rows [], by simp [Expansion.expand, he], Stage.emitsBag_rows []⟩
  | some g =>
    have he : Expansion.inGraphs name sub ctx b = .inr g := by
      simp [Expansion.inGraphs, hn, hg]
    obtain ⟨s, hs, hbag⟩ := h.alone { ctx with graph := g } ha (Extent.bounds_upTo_singleton hb)
    exact ⟨s, by simp [Expansion.expand, he, Expansion.flowing, hs], hbag⟩

/-- A graph clause whose name is open tries every named graph. -/
theorem expand_graph_open (h : sub.Seeds) {v : Var}
    (ha : sub.accepts ctx.config true (.upTo (vars.addAll [v])) = true)
    (hb : ∀ v, b.contains v = true → v ∈ vars) (hn : b.get? v = none) :
    ∃ s, ((Expansion.graph (.var v) sub ctx).expand b).1 = .flow s ∧
      s.EmitsBag (((graph (.var v) sub).bag ctx.dataset ctx.functions ctx.graph).filterMap
        b.merge) := by
  -- Each graph is tried with the row that binds the name to it.
  have hseed (t : Term) (w : Var) (hw : (b.insert v t).contains w = true) :
      w ∈ vars.addAll [v] := by
    rw [SortedMap.contains, SortedMap.get?_insert] at hw
    refine SortedSet.mem_addAll.2 ?_
    by_cases e : w = v
    · exact .inl (List.mem_singleton.2 e)
    · rw [if_neg e] at hw
      exact .inr (hb w hw)
  have hrows : ((graph (.var v) sub).bag ctx.dataset ctx.functions ctx.graph).filterMap b.merge =
      (ctx.dataset.named.entries.map fun e =>
        ({ op := sub, seed := b.insert v e.1, ctx := { ctx with graph := e.2 } } : Seeded)).flatMap
      fun p => (sub.bag ctx.dataset ctx.functions p.ctx.graph).filterMap p.seed.merge := by
    rw [filterMap_bag_graph_var, List.flatMap_map]
    refine List.flatMap_congr fun e _ => ?_
    rw [Binding.merge_single, hn]
    rfl
  have he : ((Expansion.graph (.var v) sub ctx).expand b).1 =
      .flow (.chain (ctx.dataset.named.entries.map fun e =>
        { op := sub, seed := b.insert v e.1, ctx := { ctx with graph := e.2 } })) := by
    have hv : (Slot.var v).resolve b = none := hn
    simp [Expansion.expand, Expansion.inGraphs, hv]
  rw [hrows]
  refine ⟨_, he, Stage.emitsBag_chain fun p hp => ?_⟩
  obtain ⟨e, -, rfl⟩ := List.mem_map.1 hp
  exact h.alone { ctx with graph := e.2 } ha (Extent.bounds_upTo_singleton (hseed e.1))

theorem seeds_graph (h : sub.Seeds) (name : Slot) : (graph name sub).Seeds := by
  intro ctx far fed input k ha hf _ hi
  rw [compile_graph]
  refine (Compiled.givesBag_ok (Stage.emitsBag_each (fun _ => rfl) hi fun b hb => ?_)).counted
  have hb := hf.may b hb
  cases name with
  | term t =>
    rw [filterMap_bag_graph_term]
    exact expand_graph_named h ha hb rfl
  | var v =>
    cases hn : b.get? v with
    | none => exact expand_graph_open h ha hb hn
    | some t =>
      have hmore (w : Var) (hw : b.contains w = true) : w ∈ fed.may.addAll [v] :=
        SortedSet.mem_addAll.2 (.inr (hb w hw))
      rw [filterMap_bag_graph_bound _ _ hn]
      exact expand_graph_named h ha hmore hn

end Op

end SparqlAlgebra
