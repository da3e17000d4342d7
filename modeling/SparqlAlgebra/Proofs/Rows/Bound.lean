import SparqlAlgebra.Proofs.Op.Additive
import SparqlAlgebra.Proofs.Rows.Extent
import SparqlAlgebra.Proofs.Rows.Groups

/-!
Which variables a row binds after each of the steps that rows go through: those that it came with,
and those that the step is about.
-/

namespace SparqlAlgebra

variable {b c : Binding} {v : Var}

theorem TriplePattern.contains_of_mem_extend {p : TriplePattern} {g : Graph}
    (h : c ∈ p.extend g b) (v : Var) : c.contains v = true ↔ b.contains v = true ∨ v ∈ p.vars := by
  rw [TriplePattern.extend_eq] at h
  obtain ⟨t, -, ht⟩ := List.mem_filterMap.1 h
  exact (p.merges_bind t).contains_of ht v

theorem PathPattern.contains_of_mem_extend {p : PathPattern} {g : Graph} (h : c ∈ p.extend g b)
    (v : Var) : c.contains v = true ↔ b.contains v = true ∨ v ∈ p.vars := by
  rw [PathPattern.extend_eq] at h
  obtain ⟨e, -, he⟩ := List.mem_filterMap.1 h
  exact (p.merges_bind e).contains_of he v

/-- A paired row is the left row, or the left row merged with a right row. -/
theorem Pairing.contains_of_mem_combine {rule : Pairing} {fs : Functions} {r : List Binding}
    (h : c ∈ rule.combine fs b r) (hv : c.contains v = true) :
    b.contains v = true ∨ ∃ d ∈ r, d.contains v = true := by
  have hmerge (hc : c ∈ r.filterMap b.merge) :
      b.contains v = true ∨ ∃ d ∈ r, d.contains v = true := by
    obtain ⟨d, hd, hm⟩ := List.mem_filterMap.1 hc
    rw [Binding.contains_merge hm, Bool.or_eq_true] at hv
    exact hv.imp_right fun hv => ⟨d, hd, hv⟩
  have hsame (hc : c ∈ [b]) : b.contains v = true ∨ ∃ d ∈ r, d.contains v = true :=
    .inl (List.mem_singleton.1 hc ▸ hv)
  cases rule with
  | inner => exact hmerge h
  | optional exprs =>
    unfold combine at h
    dsimp only at h
    split at h
    · exact hsame h
    · exact hmerge (List.mem_of_mem_filter h)
  | minus =>
    unfold combine at h
    dsimp only at h
    split at h
    · cases h
    · exact hsame h

theorem RowRule.contains_of_extend {fs : Functions} {assignments : List (Var × Expr)}
    (h : RowRule.extend fs assignments b = some c) (hv : c.contains v = true) :
    b.contains v = true ∨ v ∈ assignments.map (·.1) := by
  rw [RowRule.extend_eq_foldlM] at h
  obtain ⟨t, ht⟩ := Option.isSome_iff_exists.1 hv
  refine ((Extent.get?_foldlM_assignOne h v t).2 ht).imp_left fun hb => ?_
  exact Option.isSome_iff_exists.2 ⟨t, hb⟩

namespace Rows

theorem get?_foldl_zip (b m : Binding) (vars : List Var) (v : Var) :
    ((vars.zip (groupKey vars b)).foldl (fun m (v, t) => t.elim m (m.insert v)) m).get? v =
      if v ∈ vars then (b.get? v).or (m.get? v) else m.get? v := by
  induction vars generalizing m with
  | nil => rfl
  | cons w vars ih =>
    have hstep : (((w :: vars).zip (groupKey (w :: vars) b)).foldl
          (fun m (v, t) => t.elim m (m.insert v)) m).get? v =
        if v ∈ vars then (b.get? v).or (((b.get? w).elim m (m.insert w)).get? v)
        else ((b.get? w).elim m (m.insert w)).get? v := ih _
    rw [hstep]
    by_cases hv : v = w
    · subst hv
      cases hb : b.get? v <;> simp [SortedMap.get?_insert]
    · have hinsert : ((b.get? w).elim m (m.insert w)).get? v = m.get? v := by
        cases b.get? w <;> simp [SortedMap.get?_insert, hv]
      simp [hinsert, hv]

/-- The value of a variable from the aggregates: that of the last one for the variable that has a
value. -/
def aggregated (fs : Functions) (aggs : List Aggregation) (rows : List Binding) (v : Var) :
    Option Term :=
  (aggs.filterMap fun a => if a.var = v then a.aggregator.eval fs rows else none).getLast?

theorem get?_foldl_aggregated (fs : Functions) (aggs : List Aggregation) (rows : List Binding)
    (m : Binding) (v : Var) :
    (aggs.foldl (fun b a => (a.aggregator.eval fs rows).elim b (b.insert a.var)) m).get? v =
      (aggregated fs aggs rows v).or (m.get? v) := by
  induction aggs generalizing m with
  | nil => rfl
  | cons a aggs ih =>
    rw [List.foldl_cons, ih, aggregated, aggregated, List.filterMap_cons]
    cases ha : a.aggregator.eval fs rows with
    | none => simp
    | some t =>
      by_cases hv : a.var = v
      · subst hv
        cases hrest : (aggs.filterMap fun c =>
          if c.var = a.var then c.aggregator.eval fs rows else none).getLast? <;>
          simp [List.getLast?_cons, hrest]
      · simp [hv, Ne.symm hv]

theorem get?_foldl_aggregates (fs : Functions) (aggs : List Aggregation) (rows : List Binding)
    (m : Binding) {v : Var} (h : ∀ a ∈ aggs, a.var ≠ v) :
    (aggs.foldl (fun b a => (a.aggregator.eval fs rows).elim b (b.insert a.var)) m).get? v =
      m.get? v := by
  have hnone : aggregated fs aggs rows v = none := by
    have hl : (aggs.filterMap fun a => if a.var = v then a.aggregator.eval fs rows else none) = [] :=
      List.filterMap_eq_nil_iff.2 fun a ha => if_neg (h a ha)
    rw [aggregated, hl, List.getLast?_nil]
  rw [get?_foldl_aggregated, hnone, Option.none_or]

theorem get?_foldl_key {l : List (Var × Option Term)} (m : Binding) (h : ∀ p ∈ l, p.1 ≠ v) :
    (l.foldl (fun m (v, t) => t.elim m (m.insert v)) m).get? v = m.get? v := by
  induction l generalizing m with
  | nil => rfl
  | cons p l ih =>
    obtain ⟨hp, hl⟩ := List.forall_mem_cons.1 h
    obtain ⟨w, _ | t⟩ := p
    · exact ih m hl
    · exact (ih _ hl).trans ((SortedMap.get?_insert ..).trans (if_neg (Ne.symm hp)))

theorem isSome_aggregated {fs : Functions} {aggs : List Aggregation} {rows : List Binding} :
    (aggregated fs aggs rows v).isSome = true ↔
      ∃ a ∈ aggs, a.var = v ∧ ∃ t, a.aggregator.eval fs rows = some t := by
  have hsome (a : Aggregation) (t : Term) :
      (if a.var = v then a.aggregator.eval fs rows else none) = some t ↔
        a.var = v ∧ a.aggregator.eval fs rows = some t := by
    split <;> simp [*]
  rw [aggregated, List.getLast?_isSome]
  constructor
  · intro h
    obtain ⟨t, ht⟩ := List.exists_mem_of_ne_nil _ h
    obtain ⟨a, ha, hat⟩ := List.mem_filterMap.1 ht
    exact ⟨a, ha, ((hsome a t).1 hat).1, t, ((hsome a t).1 hat).2⟩
  · rintro ⟨a, ha, hv, t, ht⟩
    exact List.ne_nil_of_mem (List.mem_filterMap.2 ⟨a, ha, (hsome a t).2 ⟨hv, ht⟩⟩)

/-- The aggregates that have a value bind their variables. -/
theorem contains_foldl_aggregates (fs : Functions) (aggs : List Aggregation) (rows : List Binding)
    (m : Binding) :
    (aggs.foldl (fun b a => (a.aggregator.eval fs rows).elim b (b.insert a.var)) m).contains v =
        true ↔
      m.contains v = true ∨ ∃ a ∈ aggs, a.var = v ∧ ∃ t, a.aggregator.eval fs rows = some t := by
  rw [SortedMap.contains, get?_foldl_aggregated, Option.isSome_or, Bool.or_eq_true,
    isSome_aggregated]
  exact or_comm

/-- A group is made of rows with its key. Only without grouping variables may it be empty. -/
theorem mem_groups {vars : List Var} {l members : List Binding} {key : List (Option Term)}
    (h : (key, members) ∈ groups vars l) :
    members.Sublist l ∧
      (vars = [] ∧ members = [] ∨ ∃ b ∈ members, key = groupKey vars b) := by
  rw [groups_eq] at h
  split at h
  · rename_i hempty
    obtain ⟨rfl, rfl⟩ := Prod.mk.inj (List.mem_singleton.1 h)
    exact ⟨List.nil_sublist l, .inl ⟨hempty.1, rfl⟩⟩
  · obtain ⟨k, hk, hkey⟩ := List.mem_map.1 h
    obtain ⟨rfl, rfl⟩ := Prod.mk.inj hkey
    obtain ⟨b, hb, rfl⟩ := mem_keys.1 hk
    exact ⟨List.filter_sublist, .inr ⟨b, List.mem_filter.2 ⟨hb, beq_self_eq_true _⟩, rfl⟩⟩

/-- The row of a group binds nothing but its key and its aggregates. -/
theorem contains_of_mem_group {fs : Functions} {vars : List Var} {aggs : List Aggregation}
    {l : List Binding} (hc : c ∈ group fs vars aggs l) (hv : c.contains v = true) :
    v ∈ vars ++ aggs.map (·.var) := by
  obtain ⟨⟨key, members⟩, -, rfl⟩ := List.mem_map.1 hc
  by_contra hnot
  rw [List.mem_append, not_or] at hnot
  obtain ⟨hvars, haggs⟩ := hnot
  have hkey : ∀ p ∈ vars.zip key, p.1 ≠ v := by
    rintro p hp rfl
    exact hvars (List.of_mem_zip hp).1
  have hagg : ∀ a ∈ aggs, a.var ≠ v := by
    rintro a ha rfl
    exact haggs (List.mem_map_of_mem ha)
  have hnone : (groupRow fs vars aggs key members).get? v = none :=
    (get?_foldl_aggregates fs aggs members _ hagg).trans (get?_foldl_key ∅ hkey)
  rw [SortedMap.contains, hnone] at hv
  cases hv

end Rows

end SparqlAlgebra
