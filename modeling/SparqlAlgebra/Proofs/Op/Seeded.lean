import SparqlAlgebra.Proofs.Op.Named

/-!
Every operator may be fed with the rows it accepts: one case for each kind of operator, put together
by induction.
-/

namespace SparqlAlgebra

namespace Op

variable {l r sub : Op}

theorem seeds_pattern (p : BasicPattern) {ctx : Context} {input : Stage} {k : List Binding}
    (hi : input.EmitsBag k) :
    (Compiled.ok (p.stage ctx.graph input)).counted.GivesBag
      (Rows.join k (p.extend ctx.graph [∅])) := by
  rw [← BasicPattern.extend_eq_join]
  exact (Compiled.givesBag_ok (Stage.emitsBag_pattern p ctx.graph hi)).counted

theorem seeds_triple (t : TriplePattern) : (triple t).Seeds := by
  intro ctx far fed input k _ _ _ hi
  have hs : (Stage.each (.triple t ctx.graph) input).EmitsBag (k.flatMap (t.extend ctx.graph)) :=
    Stage.emitsBag_each (fun _ => rfl) hi fun b _ => ⟨_, rfl, Stage.emitsBag_rows _⟩
  rw [t.flatMap_extend] at hs
  exact (Compiled.givesBag_ok hs).counted

theorem seeds_quad (q : QuadPattern) : (quad q).Seeds := by
  intro ctx far fed input k ha _ _ hi
  obtain ⟨g, p⟩ := q
  cases g with
  | some g => cases ha
  | none => exact seeds_pattern p hi

theorem seeds_path (p : PathPattern) : (path p).Seeds := by
  intro ctx far fed input k ha hf _ hi
  refine (Compiled.givesBag_ok (Stage.emitsBag_each (fun _ => rfl) hi fun b hb => ?_)).counted
  refine ⟨_, rfl, (Stage.emitsBag_rows _).perm ?_⟩
  have hstay : p.strays ctx.graph b = false :=
    PathPattern.strays_eq_false fun hp x hx => hf.mem_nodes_of_anchored ha hb hp hx
  exact PathPattern.extend_merge_perm hstay

theorem seeds_join (hl : l.Seeds) (hr : r.Seeds) : (join l r).Seeds := by
  intro ctx far fed input k ha hf hap hi
  obtain ⟨hal, har⟩ := Bool.and_eq_true_iff.1 ha
  rw [compile_join, bag, ← Rows.join_assoc]
  refine ((hl hal hf hap hi).andThen fun s hs => ?_).counted
  by_cases hc : (ctx.config.streamedJoins && joinStreams l r) = true
  · rw [if_pos hc] at har ⊢
    -- The right side is fed with what the left side made of the fed rows.
    refine hr har (hf.join (bounds_bag l _ _ _)) (fun hfar => ?_) hs
    obtain ⟨hk, hl⟩ := Bool.and_eq_true_iff.1 hfar
    exact (hap hk).join (apart_bag hl _ _ _)
  · rw [if_neg hc] at har ⊢
    rw [← Pairing.flatMap_combine_inner ctx.functions]
    exact (hr.root har).map fun t ht => Stage.emitsBag_pair hs ht

/-- The expressions of a streamed left join test the merged rows. -/
theorem givesBag_filtered {ctx : Context} {input : Stage} {k : List Binding}
    (h : (compile ctx sub input).GivesBag k) (exprs : Option (List Expr)) :
    (compile ctx (sub.filtered exprs) input).GivesBag
      (k.filter (Expr.allHold ctx.functions (exprs.getD []))) := by
  have hnone : k.filter (Expr.allHold ctx.functions []) = k :=
    List.filter_eq_self.2 fun _ _ => rfl
  match exprs with
  | none => exact hnone.symm ▸ h
  | some [] => exact hnone.symm ▸ h
  | some (e :: es) => exact (h.map fun s hs => Stage.emitsBag_filters ctx.functions (e :: es) hs).counted

/-- A left join pairs the rows of its left side with those of its right side, whether it streams or
not, if the right side accepts the left rows where it is fed with them. -/
theorem givesBag_leftJoin {ctx : Context} {input : Stage} {k : List Binding} {fed : Extent}
    (exprs : Option (List Expr)) (hl : (compile ctx l input).GivesBag k) (hr : r.Seeds)
    (hf : fed.Bounds ctx.graph k)
    (ha : (if ctx.config.streamedLeftJoins && leftJoinStreams l r then
      r.accepts ctx.config true fed else r.accepts ctx.config true {}) = true) :
    (compile ctx (leftJoin l r exprs) input).GivesBag
      (Rows.leftJoin ctx.functions (exprs.getD []) k
        (r.bag ctx.dataset ctx.functions ctx.graph)) := by
  rw [compile_leftJoin]
  refine (hl.andThen fun s hs => ?_).counted
  by_cases hc : (ctx.config.streamedLeftJoins && leftJoinStreams l r) = true
  · rw [if_pos hc] at ha ⊢
    -- Each left row is fed by itself into the right side and the expressions above it.
    refine Compiled.givesBag_ok (Stage.emitsBag_optional hs fun b hb => ?_)
    exact givesBag_filtered (hr.alone ctx ha (hf.singleton hb)) exprs
  · rw [if_neg hc] at ha ⊢
    rw [← Pairing.flatMap_combine_optional]
    exact (hr.root ha).map fun t ht => Stage.emitsBag_pair hs ht

theorem seeds_leftJoin (hl : l.Seeds) (hr : r.Seeds) (exprs : Option (List Expr)) :
    (leftJoin l r exprs).Seeds := by
  intro ctx far fed input k ha hf hap hi
  obtain ⟨ha, har⟩ := Bool.and_eq_true_iff.1 ha
  obtain ⟨hal, hset⟩ := Bool.and_eq_true_iff.1 ha
  have hbl := bounds_bag l ctx.dataset ctx.functions ctx.graph
  have hbr := bounds_bag r ctx.dataset ctx.functions ctx.graph
  rw [bag, ← hbl.leftJoin_join hf hbr hset]
  exact givesBag_leftJoin exprs (hl hal hf hap hi) hr (hf.join hbl) har

theorem seeds_diff (hl : l.Seeds) (hr : r.Seeds) : (diff l r).Seeds := by
  intro ctx far fed input k ha hf hap hi
  obtain ⟨ha, har⟩ := Bool.and_eq_true_iff.1 ha
  obtain ⟨hal, hset⟩ := Bool.and_eq_true_iff.1 ha
  have hbl := bounds_bag l ctx.dataset ctx.functions ctx.graph
  have hbr := bounds_bag r ctx.dataset ctx.functions ctx.graph
  rw [compile_diff, bag, ← hbl.diff_join hf hbr hset, ← Pairing.flatMap_combine_minus ctx.functions]
  refine ((hl hal hf hap hi).andThen fun s hs => ?_).counted
  exact (hr.root har).map fun t ht => Stage.emitsBag_pair hs ht

theorem seeds_filter (h : sub.Seeds) (exprs : List Expr) : (filter exprs sub).Seeds := by
  intro ctx far fed input k ha hf hap hi
  obtain ⟨ha, hset⟩ := Bool.and_eq_true_iff.1 ha
  have hb := bounds_bag sub ctx.dataset ctx.functions ctx.graph
  rw [compile_filter, bag, ← hb.filter_join hf hset]
  exact ((h ha hf hap hi).map fun s hs => Stage.emitsBag_filters ctx.functions exprs hs).counted

theorem seeds_project (h : sub.Seeds) (kept : List Var) : (project kept sub).Seeds := by
  intro ctx far fed input k ha hf hap hi
  obtain ⟨ha, hkept⟩ := Bool.and_eq_true_iff.1 ha
  have hk : ∀ i ∈ k, ∀ v, i.contains v = true → v ∈ kept := fun i hi v hiv =>
    of_decide_eq_true (List.all_eq_true.1 hkept v (SortedSet.mem_toList.2 (hf.may i hi v hiv)))
  rw [compile_project, bag, ← Rows.map_project_join hk]
  exact ((h ha hf hap hi).map fun s hs => Stage.emitsBag_project ctx.functions kept hs).counted

theorem seeds_distinct (h : sub.Seeds) : (distinct sub).Seeds := by
  intro ctx far fed input k ha hf hap hi
  obtain ⟨ha, hset⟩ := Bool.and_eq_true_iff.1 ha
  obtain ⟨hfar, ha⟩ := Bool.and_eq_true_iff.1 ha
  have hb := bounds_bag sub ctx.dataset ctx.functions ctx.graph
  rw [compile_distinct, bag]
  have hk := hap hfar
  refine (((h ha hf (fun _ => hk) hi).map fun s hs => ?_).counted)
  exact (Stage.emitsBag_distinct ctx.functions hs).perm (hb.firsts_join hf hk hset)

/-- The branches of a union join each row of the input by themselves. -/
theorem seeds_union (h : ∀ b ∈ l.branches ++ r.branches, b.Seeds) : (union l r).Seeds := by
  intro ctx far fed input k ha hf _ hi
  obtain ⟨hal, har⟩ := Bool.and_eq_true_iff.1 ha
  have hacc : ∀ b ∈ l.branches ++ r.branches, b.accepts ctx.config true fed = true := fun b hb =>
    (List.mem_append.1 hb).elim (accepts_of_mem_branches hal b) (accepts_of_mem_branches har b)
  rw [compile_union, bag, ← flatMap_bag_branches _ _ l, ← flatMap_bag_branches _ _ r,
    ← List.flatMap_append]
  refine (Compiled.givesBag_ok (Stage.emitsBag_each (fun _ => rfl) hi fun b hb => ?_)).counted
  -- For one row, every branch waits as an operator of its own.
  have hrows : ((l.branches ++ r.branches).flatMap fun op =>
        op.bag ctx.dataset ctx.functions ctx.graph).filterMap b.merge =
      ((l.branches ++ r.branches).map fun op => ({ op, seed := b, ctx } : Seeded)).flatMap fun p =>
        (p.op.bag ctx.dataset ctx.functions ctx.graph).filterMap b.merge := by
    rw [List.filterMap_flatMap, List.flatMap_map]
  rw [hrows]
  refine ⟨_, rfl, Stage.emitsBag_chain fun p hp => ?_⟩
  obtain ⟨op, hop, rfl⟩ := List.mem_map.1 hp
  have hop' : op.Seeds := h op hop
  exact hop'.alone ctx (hacc op hop) (hf.singleton hb)

theorem givesBag_steps {ctx : Context} {steps : List Op} (h : ∀ op ∈ steps, op.Seeds) {far : Bool}
    {fed : Extent} {input : Stage} {k : List Binding}
    (ha : acceptsSteps ctx.config steps far fed = true) (hf : fed.Bounds ctx.graph k)
    (hap : far = true → Rows.Apart k) (hi : input.EmitsBag k) :
    (compileSteps ctx steps input).GivesBag
      (Rows.join k (bagSteps ctx.dataset ctx.functions steps ctx.graph)) := by
  induction steps generalizing far fed input k with
  | nil =>
    rw [bagSteps, Rows.join_unit]
    exact Compiled.givesBag_ok hi
  | cons op rest ih =>
    obtain ⟨hao, har⟩ := Bool.and_eq_true_iff.1 ha
    rw [compileSteps_cons, bagSteps, ← Rows.join_assoc]
    refine (h op List.mem_cons_self hao hf hap hi).andThen fun s hs => ?_
    refine ih (fun o ho => h o (List.mem_cons_of_mem op ho)) har (hf.join (bounds_bag op _ _ _))
      (fun hfar => ?_) hs
    obtain ⟨hk, ho⟩ := Bool.and_eq_true_iff.1 hfar
    exact (hap hk).join (apart_bag ho _ _ _)

/-- Every operator may be fed with the rows it accepts. -/
theorem seeds (op : Op) : op.Seeds := by
  induction op using operands_induction with
  | step op ih =>
    cases op with
    | bgp p =>
      intro ctx far fed input k _ _ _ hi
      exact seeds_pattern p hi
    | triple t => exact seeds_triple t
    | quad q => exact seeds_quad q
    | path p => exact seeds_path p
    | join l r => exact seeds_join (ih l (by simp [operands])) (ih r (by simp [operands]))
    | leftJoin l r exprs =>
      exact seeds_leftJoin (ih l (by simp [operands])) (ih r (by simp [operands])) exprs
    | union l r =>
      exact seeds_union fun b hb => ih b (by simp [operands] at hb ⊢; exact .inr (.inr hb))
    | diff l r => exact seeds_diff (ih l (by simp [operands])) (ih r (by simp [operands]))
    | filter exprs sub => exact seeds_filter (ih sub (by simp [operands])) exprs
    | graph name sub => exact seeds_graph (ih sub (by simp [operands])) name
    | table t =>
      intro ctx far fed input k _ _ _ hi
      exact (Compiled.givesBag_ok (Stage.emitsBag_table t ctx hi)).counted
    | sequence steps =>
      intro ctx far fed input k ha hf hap hi
      exact (givesBag_steps ih ha hf hap hi).counted
    | marker name =>
      intro ctx far fed input k _ _ _ hi
      rw [bag, Rows.join_unit]
      exact (Compiled.givesBag_ok hi).counted
    | label name sub =>
      intro ctx far fed input k ha hf hap hi
      exact (ih sub (by simp [operands]) ha hf hap hi).counted
    | list sub =>
      intro ctx far fed input k ha hf hap hi
      exact (ih sub (by simp [operands]) ha hf hap hi).counted
    | null =>
      intro ctx far fed input k _ _ _ _
      have hbag : null.bag ctx.dataset ctx.functions ctx.graph = [] := rfl
      rw [hbag, Rows.join_nil]
      exact ⟨.rows [], rfl, Stage.emitsBag_rows []⟩
    | project kept sub => exact seeds_project (ih sub (by simp [operands])) kept
    | distinct sub => exact seeds_distinct (ih sub (by simp [operands]))
    | _ =>
      intro ctx far fed input k ha
      cases ha

end Op

end SparqlAlgebra
