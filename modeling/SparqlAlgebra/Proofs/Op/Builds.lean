import SparqlAlgebra.Plan.Progress
import SparqlAlgebra.Proofs.Op.Bag

/-!
What a successful compilation has done, as a relation with a rule for each operator, guards
included. Invariants of compiled stages go by induction over it and never unfold `compile`.
-/

namespace SparqlAlgebra

namespace Op

/-- In a context, the operator over the input `i` is built as the last stage. -/
inductive Builds (ctx : Context) : Op → Stage → Stage → Prop where
  | bgp (p : BasicPattern) (i : Stage) : Builds ctx (.bgp p) i (p.stage ctx.graph i)
  | triple (t : TriplePattern) (i : Stage) :
    Builds ctx (.triple t) i (.each (.triple t ctx.graph) i)
  | quad (p : BasicPattern) (i : Stage) : Builds ctx (.quad ⟨none, p⟩) i (p.stage ctx.graph i)
  | path (p : PathPattern) (i : Stage) : Builds ctx (.path p) i (.each (.path p ctx.graph) i)
  | joinFed {l r : Op} {i s t : Stage} :
    (ctx.config.streamedJoins && joinStreams l r) = true → Builds ctx l i s → Builds ctx r s t →
    Builds ctx (.join l r) i t
  | joinPaired {l r : Op} {i s t : Stage} :
    (ctx.config.streamedJoins && joinStreams l r) = false → Builds ctx l i s →
    Builds ctx r .root t → Builds ctx (.join l r) i (.pair .inner ctx s t none [])
  | leftJoinFed {l r : Op} {exprs : Option (List Expr)} {i s : Stage} :
    (ctx.config.streamedLeftJoins && leftJoinStreams l r) = true → Builds ctx l i s →
    Builds ctx (.leftJoin l r exprs) i (.optional (r.filtered exprs) ctx s)
  | leftJoinPaired {l r : Op} {exprs : Option (List Expr)} {i s t : Stage} :
    (ctx.config.streamedLeftJoins && leftJoinStreams l r) = false → Builds ctx l i s →
    Builds ctx r .root t →
    Builds ctx (.leftJoin l r exprs) i (.pair (.optional (exprs.getD [])) ctx s t none [])
  | union (l r : Op) (i : Stage) :
    Builds ctx (.union l r) i (.each (.union (l.branches ++ r.branches) ctx) i)
  | diff {l r : Op} {i s t : Stage} : Builds ctx l i s → Builds ctx r .root t →
    Builds ctx (.diff l r) i (.pair .minus ctx s t none [])
  | filter (exprs : List Expr) {sub : Op} {i s : Stage} : Builds ctx sub i s →
    Builds ctx (.filter exprs sub) i
      (exprs.foldl (fun s e => .via (.filter e) ctx.functions s false) s)
  | graph (name : Slot) (sub : Op) (i : Stage) :
    Builds ctx (.graph name sub) i (.each (.graph name sub ctx) i)
  | service (endpoint : Slot) (sub : Op) (silent : Bool) (i : Stage) :
    Builds ctx (.service endpoint sub silent) i (.each (.service endpoint sub silent ctx) i)
  | procedure {name : String} {args : List Expr} {q : Procedure} {sub : Op} {i s : Stage} :
    ctx.procedures.build name (.args args) = .ok q → Builds ctx sub i s →
    Builds ctx (.procedure name args sub) i (.each (.procedure q []) s)
  | propFunc {property : String} {subject object : Argument} {q : Procedure} {sub : Op}
    {i s : Stage} :
    ctx.procedures.build property (.property subject object) = .ok q → Builds ctx sub i s →
    Builds ctx (.propFunc property subject object sub) i (.each (.procedure q []) s)
  | table (t : Table) (i : Stage) : Builds ctx (.table t) i (t.stage ctx i)
  | noSteps (i : Stage) : Builds ctx (.sequence []) i i
  | steps {op : Op} {rest : List Op} {i s t : Stage} : Builds ctx op i s →
    Builds ctx (.sequence rest) s t → Builds ctx (.sequence (op :: rest)) i t
  | marker (name : String) (i : Stage) : Builds ctx (.marker name) i i
  | label (name : String) {sub : Op} {i s : Stage} : Builds ctx sub i s →
    Builds ctx (.label name sub) i s
  | list {sub : Op} {i s : Stage} : Builds ctx sub i s → Builds ctx (.list sub) i s
  | null (i : Stage) : Builds ctx .null i (.rows [])
  | project (vars : List Var) {sub : Op} {i s : Stage} : Builds ctx sub i s →
    Builds ctx (.project vars sub) i (.via (.project vars) ctx.functions s false)
  | order (keys : List SortKey) {sub : Op} {i s : Stage} : Builds ctx sub i s →
    Builds ctx (.order keys sub) i (.gather (.sort keys) ctx s [])
  | slice (offset length : Option UInt64) {sub : Op} {i s : Stage} : Builds ctx sub i s →
    Builds ctx (.slice offset length sub) i
      (.slice s (offset.elim 0 UInt64.toNat) (length.map UInt64.toNat))
  | distinct {sub : Op} {i s : Stage} : Builds ctx sub i s →
    Builds ctx (.distinct sub) i (.via (.distinct []) ctx.functions s false)
  | reduced {sub : Op} {i s : Stage} : Builds ctx sub i s →
    Builds ctx (.reduced sub) i
      (.via (.reduced (max ctx.config.reducedWindow.toNat 1) []) ctx.functions s false)
  | group (vars : List Var) (aggs : List Aggregation) {sub : Op} {i s : Stage} :
    Builds ctx sub i s → Builds ctx (.group vars aggs sub) i (.gather (.group vars aggs) ctx s [])
  | assign (assignments : List (Var × Expr)) {sub : Op} {i s : Stage} : Builds ctx sub i s →
    Builds ctx (.assign assignments sub) i (.via (.assign assignments) ctx.functions s false)
  | ext {e : Extension} {i s : Stage} : e.stage ctx i = .ok s → Builds ctx (.ext e) i s

variable {ctx : Context}

/-- Whatever compiling an operator gives has been built. -/
def Inverts (op : Op) : Prop :=
  ∀ ctx i s, (compile ctx op i).result = .ok s → Builds ctx op i s

theorem inverts_join {l r : Op} (hl : l.Inverts) (hr : r.Inverts) : (join l r).Inverts := by
  intro ctx i t h
  rw [compile_join] at h
  obtain ⟨s, hs, h⟩ := Compiled.andThen_eq_ok h
  have hs := hl ctx i s hs
  by_cases hc : (ctx.config.streamedJoins && joinStreams l r) = true
  · rw [if_pos hc] at h
    exact .joinFed hc hs (hr ctx s t h)
  · rw [if_neg hc] at h
    obtain ⟨u, hu, rfl⟩ := Compiled.map_eq_ok h
    exact .joinPaired (Bool.eq_false_iff.2 hc) hs (hr ctx _ u hu)

theorem inverts_leftJoin {l r : Op} (hl : l.Inverts) (hr : r.Inverts)
    (exprs : Option (List Expr)) : (leftJoin l r exprs).Inverts := by
  intro ctx i t h
  rw [compile_leftJoin] at h
  obtain ⟨s, hs, h⟩ := Compiled.andThen_eq_ok h
  have hs := hl ctx i s hs
  by_cases hc : (ctx.config.streamedLeftJoins && leftJoinStreams l r) = true
  · rw [if_pos hc] at h
    cases h
    exact .leftJoinFed hc hs
  · rw [if_neg hc] at h
    obtain ⟨u, hu, rfl⟩ := Compiled.map_eq_ok h
    exact .leftJoinPaired (Bool.eq_false_iff.2 hc) hs (hr ctx _ u hu)

theorem inverts_diff {l r : Op} (hl : l.Inverts) (hr : r.Inverts) : (diff l r).Inverts := by
  intro ctx i t h
  rw [compile_diff] at h
  obtain ⟨s, hs, h⟩ := Compiled.andThen_eq_ok h
  obtain ⟨u, hu, rfl⟩ := Compiled.map_eq_ok h
  exact .diff (hl ctx i s hs) (hr ctx _ u hu)

theorem inverts_quad (q : QuadPattern) : (quad q).Inverts := by
  intro ctx i t h
  obtain ⟨g, p⟩ := q
  cases g with
  | some g => cases h
  | none =>
    cases h
    exact .quad p i

theorem inverts_sequence {steps : List Op} (h : ∀ op ∈ steps, op.Inverts) :
    (sequence steps).Inverts := by
  intro ctx i t ht
  rw [compile_sequence] at ht
  change (compileSteps ctx steps i).result = .ok t at ht
  induction steps generalizing i with
  | nil =>
    cases ht
    exact .noSteps _
  | cons op rest ih =>
    rw [compileSteps_cons] at ht
    obtain ⟨s, hs, ht⟩ := Compiled.andThen_eq_ok ht
    have hrest := ih (fun o ho => h o (List.mem_cons_of_mem op ho)) s ht
    exact .steps (h op List.mem_cons_self ctx i s hs) hrest

/-- An operator that puts a stage on the stage of another one. -/
theorem inverts_of_map {op sub : Op} (h : sub.Inverts) {f : Context → Stage → Stage}
    (hc : ∀ ctx i, compile ctx op i = ((compile ctx sub i).map (f ctx)).counted)
    (hf : ∀ {ctx i s}, Builds ctx sub i s → Builds ctx op i (f ctx s)) : op.Inverts := by
  intro ctx i t ht
  rw [hc] at ht
  obtain ⟨s, hs, rfl⟩ := Compiled.map_eq_ok ht
  exact hf (h ctx i s hs)

/-- An operator that puts a stage on the input. -/
theorem inverts_of_ok {op : Op} {f : Context → Stage → Stage}
    (hc : ∀ ctx i, compile ctx op i = (Compiled.ok (f ctx i)).counted)
    (hf : ∀ ctx i, Builds ctx op i (f ctx i)) : op.Inverts := by
  intro ctx i t ht
  rw [hc] at ht
  exact Compiled.counted_ok_eq_ok ht ▸ hf ctx i

/-- An operator that answers the rows of another one with a procedure. -/
theorem inverts_of_applying {op sub : Op} (h : sub.Inverts)
    {made : Context → Except PlanError Procedure}
    (hc : ∀ ctx i, compile ctx op i = ((compile ctx sub i).applying (made ctx)).counted)
    (hf : ∀ {ctx i q s}, made ctx = .ok q → Builds ctx sub i s →
      Builds ctx op i (.each (.procedure q []) s)) : op.Inverts := by
  intro ctx i t ht
  rw [hc] at ht
  obtain ⟨q, s, hq, hs, rfl⟩ := Compiled.applying_eq_ok ht
  exact hf hq (h ctx i s hs)

theorem inverts (op : Op) : op.Inverts := by
  induction op using operands_induction with
  | step op ih =>
    -- The operands of each operator, as the induction hypothesis lists them.
    cases op with
    | bgp p => exact inverts_of_ok (compile_bgp · · p) fun _ i => .bgp p i
    | triple t => exact inverts_of_ok (compile_triple · · t) fun _ i => .triple t i
    | quad q => exact inverts_quad q
    | path p => exact inverts_of_ok (compile_path · · p) fun _ i => .path p i
    | join l r => exact inverts_join (ih l (by simp [operands])) (ih r (by simp [operands]))
    | leftJoin l r exprs =>
      exact inverts_leftJoin (ih l (by simp [operands])) (ih r (by simp [operands])) exprs
    | union l r => exact inverts_of_ok (compile_union · · l r) fun _ i => .union l r i
    | diff l r => exact inverts_diff (ih l (by simp [operands])) (ih r (by simp [operands]))
    | conditional l r =>
      intro ctx i s h
      cases h
    | filter exprs sub =>
      exact inverts_of_map (ih sub (by simp [operands])) (compile_filter · · exprs sub)
        (.filter exprs)
    | graph name sub =>
      exact inverts_of_ok (compile_graph · · name sub) fun _ i => .graph name sub i
    | service endpoint sub silent =>
      exact inverts_of_ok (compile_service · · endpoint sub silent)
        fun _ i => .service endpoint sub silent i
    | procedure name args sub =>
      exact inverts_of_applying (ih sub (by simp [operands])) (compile_procedure · · name args sub)
        .procedure
    | propFunc property subject object sub =>
      exact inverts_of_applying (ih sub (by simp [operands]))
        (compile_propFunc · · property subject object sub) .propFunc
    | datasetNames g =>
      intro ctx i s h
      cases h
    | table t => exact inverts_of_ok (compile_table · · t) fun _ i => .table t i
    | sequence steps => exact inverts_sequence ih
    | marker name => exact inverts_of_ok (compile_marker · · name) fun _ i => .marker name i
    | label name sub =>
      intro ctx i s h
      exact .label name (ih sub (by simp [operands]) ctx i s h)
    | list sub =>
      intro ctx i s h
      exact .list (ih sub (by simp [operands]) ctx i s h)
    | null =>
      intro ctx i s h
      cases h
      exact .null i
    | project vars sub =>
      exact inverts_of_map (ih sub (by simp [operands])) (compile_project · · vars sub)
        (.project vars)
    | order keys sub =>
      exact inverts_of_map (ih sub (by simp [operands])) (compile_order · · keys sub) (.order keys)
    | slice offset length sub =>
      exact inverts_of_map (ih sub (by simp [operands])) (compile_slice · · offset length sub)
        (.slice offset length)
    | distinct sub =>
      exact inverts_of_map (ih sub (by simp [operands])) (compile_distinct · · sub) .distinct
    | reduced sub =>
      exact inverts_of_map (ih sub (by simp [operands])) (compile_reduced · · sub) .reduced
    | group vars aggs sub =>
      exact inverts_of_map (ih sub (by simp [operands])) (compile_group · · vars aggs sub)
        (.group vars aggs)
    | assign assignments sub =>
      exact inverts_of_map (ih sub (by simp [operands])) (compile_assign · · assignments sub)
        (.assign assignments)
    | ext e =>
      intro ctx i s h
      exact .ext h

theorem builds_of_compile {op : Op} {i s : Stage} (h : (compile ctx op i).result = .ok s) :
    Builds ctx op i s := op.inverts ctx i s h

end Op

namespace Expansion

/-- A row is expanded by the rule to the stage. -/
inductive Expands (b : Binding) : Expansion → Stage → Prop where
  | triple (t : TriplePattern) (g : Graph) : Expands b (.triple t g) (.rows (t.extend g b))
  | path (p : PathPattern) (g : Graph) : Expands b (.path p g) (.rows (p.extend g b))
  | union (branches : List Op) (ctx : Context) :
    Expands b (.union branches ctx) (.chain (branches.map fun op => { op, seed := b, ctx }))
  | graphNamed {name : Slot} {sub : Op} {ctx : Context} {t : Term} {g : Graph} {s : Stage} :
    name.resolve b = some t → ctx.dataset.named.get? t = some g →
    Op.Builds { ctx with graph := g } sub (.rows [b]) s → Expands b (.graph name sub ctx) s
  | graphMissing {name : Slot} {sub : Op} {ctx : Context} {t : Term} :
    name.resolve b = some t → ctx.dataset.named.get? t = none →
    Expands b (.graph name sub ctx) (.rows [])
  | graphOpen {v : Var} {sub : Op} {ctx : Context} : b.get? v = none →
    Expands b (.graph (.var v) sub ctx) (.chain (ctx.dataset.named.entries.map fun e =>
      { op := sub, seed := b.insert v e.1, ctx := { ctx with graph := e.2 } }))
  | service {endpoint : Slot} {sub : Op} {silent : Bool} {ctx : Context} {d : Dataset}
    {s : Stage} :
    endpointData endpoint ctx b = .ok d → Op.Builds (ctx.remote d) sub (.rows [b]) s →
    Expands b (.service endpoint sub silent ctx) s
  | serviceSilent {endpoint : Slot} {sub : Op} {ctx : Context} {e : PlanError} :
    (request endpoint sub ctx b).result = .error e → e ≠ .cancelled →
    Expands b (.service endpoint sub true ctx) (.rows [b])
  | procedure {p : Procedure} {earlier l : List Binding} : p.answer earlier b = .ok l →
    Expands b (.procedure p earlier) (.rows l)

/-- The stage that a row is expanded to, passed on at once or held back. -/
def Reaches (x : Expanded) (s : Stage) : Prop := x = .flow s ∨ ∃ ctx, x = .hold ctx s

variable {b : Binding} {s t : Stage}

theorem reaches_flow : Reaches (.flow t) s ↔ s = t := by simp [Reaches, eq_comm]

theorem reaches_hold {ctx : Context} : Reaches (.hold ctx t) s ↔ s = t := by
  simp [Reaches, eq_comm]

theorem not_reaches_failed {e : PlanError} : ¬ Reaches (.failed e) s := by simp [Reaches]

theorem reaches_flowing {c : Compiled} (h : Reaches (flowing c).1 s) : c.result = .ok s := by
  unfold flowing at h
  cases hc : c.result with
  | ok t =>
    rw [hc] at h
    rw [reaches_flow.1 h]
  | error e =>
    rw [hc] at h
    exact (not_reaches_failed h).elim

theorem reaches_holding {ctx : Context} {c : Compiled} (h : Reaches (holding ctx b c).1 s) :
    c.result = .ok s ∨ ∃ e, c.result = .error e ∧ e ≠ .cancelled ∧ s = .rows [b] := by
  unfold holding at h
  cases hc : c.result with
  | ok t =>
    rw [hc] at h
    rw [reaches_hold.1 h]
    exact .inl rfl
  | error e =>
    rw [hc] at h
    cases e with
    | cancelled => exact (not_reaches_failed h).elim
    | _ => exact .inr ⟨_, rfl, by simp, reaches_flow.1 h⟩

/-- An endpoint that can be asked has a name. -/
theorem resolve_of_endpointData {endpoint : Slot} {ctx : Context} {d : Dataset}
    (h : endpointData endpoint ctx b = .ok d) : ∃ t, endpoint.resolve b = some t := by
  unfold endpointData at h
  split at h
  · cases h
  · rename_i t ht
    exact ⟨t, ht⟩

theorem builds_of_request {endpoint : Slot} {sub : Op} {ctx : Context}
    (h : (request endpoint sub ctx b).result = .ok s) :
    ∃ d, endpointData endpoint ctx b = .ok d ∧ Op.Builds (ctx.remote d) sub (.rows [b]) s := by
  unfold request at h
  cases hd : endpointData endpoint ctx b with
  | error e =>
    rw [hd] at h
    cases h
  | ok d =>
    rw [hd] at h
    exact ⟨d, rfl, Op.builds_of_compile h⟩

theorem expands_graph {name : Slot} {sub : Op} {ctx : Context}
    (h : Reaches ((graph name sub ctx).expand b).1 s) : Expands b (.graph name sub ctx) s := by
  cases hn : name.resolve b with
  | some t =>
    cases hg : ctx.dataset.named.get? t with
    | some g =>
      have hi : inGraphs name sub ctx b = .inr g := by simp [inGraphs, hn, hg]
      rw [expand_graph_inr hi] at h
      exact .graphNamed hn hg (Op.builds_of_compile (reaches_flowing h))
    | none =>
      have hi : inGraphs name sub ctx b = .inl (.rows []) := by simp [inGraphs, hn, hg]
      rw [expand_graph_inl hi] at h
      obtain rfl := reaches_flow.1 h
      exact .graphMissing hn hg
  | none =>
    cases name with
    | term t => cases hn
    | var v =>
      rw [expand_graph_inl (inGraphs_open hn sub ctx)] at h
      obtain rfl := reaches_flow.1 h
      exact .graphOpen hn

theorem expands_of_expand {rule : Expansion} (h : Reaches (rule.expand b).1 s) :
    Expands b rule s := by
  cases rule with
  | triple t g =>
    obtain rfl := reaches_flow.1 h
    exact .triple t g
  | path p g =>
    obtain rfl := reaches_flow.1 h
    exact .path p g
  | union branches ctx =>
    obtain rfl := reaches_flow.1 h
    exact .union branches ctx
  | graph name sub ctx => exact expands_graph h
  | service endpoint sub silent ctx =>
    have he : (service endpoint sub silent ctx).expand b =
        if silent then holding ctx b (request endpoint sub ctx b)
        else flowing (request endpoint sub ctx b) := rfl
    rw [he] at h
    cases silent with
    | false =>
      obtain ⟨d, hd, hs⟩ := builds_of_request (reaches_flowing h)
      exact .service hd hs
    | true =>
      rcases reaches_holding h with hc | ⟨e, hc, hne, rfl⟩
      · obtain ⟨d, hd, hs⟩ := builds_of_request hc
        exact .service hd hs
      · exact .serviceSilent hc hne
  | procedure p earlier =>
    cases ha : p.answer earlier b with
    | ok l =>
      rw [expand_procedure_ok ha] at h
      obtain rfl := reaches_flow.1 h
      exact .procedure ha
    | error e =>
      rw [expand_procedure_error ha] at h
      exact (not_reaches_failed h).elim

theorem flowing_ne_hold {c : Compiled} {ctx : Context} : (flowing c).1 ≠ .hold ctx s := by
  unfold flowing
  split <;> nofun

/-- Nothing but a silent service holds rows back. -/
theorem silent_of_hold {rule : Expansion} {ctx : Context} (h : (rule.expand b).1 = .hold ctx s) :
    ∃ endpoint sub ctx', rule = .service endpoint sub true ctx' := by
  cases rule with
  | triple t g => cases h
  | path p g => cases h
  | union branches ctx => cases h
  | graph name sub ctx =>
    cases hg : inGraphs name sub ctx b with
    | inl t =>
      rw [expand_graph_inl hg] at h
      cases h
    | inr g =>
      rw [expand_graph_inr hg] at h
      cases flowing_ne_hold h
  | service endpoint sub silent ctx' =>
    cases silent with
    | false => cases flowing_ne_hold h
    | true => exact ⟨endpoint, sub, ctx', rfl⟩
  | procedure p earlier =>
    cases ha : p.answer earlier b with
    | ok l =>
      rw [expand_procedure_ok ha] at h
      cases h
    | error e =>
      rw [expand_procedure_error ha] at h
      cases h

end Expansion

end SparqlAlgebra
