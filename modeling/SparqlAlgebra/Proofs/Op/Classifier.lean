import SparqlAlgebra.Proofs.Op.Materialized
import SparqlAlgebra.Proofs.Op.Noticed
import SparqlAlgebra.Proofs.Op.Seeded

/-!
What the scope of an operator is good for: a plain operator accepts rows that bind none of the
variables that its scope lists as optional or free, and none that a join masks.
-/

namespace SparqlAlgebra

namespace Op

open SortedSet

/-- Operators that the scope is good for: their tables are complete, and where rows are fed in,
nothing projects, removes duplicates or walks a path that may have length zero, and no left row
binds a masked variable. `any` tells whether any rows but the empty one are fed in. -/
def plain (c : Config) : (any : Bool) → Op → Bool
  | _, bgp _ => true
  | _, triple _ => true
  | _, quad q => q.graph.isNone
  | any, path p => !any || !p.path.nullable
  | any, join l r =>
    plain c any l &&
      if c.streamedJoins && joinStreams l r then
        plain c true r && disjoint l.scope.all (r.masked c)
      else plain c false r
  | any, leftJoin l r _ =>
    plain c any l &&
      if c.streamedLeftJoins && leftJoinStreams l r then
        plain c true r && disjoint l.scope.all (r.masked c)
      else plain c false r
  | any, union l r => plain c any l && plain c any r
  | any, diff l r => plain c any l && plain c false r
  | any, filter _ sub => plain c any sub
  | _, table t => t.complete
  | _, marker _ => true
  | any, label _ sub => plain c any sub
  | any, list sub => plain c any sub
  | _, null => true
  | any, project _ sub => !any && plain c false sub
  | any, distinct sub => !any && plain c false sub
  | _, _ => false

variable {c : Config} {l r op : Op} {v : Var}

theorem summarized_of_plain {any : Bool} (h : op.plain c any = true) : op.summarized = true := by
  induction op using operands_induction generalizing any with
  | step op ih =>
    cases op with
    | bgp p => rfl
    | triple t => rfl
    | quad q => exact h
    | path p => rfl
    | join l r =>
      obtain ⟨hl, hr⟩ := Bool.and_eq_true_iff.1 h
      refine Bool.and_eq_true_iff.2 ⟨ih l (by simp [operands]) hl, ?_⟩
      split at hr
      · exact ih r (by simp [operands]) (Bool.and_eq_true_iff.1 hr).1
      · exact ih r (by simp [operands]) hr
    | leftJoin l r exprs =>
      obtain ⟨hl, hr⟩ := Bool.and_eq_true_iff.1 h
      refine Bool.and_eq_true_iff.2 ⟨ih l (by simp [operands]) hl, ?_⟩
      split at hr
      · exact ih r (by simp [operands]) (Bool.and_eq_true_iff.1 hr).1
      · exact ih r (by simp [operands]) hr
    | union l r =>
      obtain ⟨hl, hr⟩ := Bool.and_eq_true_iff.1 h
      exact Bool.and_eq_true_iff.2 ⟨ih l (by simp [operands]) hl, ih r (by simp [operands]) hr⟩
    | diff l r =>
      obtain ⟨hl, hr⟩ := Bool.and_eq_true_iff.1 h
      exact Bool.and_eq_true_iff.2 ⟨ih l (by simp [operands]) hl, ih r (by simp [operands]) hr⟩
    | filter exprs sub => exact ih sub (by simp [operands]) h
    | table t => exact h
    | marker name => rfl
    | label name sub => exact ih sub (by simp [operands]) h
    | list sub => exact ih sub (by simp [operands]) h
    | null => rfl
    | project kept sub => exact ih sub (by simp [operands]) (Bool.and_eq_true_iff.1 h).2
    | distinct sub => exact ih sub (by simp [operands]) (Bool.and_eq_true_iff.1 h).2
    | _ => cases h

/-- No left row of a streaming join binds a variable by which the right side would notice it. -/
theorem not_noticed_of_disjoint (hl : l.summarized = true) (hr : r.summarized = true)
    (hs : ∀ v ∈ l.scope.all, v ∉ r.scope.optional ∧ v ∉ r.scope.free)
    (hm : disjoint l.scope.all (r.masked c) = true) (hv : v ∈ l.extent.may) :
    v ∉ r.noticed c := by
  intro hn
  have hall : v ∈ l.scope.all := (describes hl).may v hv
  rcases told_of_noticed hr hn with ho | hf | hx
  · exact (hs v hall).1 ho
  · exact (hs v hall).2 hf
  · exact disjoint_iff.1 hm v hall hx

theorem settles_of_not_noticed {e fed : Extent} {looked : SortedSet Var}
    (h : ∀ v ∈ fed.may, v ∉ looked.diff e.sure) : e.settles fed.may looked = true := by
  refine Extent.settles_iff.2 fun v hv hlook => ?_
  by_contra hsure
  exact h v hv (mem_diff.2 ⟨hlook, hsure⟩)

/-- Plain operators accept rows that they do not notice. -/
theorem accepts_of_plain {any far : Bool} {fed : Extent} (h : op.plain c any = true)
    (hn : ∀ v ∈ fed.may, v ∉ op.noticed c) (hany : any = false → far = true ∧ fed = {}) :
    op.accepts c far fed = true := by
  induction op using operands_induction generalizing any far fed with
  | step op ih =>
    -- A materialized part is fed with the empty row, which binds nothing to be noticed.
    have hroot {sub : Op} (hs : sub ∈ op.operands) (hp : sub.plain c false = true) :
        sub.accepts c true {} = true :=
      ih sub hs hp (fun _ hv => (not_mem_empty hv).elim) fun _ => ⟨rfl, rfl⟩
    cases op with
    | bgp p => rfl
    | triple t => rfl
    | quad q => exact h
    | path p =>
      rw [accepts, PathPattern.anchored]
      rcases Bool.or_eq_true_iff.1 h with ha | hp
      · obtain ⟨-, rfl⟩ := hany (by simpa using ha)
        simp
      · have hp : p.path.nullable = false := by simpa using hp
        simp [PathPattern.adrift, hp]
    | join l r =>
      obtain ⟨hl, hr⟩ := Bool.and_eq_true_iff.1 h
      have hal : l.accepts c far fed = true :=
        ih l (by simp [operands]) hl (fun v hv hx => hn v hv (mem_union.2 (.inl hx))) hany
      refine Bool.and_eq_true_iff.2 ⟨hal, ?_⟩
      by_cases hc : (c.streamedJoins && joinStreams l r) = true
      · rw [if_pos hc] at hr ⊢
        obtain ⟨hr, hm⟩ := Bool.and_eq_true_iff.1 hr
        refine ih r (by simp [operands]) hr (fun v hv => ?_) fun e => absurd e (by simp)
        -- The right side is fed with the fed rows and the left rows.
        rcases mem_union.1 hv with hv | hv
        · refine fun hx => hn v hv (mem_union.2 (.inr ?_))
          rwa [if_pos hc]
        · exact not_noticed_of_disjoint (summarized_of_plain hl) (summarized_of_plain hr)
            (fun v => disjoint_of_joinStreams (Bool.and_eq_true_iff.1 hc).2) hm hv
      · rw [if_neg hc] at hr ⊢
        exact hroot (by simp [operands]) hr
    | leftJoin l r exprs =>
      obtain ⟨hl, hr⟩ := Bool.and_eq_true_iff.1 h
      have hal : l.accepts c far fed = true :=
        ih l (by simp [operands]) hl
          (fun v hv hx => hn v hv (mem_union.2 (.inl (mem_union.2 (.inl hx))))) hany
      have hset := settles_of_not_noticed (e := l.extent) fun v hv hx => hn v hv (mem_union.2 (.inr hx))
      refine Bool.and_eq_true_iff.2 ⟨Bool.and_eq_true_iff.2 ⟨hal, hset⟩, ?_⟩
      by_cases hc : (c.streamedLeftJoins && leftJoinStreams l r) = true
      · rw [if_pos hc] at hr ⊢
        obtain ⟨hr, hm⟩ := Bool.and_eq_true_iff.1 hr
        refine ih r (by simp [operands]) hr (fun v hv => ?_) fun e => absurd e (by simp)
        rcases mem_union.1 hv with hv | hv
        · refine fun hx => hn v hv (mem_union.2 (.inl (mem_union.2 (.inr ?_))))
          rwa [if_pos hc]
        · exact not_noticed_of_disjoint (summarized_of_plain hl) (summarized_of_plain hr)
            (fun v => disjoint_of_leftJoinStreams (Bool.and_eq_true_iff.1 hc).2) hm hv
      · rw [if_neg hc] at hr ⊢
        exact hroot (by simp [operands]) hr
    | union l r =>
      obtain ⟨hl, hr⟩ := Bool.and_eq_true_iff.1 h
      have htop : any = false → true = true ∧ fed = {} := fun ha => ⟨rfl, (hany ha).2⟩
      refine Bool.and_eq_true_iff.2 ⟨ih l (by simp [operands]) hl ?_ htop,
        ih r (by simp [operands]) hr ?_ htop⟩
      · exact fun v hv hx => hn v hv (mem_union.2 (.inl hx))
      · exact fun v hv hx => hn v hv (mem_union.2 (.inr hx))
    | diff l r =>
      obtain ⟨hl, hr⟩ := Bool.and_eq_true_iff.1 h
      have hal : l.accepts c far fed = true :=
        ih l (by simp [operands]) hl (fun v hv hx => hn v hv (mem_union.2 (.inl hx))) hany
      have hset := settles_of_not_noticed (e := l.extent) fun v hv hx => hn v hv (mem_union.2 (.inr hx))
      exact Bool.and_eq_true_iff.2 ⟨Bool.and_eq_true_iff.2 ⟨hal, hset⟩, hroot (by simp [operands]) hr⟩
    | filter exprs sub =>
      have hset := settles_of_not_noticed (e := sub.extent) fun v hv hx => hn v hv (mem_union.2 (.inr hx))
      refine Bool.and_eq_true_iff.2 ⟨ih sub (by simp [operands]) h (fun v hv hx => ?_) hany, hset⟩
      exact hn v hv (mem_union.2 (.inl hx))
    | table t => rfl
    | marker name => rfl
    | label name sub => exact ih sub (by simp [operands]) h hn hany
    | list sub => exact ih sub (by simp [operands]) h hn hany
    | null => rfl
    | project kept sub =>
      obtain ⟨ha, hs⟩ := Bool.and_eq_true_iff.1 h
      obtain ⟨rfl, rfl⟩ := hany (by simpa using ha)
      exact Bool.and_eq_true_iff.2 ⟨hroot (by simp [operands]) hs, rfl⟩
    | distinct sub =>
      obtain ⟨ha, hs⟩ := Bool.and_eq_true_iff.1 h
      obtain ⟨rfl, rfl⟩ := hany (by simpa using ha)
      have hset : sub.extent.settles ∅ sub.extent.may = true :=
        Extent.settles_iff.2 fun v hv => (not_mem_empty hv).elim
      exact Bool.and_eq_true_iff.2 ⟨hroot (by simp [operands]) hs, hset⟩
    | _ => cases h

/-- Operators built from patterns and complete tables by joins, optional matches, unions,
differences and filters. -/
def relational : Op → Bool
  | bgp _ => true
  | triple _ => true
  | join l r => relational l && relational r
  | leftJoin l r _ => relational l && relational r
  | union l r => relational l && relational r
  | diff l r => relational l && relational r
  | filter _ sub => relational sub
  | table t => t.complete
  | marker _ => true
  | label _ sub => relational sub
  | list sub => relational sub
  | _ => false

theorem plain_of_relational (hj : c.streamedJoins = false) (ho : c.streamedLeftJoins = false)
    {op : Op} (h : op.relational = true) (fed : Bool) : op.plain c fed = true := by
  induction op using operands_induction generalizing fed with
  | step op ih =>
    cases op with
    | bgp p => rfl
    | triple t => rfl
    | join l r =>
      obtain ⟨hl, hr⟩ := Bool.and_eq_true_iff.1 h
      rw [plain, ih l (by simp [operands]) hl, hj, Bool.false_and, if_neg Bool.false_ne_true,
        ih r (by simp [operands]) hr]
      rfl
    | leftJoin l r exprs =>
      obtain ⟨hl, hr⟩ := Bool.and_eq_true_iff.1 h
      rw [plain, ih l (by simp [operands]) hl, ho, Bool.false_and, if_neg Bool.false_ne_true,
        ih r (by simp [operands]) hr]
      rfl
    | union l r =>
      obtain ⟨hl, hr⟩ := Bool.and_eq_true_iff.1 h
      exact Bool.and_eq_true_iff.2
        ⟨ih l (by simp [operands]) hl fed, ih r (by simp [operands]) hr fed⟩
    | diff l r =>
      obtain ⟨hl, hr⟩ := Bool.and_eq_true_iff.1 h
      exact Bool.and_eq_true_iff.2
        ⟨ih l (by simp [operands]) hl fed, ih r (by simp [operands]) hr false⟩
    | filter exprs sub => exact ih sub (by simp [operands]) h fed
    | table t => exact h
    | marker name => rfl
    | label name sub => exact ih sub (by simp [operands]) h fed
    | list sub => exact ih sub (by simp [operands]) h fed
    | _ => cases h

end Op

/-- Without streaming, a row that binds no optional, no free and no masked variable of an operator
may be fed in below instead of being joined in above. -/
theorem Context.solutions_blind {ctx : Context} {op : Op} {i : Binding}
    (hj : ctx.config.streamedJoins = false) (ho : ctx.config.streamedLeftJoins = false)
    (h : op.relational = true) (hopt : i.dom.disjoint op.scope.optional = true)
    (hfree : i.dom.disjoint op.scope.free = true)
    (hmask : i.dom.disjoint (op.masked ctx.config) = true) :
    ∃ base rows, ctx.solutions op .root = .ok base ∧ ctx.solutions op (.rows [i]) = .ok rows ∧
      rows.Perm (base.filterMap i.merge) := by
  have hplain := Op.plain_of_relational hj ho h
  have hunseen : ∀ v ∈ i.dom, v ∉ op.noticed ctx.config := fun v hv hn => by
    rcases Op.told_of_noticed (Op.summarized_of_plain (hplain true)) hn with hx | hx | hx
    · exact SortedSet.disjoint_iff.1 hopt v hv hx
    · exact SortedSet.disjoint_iff.1 hfree v hv hx
    · exact SortedSet.disjoint_iff.1 hmask v hv hx
  have hroot : op.accepts ctx.config true {} = true :=
    Op.accepts_of_plain (hplain false) (fun _ hv => (SortedSet.not_mem_empty hv).elim)
      fun _ => ⟨rfl, rfl⟩
  have hfed : op.accepts ctx.config true (.upTo i.dom) = true :=
    Op.accepts_of_plain (hplain true) hunseen fun e => absurd e (by simp)
  have hop : op.Seeds := op.seeds
  obtain ⟨base, hbase, hb⟩ := solutions_perm (hop.root hroot)
  obtain ⟨rows, hrows, hr⟩ := solutions_perm
    (hop.alone ctx hfed (Extent.bounds_upTo_singleton fun v hv => Binding.mem_dom.2 hv))
  exact ⟨base, rows, hbase, hrows, hr.trans (hb.symm.filterMap _)⟩

theorem Context.solutions_blind_leftJoin :
    let ctx : Context := { ofDataset {} with config := .materializing }
    let i : Binding := .single ⟨"x"⟩ (.iri "a")
    let op : Op := .leftJoin (.table (.ofRows [i]))
      (.table (.ofRows [.ofList [(⟨"x"⟩, .iri "a"), (⟨"y"⟩, .iri "b")]])) none
    op.relational = true ∧ i.dom.disjoint op.scope.optional = true ∧
      i.dom.disjoint op.scope.free = true ∧ i.dom.disjoint (op.masked ctx.config) = true ∧
      ∃ base rows, ctx.solutions op .root = .ok base ∧ ctx.solutions op (.rows [i]) = .ok rows ∧
        rows.Perm (base.filterMap i.merge) := by
  refine ⟨by decide, by decide, by decide, by decide, ?_⟩
  exact solutions_blind rfl rfl (by decide) (by decide) (by decide) (by decide)

/-- A join that masks an optional variable: on its own it has no rows, but over a row that binds the
variable the optional match fails, and the row comes through. -/
theorem Context.solutions_masked :
    let ctx : Context := { ofDataset {} with config := .materializing }
    let i : Binding := .single ⟨"v"⟩ (.iri "1")
    let op : Op := .join
      (.leftJoin (.table (.ofRows [.single ⟨"z"⟩ (.iri "1")]))
        (.table (.ofRows [.ofList [(⟨"v"⟩, .iri "2"), (⟨"z"⟩, .iri "1")]])) none)
      (.table (.ofRows [i]))
    op.relational = true ∧ i.dom.disjoint op.scope.optional = true ∧
      i.dom.disjoint op.scope.free = true ∧ ctx.solutions op .root = .ok [] ∧
      ctx.solutions op (.rows [i]) = .ok [.ofList [(⟨"v"⟩, .iri "1"), (⟨"z"⟩, .iri "1")]] := by
  refine ⟨by decide, by decide, by decide, ?_, ?_⟩
  · exact (solutions_materialized rfl rfl rfl).trans (congrArg Except.ok (by decide))
  · refine (solutions_eq (Op.gives_join rfl (Op.gives_leftJoin none rfl
      (Op.gives_table _ (Stage.emits_rows _)) (Op.gives_table _ Stage.emits_root))
      (Op.gives_table _ Stage.emits_root))).trans ?_
    exact congrArg Except.ok (by decide)

end SparqlAlgebra
