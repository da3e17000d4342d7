import SparqlAlgebra.Proofs.Op.Summary

/-!
The variables by which an operator notices the rows that it is fed with. They are optional or free
in its scope, unless a join masks them: a join drops the optional mark of a variable that its other
side fixes, though the part that leaves it open still sees the rows that are fed in.
-/

namespace SparqlAlgebra

namespace Op

open SortedSet

/-- The variables of fed rows that a plain operator notices: those that something in a fed part
looks at and the rows there leave open. -/
def noticed (c : Config) : Op → SortedSet Var
  | join l r =>
    (noticed c l).union (if c.streamedJoins && joinStreams l r then noticed c r else ∅)
  | leftJoin l r exprs =>
    ((noticed c l).union (if c.streamedLeftJoins && leftJoinStreams l r then noticed c r else ∅)).union
      ((r.extent.may.union (ofList (Expr.mentionsAll (exprs.getD [])))).diff l.extent.sure)
  | union l r => (noticed c l).union (noticed c r)
  | diff l r => (noticed c l).union (r.extent.may.diff l.extent.sure)
  | filter exprs sub =>
    (noticed c sub).union ((ofList (Expr.mentionsAll exprs)).diff sub.extent.sure)
  | label _ sub => noticed c sub
  | list sub => noticed c sub
  | _ => ∅

/-- The noticed variables whose optional mark a join drops, since its right side fixes them. -/
def masked (c : Config) : Op → SortedSet Var
  | join l r =>
    ((masked c l).union (inter (l.noticed c) r.scope.fixed)).union
      (if c.streamedJoins && joinStreams l r then masked c r else ∅)
  | leftJoin l r _ =>
    (masked c l).union (if c.streamedLeftJoins && leftJoinStreams l r then masked c r else ∅)
  | union l r => (masked c l).union (masked c r)
  | diff l _ => masked c l
  | filter _ sub => masked c sub
  | label _ sub => masked c sub
  | list sub => masked c sub
  | _ => ∅

variable {c : Config} {l r op : Op}

theorem scope_core (op : Op) : op.core.scope = op.scope := by
  fun_induction core op with
  | case1 name sub ih => exact ih
  | case2 sub ih => exact ih
  | case3 op _ _ => rfl

/-- No left row of a streaming join binds an optional or a free variable of the right side. -/
theorem disjoint_of_linear {vars : SortedSet Var} (h : linear vars r.core = true) {v : Var}
    (hv : v ∈ vars) : v ∉ r.scope.optional ∧ v ∉ r.scope.free := by
  rw [linear, scope_core, Bool.and_eq_true, Bool.and_eq_true] at h
  exact ⟨disjoint_iff.1 h.1.2 v hv, disjoint_iff.1 h.2 v hv⟩

theorem disjoint_of_joinStreams (h : joinStreams l r = true) {v : Var} (hv : v ∈ l.scope.all) :
    v ∉ r.scope.optional ∧ v ∉ r.scope.free := by
  rw [joinStreams, scope_core] at h
  exact disjoint_of_linear h hv

theorem disjoint_of_leftJoinStreams (h : leftJoinStreams l r = true) {v : Var}
    (hv : v ∈ l.scope.all) : v ∉ r.scope.optional ∧ v ∉ r.scope.free := by
  rw [leftJoinStreams, scope_core] at h
  exact disjoint_of_linear h (mem_union.2 (.inl hv))

/-- The scope of an operator tells that a fed variable may be noticed, or a join masks it. -/
def Told (c : Config) (op : Op) (v : Var) : Prop :=
  v ∈ op.scope.optional ∨ v ∈ op.scope.free ∨ v ∈ op.masked c

variable {v : Var}

theorem Told.join_left (h : Told c l v) (hv : v ∈ l.noticed c) : Told c (join l r) v := by
  rcases h with ho | hf | hm
  · by_cases hfix : v ∈ r.scope.fixed
    · -- The join fixes the variable, so it is no longer optional.
      exact .inr (.inr (mem_union.2 (.inl (mem_union.2 (.inr (mem_inter.2 ⟨hv, hfix⟩))))))
    · refine .inl (mem_diff.2 ⟨mem_union.2 (.inl ho), fun hj => ?_⟩)
      exact (mem_union.1 hj).elim (fun hl => split_scope l v hl ho) hfix
  · exact .inr (.inl (mem_union.2 (.inl hf)))
  · exact .inr (.inr (mem_union.2 (.inl (mem_union.2 (.inl hm)))))

theorem Told.join_right (h : Told c r v) (hc : (c.streamedJoins && joinStreams l r) = true) :
    Told c (join l r) v := by
  have hs := (Bool.and_eq_true_iff.1 hc).2
  rcases h with ho | hf | hm
  · refine .inl (mem_diff.2 ⟨mem_union.2 (.inr ho), fun hj => ?_⟩)
    rcases mem_union.1 hj with hl | hr
    · exact (disjoint_of_joinStreams hs (Scope.mem_all.2 (.inl hl))).1 ho
    · exact split_scope r v hr ho
  · exact .inr (.inl (mem_union.2 (.inr hf)))
  · refine .inr (.inr (mem_union.2 (.inr ?_)))
    rwa [if_pos hc]

theorem Told.leftJoin_left {exprs : Option (List Expr)} (h : Told c l v) :
    Told c (leftJoin l r exprs) v := by
  rcases h with ho | hf | hm
  · exact .inl (mem_diff.2 ⟨mem_union.2 (.inl ho), fun hl => split_scope l v hl ho⟩)
  · exact .inr (.inl (mem_union.2 (.inl (mem_union.2 (.inl hf)))))
  · exact .inr (.inr (mem_union.2 (.inl hm)))

theorem Told.leftJoin_right {exprs : Option (List Expr)} (h : Told c r v)
    (hc : (c.streamedLeftJoins && leftJoinStreams l r) = true) : Told c (leftJoin l r exprs) v := by
  have hs := (Bool.and_eq_true_iff.1 hc).2
  rcases h with ho | hf | hm
  · refine .inl (mem_diff.2 ⟨mem_union.2 (.inr (Scope.mem_all.2 (.inr ho))), fun hl => ?_⟩)
    exact (disjoint_of_leftJoinStreams hs (Scope.mem_all.2 (.inl hl))).1 ho
  · exact .inr (.inl (mem_union.2 (.inl (mem_union.2 (.inr hf)))))
  · refine .inr (.inr (mem_union.2 (.inr ?_)))
    rwa [if_pos hc]

theorem open_of_not_sure (h : l.summarized = true) (hv : v ∉ l.extent.sure) :
    v ∉ l.scope.fixed :=
  fun hf => hv ((describes h).sure v hf)

/-- What a left join looks at and its left rows leave open is optional or free. -/
theorem told_leftJoin {exprs : Option (List Expr)} (hl : l.summarized = true)
    (hr : r.summarized = true)
    (hv : v ∈ r.extent.may.union (ofList (Expr.mentionsAll (exprs.getD []))))
    (hsure : v ∉ l.extent.sure) : Told c (leftJoin l r exprs) v := by
  have hopen := open_of_not_sure hl hsure
  by_cases hopt : v ∈ l.scope.optional ∨ v ∈ r.scope.all
  · exact .inl (mem_diff.2 ⟨mem_union.2 hopt, hopen⟩)
  · obtain ⟨hlo, hra⟩ := not_or.1 hopt
    rcases mem_union.1 hv with hmay | hmen
    · exact (hra ((describes hr).may v hmay)).elim
    · refine .inr (.inl (mem_union.2 (.inr (mem_diff.2 ⟨hmen, fun ha => ?_⟩))))
      exact (mem_union.1 ha).elim (fun hla => (Scope.mem_all.1 hla).elim hopen hlo) hra

theorem Told.union_left (h : Told c l v) : Told c (union l r) v := by
  rcases h with ho | hf | hm
  · refine .inl (mem_diff.2 ⟨mem_union.2 (.inl (Scope.mem_all.2 (.inr ho))), fun hi => ?_⟩)
    exact split_scope l v (mem_inter.1 hi).1 ho
  · exact .inr (.inl (mem_union.2 (.inl hf)))
  · exact .inr (.inr (mem_union.2 (.inl hm)))

theorem Told.union_right (h : Told c r v) : Told c (union l r) v := by
  rcases h with ho | hf | hm
  · refine .inl (mem_diff.2 ⟨mem_union.2 (.inr (Scope.mem_all.2 (.inr ho))), fun hi => ?_⟩)
    exact split_scope r v (mem_inter.1 hi).2 ho
  · exact .inr (.inl (mem_union.2 (.inr hf)))
  · exact .inr (.inr (mem_union.2 (.inr hm)))

theorem Told.diff_left (h : Told c l v) : Told c (diff l r) v := by
  rcases h with ho | hf | hm
  · exact .inl (mem_union.2 (.inl ho))
  · exact .inr (.inl (mem_union.2 (.inl hf)))
  · exact .inr (.inr hm)

theorem told_diff (hl : l.summarized = true) (hr : r.summarized = true)
    (hv : v ∈ r.extent.may) (hsure : v ∉ l.extent.sure) : Told c (diff l r) v := by
  have hall : v ∈ r.scope.all := (describes hr).may v hv
  exact .inl (mem_union.2 (.inr (mem_diff.2 ⟨hall, open_of_not_sure hl hsure⟩)))

theorem Told.filter_sub {exprs : List Expr} {sub : Op} (h : Told c sub v) :
    Told c (filter exprs sub) v := by
  rcases h with ho | hf | hm
  · exact .inl ho
  · exact .inr (.inl (mem_union.2 (.inl hf)))
  · exact .inr (.inr hm)

theorem told_filter {exprs : List Expr} {sub : Op} (hs : sub.summarized = true)
    (hv : v ∈ ofList (Expr.mentionsAll exprs)) (hsure : v ∉ sub.extent.sure) :
    Told c (filter exprs sub) v :=
  .inr (.inl (mem_union.2 (.inr (mem_diff.2 ⟨hv, open_of_not_sure hs hsure⟩))))

/-- The scope tells of every noticed variable that no join masks. -/
theorem told_of_noticed (h : op.summarized = true) (hv : v ∈ op.noticed c) : Told c op v := by
  induction op using operands_induction with
  | step op ih =>
    cases op with
    | join l r =>
      obtain ⟨hl, hr⟩ := Bool.and_eq_true_iff.1 h
      rcases mem_union.1 hv with hv | hv
      · exact (ih l (by simp [operands]) hl hv).join_left hv
      · split at hv
        · rename_i hc
          exact (ih r (by simp [operands]) hr hv).join_right hc
        · exact (not_mem_empty hv).elim
    | leftJoin l r exprs =>
      obtain ⟨hl, hr⟩ := Bool.and_eq_true_iff.1 h
      rcases mem_union.1 hv with hv | hv
      · rcases mem_union.1 hv with hv | hv
        · exact (ih l (by simp [operands]) hl hv).leftJoin_left
        · split at hv
          · rename_i hc
            exact (ih r (by simp [operands]) hr hv).leftJoin_right hc
          · exact (not_mem_empty hv).elim
      · obtain ⟨hlook, hsure⟩ := mem_diff.1 hv
        exact told_leftJoin hl hr hlook hsure
    | union l r =>
      obtain ⟨hl, hr⟩ := Bool.and_eq_true_iff.1 h
      rcases mem_union.1 hv with hv | hv
      · exact (ih l (by simp [operands]) hl hv).union_left
      · exact (ih r (by simp [operands]) hr hv).union_right
    | diff l r =>
      obtain ⟨hl, hr⟩ := Bool.and_eq_true_iff.1 h
      rcases mem_union.1 hv with hv | hv
      · exact (ih l (by simp [operands]) hl hv).diff_left
      · obtain ⟨hmay, hsure⟩ := mem_diff.1 hv
        exact told_diff hl hr hmay hsure
    | filter exprs sub =>
      have hs : sub.summarized = true := h
      rcases mem_union.1 hv with hv | hv
      · exact (ih sub (by simp [operands]) hs hv).filter_sub
      · obtain ⟨hmen, hsure⟩ := mem_diff.1 hv
        exact told_filter hs hmen hsure
    | label name sub => exact ih sub (by simp [operands]) h hv
    | list sub => exact ih sub (by simp [operands]) h hv
    | _ => exact (not_mem_empty hv).elim

end Op

end SparqlAlgebra
