import SparqlAlgebra.Proofs.Rows.Seed

/-!
Bounds on what rows bind: the variables that every row binds, those that some row may bind, and
those that a row may bind to a term outside a graph. Each operation on rows has its counterpart on
bounds.
-/

namespace SparqlAlgebra

/-- Bounds on the variables that rows bind. -/
structure Extent where
  /-- Bound in every row. -/
  sure : SortedSet Var := ∅
  /-- Bound in some row, perhaps. -/
  may : SortedSet Var := ∅
  /-- Bound in some row to a term that is no node of the graph, perhaps. -/
  foreign : SortedSet Var := ∅
deriving DecidableEq

namespace Extent

open SortedSet

instance : Inhabited Extent := ⟨{}⟩

/-- Rows that bind the listed variables, those of `foreign` to any term. -/
def ofVars (vars foreign : List Var) : Extent :=
  { sure := ofList vars, may := ofList vars, foreign := ofList foreign }

/-- Rows that bind none but the given variables, to any term. -/
def upTo (vars : SortedSet Var) : Extent := { may := vars, foreign := vars }

/-- Rows as they are listed, to any term. -/
def ofRows (l : List Binding) : Extent := upTo (ofList (l.flatMap SortedMap.keys))

/-- Bound in every row to a node of the graph. -/
def firm (e : Extent) : SortedSet Var := diff e.sure e.foreign

/-- Rows merged from both sides. -/
def join (e f : Extent) : Extent where
  sure := union e.sure f.sure
  may := union e.may f.may
  foreign := diff (union e.foreign f.foreign) (union e.firm f.firm)

/-- Rows of the left side, into which rows of the right side may be merged. -/
def leftJoin (e f : Extent) : Extent where
  sure := e.sure
  may := union e.may f.may
  foreign := diff (union e.foreign f.foreign) e.firm

/-- Rows of either side. -/
def either (e f : Extent) : Extent where
  sure := inter e.sure f.sure
  may := union e.may f.may
  foreign := union e.foreign f.foreign

/-- Rows that keep only the listed variables. -/
def project (e : Extent) (vars : List Var) : Extent where
  sure := filter (· ∈ vars) e.sure
  may := filter (· ∈ vars) e.may
  foreign := filter (· ∈ vars) e.foreign

/-- Rows that may bind some variables besides. -/
def assign (e : Extent) (vars : List Var) : Extent :=
  { e with may := addAll e.may vars, foreign := addAll e.foreign vars }

/-- The same rows beside another graph. -/
def abroad (e : Extent) : Extent := { e with foreign := e.may }

/-- Whether the rows settle by themselves what they, or anything else that looks at `looked`, can
see of `vars`. -/
def settles (e : Extent) (vars looked : SortedSet Var) : Bool :=
  (inter vars looked).toList.all (· ∈ e.sure)

theorem settles_iff {e : Extent} {vars looked : SortedSet Var} :
    e.settles vars looked = true ↔ ∀ v ∈ vars, v ∈ looked → v ∈ e.sure := by
  simp [settles, List.all_eq_true]

/-- The extent bounds what the rows of a list bind, next to a graph. -/
structure Bounds (e : Extent) (g : Graph) (l : List Binding) : Prop where
  sure : ∀ b ∈ l, ∀ v ∈ e.sure, b.contains v = true
  may : ∀ b ∈ l, ∀ v, b.contains v = true → v ∈ e.may
  inside : ∀ b ∈ l, ∀ v ∉ e.foreign, ∀ t, b.get? v = some t → t ∈ g.nodes

variable {e f : Extent} {g h : Graph} {k l : List Binding}

theorem bounds_nil (e : Extent) (g : Graph) : e.Bounds g [] := ⟨nofun, nofun, nofun⟩

theorem Bounds.subset (he : e.Bounds g l) (hk : k ⊆ l) : e.Bounds g k :=
  ⟨fun b hb => he.sure b (hk hb), fun b hb => he.may b (hk hb), fun b hb => he.inside b (hk hb)⟩

theorem Bounds.singleton (he : e.Bounds g l) {b : Binding} (hb : b ∈ l) : e.Bounds g [b] :=
  he.subset fun _ hc => List.mem_singleton.1 hc ▸ hb

theorem bounds_flatMap {α : Type} {m : List α} {f : α → List Binding}
    (h : ∀ x ∈ m, e.Bounds g (f x)) : e.Bounds g (m.flatMap f) := by
  constructor
  · intro b hb
    obtain ⟨x, hx, hb⟩ := List.mem_flatMap.1 hb
    exact (h x hx).sure b hb
  · intro b hb
    obtain ⟨x, hx, hb⟩ := List.mem_flatMap.1 hb
    exact (h x hx).may b hb
  · intro b hb
    obtain ⟨x, hx, hb⟩ := List.mem_flatMap.1 hb
    exact (h x hx).inside b hb

theorem bounds_ofVars {vars foreign : List Var} (h : ∀ b ∈ l, ∀ v, b.contains v = true ↔ v ∈ vars)
    (hin : ∀ b ∈ l, ∀ v ∈ vars, v ∉ foreign → ∃ x ∈ g.nodes, b.get? v = some x) :
    (ofVars vars foreign).Bounds g l := by
  refine ⟨fun b hb v hv => (h b hb v).2 (mem_ofList.1 hv),
    fun b hb v hv => mem_ofList.2 ((h b hb v).1 hv), fun b hb v hv t ht => ?_⟩
  have hvars : v ∈ vars := (h b hb v).1 (by simp [SortedMap.contains, ht])
  obtain ⟨x, hx, hbx⟩ := hin b hb v hvars (mt mem_ofList.2 hv)
  exact Option.some.inj (ht.symm.trans hbx) ▸ hx

theorem bounds_upTo {vars : SortedSet Var} (h : ∀ b ∈ l, ∀ v, b.contains v = true → v ∈ vars) :
    (upTo vars).Bounds g l := by
  refine ⟨fun b _ v hv => (not_mem_empty hv).elim, h, fun b hb v hv t ht => ?_⟩
  exact (hv (h b hb v (by simp [SortedMap.contains, ht]))).elim

theorem bounds_ofRows (l : List Binding) (g : Graph) : (ofRows l).Bounds g l :=
  bounds_upTo fun b hb _ hv =>
    mem_ofList.2 (List.mem_flatMap.2 ⟨b, hb, SortedMap.mem_keys.2 hv⟩)

theorem bounds_upTo_singleton {vars : SortedSet Var} {b : Binding}
    (h : ∀ v, b.contains v = true → v ∈ vars) : (upTo vars).Bounds g [b] :=
  bounds_upTo fun _ hc v hv => h v (List.mem_singleton.1 hc ▸ hv)

theorem bounds_unit (g : Graph) : ({} : Extent).Bounds g [∅] := by
  refine ⟨fun b _ v hv => (not_mem_empty hv).elim, fun b hb v hv => ?_, fun b hb v _ t ht => ?_⟩
  · rw [List.mem_singleton.1 hb] at hv
    cases hv
  · rw [List.mem_singleton.1 hb] at ht
    cases ht

theorem Bounds.abroad (he : e.Bounds g l) : e.abroad.Bounds h l :=
  ⟨he.sure, he.may, fun b hb v hv t ht =>
    (hv (he.may b hb v (by simp [SortedMap.contains, ht]))).elim⟩

theorem Bounds.firm (he : e.Bounds g l) {b : Binding} (hb : b ∈ l) {v : Var} (hv : v ∈ e.firm) :
    ∃ x ∈ g.nodes, b.get? v = some x := by
  obtain ⟨hs, hf⟩ := mem_diff.1 hv
  obtain ⟨x, hx⟩ := Option.isSome_iff_exists.1 (he.sure b hb v hs)
  exact ⟨x, he.inside b hb v hf x hx, hx⟩

theorem Bounds.join (he : e.Bounds g k) (hf : f.Bounds g l) :
    (e.join f).Bounds g (Rows.join k l) := by
  constructor
  · intro c hc v hv
    obtain ⟨a, ha, b, hb, hm⟩ := Rows.mem_join.1 hc
    rw [Binding.contains_merge hm, Bool.or_eq_true]
    exact (mem_union.1 hv).imp (he.sure a ha v) (hf.sure b hb v)
  · intro c hc v hv
    obtain ⟨a, ha, b, hb, hm⟩ := Rows.mem_join.1 hc
    rw [Binding.contains_merge hm, Bool.or_eq_true] at hv
    exact mem_union.2 (hv.imp (he.may a ha v) (hf.may b hb v))
  · intro c hc v hv t ht
    obtain ⟨a, ha, b, hb, hm⟩ := Rows.mem_join.1 hc
    by_cases hfirm : v ∈ union e.firm f.firm
    · -- One side is sure of a node, and the other side agrees.
      have hnode : ∃ x ∈ g.nodes, c.get? v = some x := by
        rcases mem_union.1 hfirm with hv | hv
        · obtain ⟨x, hx, hax⟩ := he.firm ha hv
          exact ⟨x, hx, Binding.get?_of_merge_left hm hax⟩
        · obtain ⟨x, hx, hbx⟩ := hf.firm hb hv
          exact ⟨x, hx, Binding.get?_of_merge_right hm hbx⟩
      obtain ⟨x, hx, hcx⟩ := hnode
      exact Option.some.inj (ht.symm.trans hcx) ▸ hx
    · have hnone : v ∉ union e.foreign f.foreign := fun hu => hv (mem_diff.2 ⟨hu, hfirm⟩)
      rcases Binding.get?_of_merge hm ht with hat | hbt
      · exact he.inside a ha v (fun hv => hnone (mem_union.2 (.inl hv))) t hat
      · exact hf.inside b hb v (fun hv => hnone (mem_union.2 (.inr hv))) t hbt

/-- A row of a left join is a left row or a merge. -/
theorem mem_leftJoin {fs : Functions} {exprs : List Expr} {c : Binding}
    (h : c ∈ Rows.leftJoin fs exprs k l) : c ∈ k ∨ c ∈ Rows.join k l := by
  obtain ⟨a, ha, hc⟩ := List.mem_flatMap.1 h
  unfold Rows.optionally at hc
  split at hc
  · exact .inl (List.mem_singleton.1 hc ▸ ha)
  · exact .inr (List.mem_flatMap.2 ⟨a, ha, List.mem_of_mem_filter hc⟩)

theorem Bounds.leftJoin (he : e.Bounds g k) (hf : f.Bounds g l) (fs : Functions)
    (exprs : List Expr) : (e.leftJoin f).Bounds g (Rows.leftJoin fs exprs k l) := by
  have hjoin := he.join hf
  constructor
  · intro c hc v hv
    rcases mem_leftJoin hc with hc | hc
    · exact he.sure c hc v hv
    · exact hjoin.sure c hc v (mem_union.2 (.inl hv))
  · intro c hc v hv
    rcases mem_leftJoin hc with hc | hc
    · exact mem_union.2 (.inl (he.may c hc v hv))
    · exact hjoin.may c hc v hv
  · intro c hc v hv
    rcases mem_leftJoin hc with hc | hc
    · -- A row without a match is a row of the left side only.
      refine he.inside c hc v fun hv' => hv (mem_diff.2 ⟨mem_union.2 (.inl hv'), fun hfirm => ?_⟩)
      exact (mem_diff.1 hfirm).2 hv'
    · refine hjoin.inside c hc v fun hv' => hv ?_
      obtain ⟨hu, hfirm⟩ := mem_diff.1 hv'
      exact mem_diff.2 ⟨hu, fun h => hfirm (mem_union.2 (.inl h))⟩

theorem Bounds.either (he : e.Bounds g k) (hf : f.Bounds g l) :
    (e.either f).Bounds g (k ++ l) := by
  constructor
  · intro b hb v hv
    obtain ⟨hve, hvf⟩ := mem_inter.1 hv
    exact (List.mem_append.1 hb).elim (fun hb => he.sure b hb v hve) fun hb => hf.sure b hb v hvf
  · intro b hb v hv
    exact mem_union.2 ((List.mem_append.1 hb).imp (fun hb => he.may b hb v hv)
      fun hb => hf.may b hb v hv)
  · intro b hb v hv
    rcases List.mem_append.1 hb with hb | hb
    · exact he.inside b hb v fun h => hv (mem_union.2 (.inl h))
    · exact hf.inside b hb v fun h => hv (mem_union.2 (.inr h))

theorem Bounds.project (he : e.Bounds g l) (vars : List Var) :
    (e.project vars).Bounds g (l.map (·.project vars)) := by
  constructor
  · intro b hb v hv
    obtain ⟨a, ha, rfl⟩ := List.mem_map.1 hb
    obtain ⟨hv, hm⟩ := mem_filter.1 hv
    exact (a.contains_project vars v).2 ⟨of_decide_eq_true hm, he.sure a ha v hv⟩
  · intro b hb v hv
    obtain ⟨a, ha, rfl⟩ := List.mem_map.1 hb
    obtain ⟨hm, hv⟩ := (a.contains_project vars v).1 hv
    exact mem_filter.2 ⟨he.may a ha v hv, decide_eq_true hm⟩
  · intro b hb v hv t ht
    obtain ⟨a, ha, rfl⟩ := List.mem_map.1 hb
    rw [Binding.get?_project] at ht
    split at ht
    · rename_i hm
      exact he.inside a ha v (fun h => hv (mem_filter.2 ⟨h, decide_eq_true hm⟩)) t ht
    · cases ht

/-- An assignment keeps what a row binds and binds one variable at most. -/
theorem get?_assignOne {fs : Functions} {b c : Binding} {a : Var × Expr}
    (h : Rows.assignOne fs b a = some c) (v : Var) (t : Term) :
    (b.get? v = some t → c.get? v = some t) ∧
      (c.get? v = some t → b.get? v = some t ∨ v = a.1) := by
  unfold Rows.assignOne at h
  split at h
  · rename_i u _
    refine ⟨Binding.get?_of_merge_left h, fun ht => (Binding.get?_of_merge h ht).imp_right ?_⟩
    intro hs
    rw [Binding.get?_single] at hs
    by_contra e
    rw [if_neg e] at hs
    cases hs
  · cases h
    exact ⟨id, .inl⟩

theorem get?_foldlM_assignOne {fs : Functions} {assignments : List (Var × Expr)} {b c : Binding}
    (h : assignments.foldlM (Rows.assignOne fs) b = some c) (v : Var) (t : Term) :
    (b.get? v = some t → c.get? v = some t) ∧
      (c.get? v = some t → b.get? v = some t ∨ v ∈ assignments.map (·.1)) := by
  induction assignments generalizing b with
  | nil =>
    cases h
    exact ⟨id, .inl⟩
  | cons a assignments ih =>
    obtain ⟨d, hd, hc⟩ := Option.bind_eq_some_iff.1 h
    obtain ⟨hkeep, hnew⟩ := get?_assignOne hd v t
    obtain ⟨hkeep', hnew'⟩ := ih hc
    refine ⟨fun hv => hkeep' (hkeep hv), fun hv => ?_⟩
    rw [List.map_cons, List.mem_cons]
    rcases hnew' hv with hv | hv
    · exact (hnew hv).imp_right .inl
    · exact .inr (.inr hv)

theorem Bounds.assign (he : e.Bounds g l) (fs : Functions) (assignments : List (Var × Expr)) :
    (e.assign (assignments.map (·.1))).Bounds g (Rows.assign fs assignments l) := by
  constructor
  · intro c hc v hv
    obtain ⟨b, hb, hc⟩ := List.mem_filterMap.1 hc
    obtain ⟨t, ht⟩ := Option.isSome_iff_exists.1 (he.sure b hb v hv)
    exact Option.isSome_iff_exists.2 ⟨t, (get?_foldlM_assignOne hc v t).1 ht⟩
  · intro c hc v hv
    obtain ⟨b, hb, hc⟩ := List.mem_filterMap.1 hc
    obtain ⟨t, ht⟩ := Option.isSome_iff_exists.1 hv
    rcases (get?_foldlM_assignOne hc v t).2 ht with hbt | hm
    · exact mem_addAll.2 (.inr (he.may b hb v (Option.isSome_iff_exists.2 ⟨t, hbt⟩)))
    · exact mem_addAll.2 (.inl hm)
  · intro c hc v hv t ht
    obtain ⟨b, hb, hc⟩ := List.mem_filterMap.1 hc
    rcases (get?_foldlM_assignOne hc v t).2 ht with hbt | hm
    · exact he.inside b hb v (fun h => hv (mem_addAll.2 (.inr h))) t hbt
    · exact (hv (mem_addAll.2 (.inl hm))).elim

end Extent

end SparqlAlgebra
