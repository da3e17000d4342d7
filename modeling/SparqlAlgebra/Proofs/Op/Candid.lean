import SparqlAlgebra.Proofs.Op.Certain
import SparqlAlgebra.Proofs.Op.Transcript

/-!
When the scope is right about fixed variables. It promises too much where a table declares a
variable that one of its rows leaves open, where an assigned expression, an aggregate or a grouping
variable has no value, and where rows lose what they were fed with, the name of a graph or the
variables of a left row. Nowhere else does it: without these, every fixed variable is bound in every
row.
-/

namespace SparqlAlgebra

theorem RowRule.subset_assigned (fs : Functions) (S : Set Var) (assignments : List (Var × Expr)) :
    S ⊆ assigned fs S assignments := by
  induction assignments generalizing S with
  | nil => exact subset_rfl
  | cons a rest ih => exact Set.subset_union_left.trans (ih _)

namespace Op

/-- Over rows that bind the variables of `fed`, the scope promises no more than is certain. Where an
operator fixes variables of its own they have to be certain, and where rows are fed into a right
side it has to keep what the left side fixes. -/
def Candid (c : Config) (fs : Functions) : Op → Set Var → Prop
  | bgp _, _ => True
  | triple _, _ => True
  | path _, _ => True
  | join l r, fed =>
    Candid c fs l fed ∧
      if c.streamedJoins && joinStreams l r then
        Candid c fs r (l.certain c fs fed) ∧
          ∀ v ∈ l.scope.fixed, v ∈ r.certain c fs (l.certain c fs fed)
      else Candid c fs r ∅
  | leftJoin l r _, fed =>
    Candid c fs l fed ∧ ((c.streamedLeftJoins && leftJoinStreams l r) = true →
      ∀ v ∈ l.scope.fixed, v ∈ r.certain c fs (l.certain c fs fed))
  | union l r, fed => Candid c fs l fed ∧ Candid c fs r fed
  | diff l _, fed => Candid c fs l fed
  | filter _ sub, fed => Candid c fs sub fed
  | graph name sub, fed =>
    Candid c fs sub (fed ∪ {v | name = .var v}) ∧
      ∀ v, name = .var v → v ∈ (graph name sub).certain c fs fed
  | table t, fed => ∀ v ∈ t.vars, v ∈ (table t).certain c fs fed
  | marker _, _ => True
  | label _ sub, fed => Candid c fs sub fed
  | list sub, fed => Candid c fs sub fed
  | null, _ => True
  | project _ sub, fed => Candid c fs sub fed
  | order _ sub, fed => Candid c fs sub fed
  | slice _ _ sub, fed => Candid c fs sub fed
  | distinct sub, fed => Candid c fs sub fed
  | reduced sub, fed => Candid c fs sub fed
  | group vars aggs sub, fed =>
    ∀ v ∈ vars ++ aggs.map (·.var), v ∈ (group vars aggs sub).certain c fs fed
  | assign assignments sub, fed =>
    Candid c fs sub fed ∧ ∀ a ∈ assignments, a.1 ∈ (assign assignments sub).certain c fs fed
  | _, _ => False

variable {c : Config} {fs : Functions} {fed : Set Var} {l r sub : Op}

theorem Candid.certain_join (h : (join l r).Candid c fs fed)
    (hl : ∀ v ∈ l.scope.fixed, v ∈ l.certain c fs fed)
    (hr : ∀ {fed}, r.Candid c fs fed → ∀ v ∈ r.scope.fixed, v ∈ r.certain c fs fed) :
    ∀ v ∈ (join l r).scope.fixed, v ∈ (join l r).certain c fs fed := by
  intro v hv
  obtain ⟨-, h⟩ := h
  rw [certain]
  by_cases hfed : (c.streamedJoins && joinStreams l r) = true
  · rw [if_pos hfed] at h ⊢
    exact (SortedSet.mem_union.1 hv).elim (h.2 v) (hr h.1 v)
  · rw [if_neg hfed] at h ⊢
    exact (SortedSet.mem_union.1 hv).imp (hl v) (hr h v)

theorem Candid.certain_leftJoin {exprs : Option (List Expr)}
    (h : (leftJoin l r exprs).Candid c fs fed) (hl : ∀ v ∈ l.scope.fixed, v ∈ l.certain c fs fed) :
    ∀ v ∈ (leftJoin l r exprs).scope.fixed, v ∈ (leftJoin l r exprs).certain c fs fed := by
  intro v hv
  rw [certain]
  split
  · rename_i hfed
    exact ⟨hl v hv, h.2 hfed v hv⟩
  · exact hl v hv

/-- Where the operator is candid, all that its scope fixes is certain. -/
theorem Candid.certain {op : Op} (h : op.Candid c fs fed) :
    ∀ v ∈ op.scope.fixed, v ∈ op.certain c fs fed := by
  induction op using operands_induction generalizing fed with
  | step op ih =>
    have ih (sub : Op) (hs : sub ∈ op.operands) {fed : Set Var} (h : sub.Candid c fs fed) :
        ∀ v ∈ sub.scope.fixed, v ∈ sub.certain c fs fed := ih sub hs h
    cases op with
    | join l r =>
      exact h.certain_join (ih l (by simp [operands]) h.1) (ih r (by simp [operands]))
    | leftJoin l r exprs => exact h.certain_leftJoin (ih l (by simp [operands]) h.1)
    | union l r =>
      intro v hv
      obtain ⟨hl, hr⟩ := SortedSet.mem_inter.1 hv
      exact ⟨ih l (by simp [operands]) h.1 v hl, ih r (by simp [operands]) h.2 v hr⟩
    | diff l r => exact ih l (by simp [operands]) h
    | filter exprs sub => exact ih sub (by simp [operands]) h
    | graph name sub =>
      intro v hv
      rcases SortedSet.mem_addAll.1 hv with hv | hv
      · refine h.2 v ?_
        cases name with
        | var w => rw [List.mem_singleton.1 hv]
        | term t => cases hv
      · exact ih sub (by simp [operands]) h.1 v hv
    | table t => exact fun v hv => h v (SortedSet.mem_ofList.1 hv)
    | group vars aggs sub => exact fun v hv => h v (SortedSet.mem_ofList.1 hv)
    | assign assignments sub =>
      intro v hv
      rcases SortedSet.mem_addAll.1 hv with hv | hv
      · obtain ⟨a, ha, rfl⟩ := List.mem_map.1 hv
        exact h.2 a ha
      · exact RowRule.subset_assigned _ _ _ (ih sub (by simp [operands]) h.1 v hv)
    | project vars sub =>
      intro v hv
      obtain ⟨hv, hk⟩ := SortedSet.mem_filter.1 hv
      exact ⟨of_decide_eq_true hk, ih sub (by simp [operands]) h v hv⟩
    | bgp p => exact fun v hv => .inr (SortedSet.mem_ofList.1 hv)
    | triple t => exact fun v hv => .inr (SortedSet.mem_ofList.1 hv)
    | path p => exact fun v hv => .inr (SortedSet.mem_ofList.1 hv)
    | marker name => exact fun v hv => (SortedSet.not_mem_empty hv).elim
    | null => exact fun v hv => (SortedSet.not_mem_empty hv).elim
    | label name sub => exact ih sub (by simp [operands]) h
    | list sub => exact ih sub (by simp [operands]) h
    | order keys sub => exact ih sub (by simp [operands]) h
    | slice offset length sub => exact ih sub (by simp [operands]) h
    | distinct sub => exact ih sub (by simp [operands]) h
    | reduced sub => exact ih sub (by simp [operands]) h
    | _ => cases h

end Op

namespace Context

open Binding

variable {ctx : Context} {op : Op} {s : Stage} {c : Binding} {n : Nat}

/-- Whatever a plan shows binds all variables that are certain, and all that the scope fixes if the
operator is candid. A run of more steps than an integer counts may lose the value of a count. -/
theorem mem_dom_of_yieldsIn (hs : (compile ctx op .root).result = .ok s) (hn : n < 2 ^ 63)
    (hc : s.YieldsIn n c) :
    (∀ v ∈ op.certain ctx.config ctx.functions ∅, v ∈ c.dom) ∧
      (op.Candid ctx.config ctx.functions ∅ → ∀ v ∈ op.scope.fixed, v ∈ c.dom) := by
  have hmeets := op.ensures hn (Op.builds_of_compile hs) (Stage.meets_root n) c hc
  have hcertain : ∀ v ∈ op.certain ctx.config ctx.functions ∅, v ∈ c.dom :=
    fun v hv => mem_dom.2 (hmeets v hv)
  exact ⟨hcertain, fun h v hv => hcertain v (h.certain v hv)⟩

/-- The part of the clause groups by the name of the graph, so that its row keeps it and the sample
and the assignment have a value. -/
theorem mem_dom_of_yieldsIn_graph :
    let ctx := ofDataset (({} : Dataset).addNamedTriple (.iri "g") ⟨.iri "a", .iri "p", .iri "b"⟩)
    let op : Op := .graph (.var ⟨"g"⟩) (.assign [(⟨"y"⟩, .var ⟨"g"⟩)]
      (.group [⟨"g"⟩] [⟨⟨"m"⟩, .sample (.var ⟨"g"⟩)⟩] (.bgp [])))
    let c : Binding :=
      ((Binding.single ⟨"g"⟩ (.iri "g")).insert ⟨"m"⟩ (.iri "g")).insert ⟨"y"⟩ (.iri "g")
    ∃ s, (compile ctx op .root).result = .ok s ∧ s.YieldsIn 5 c ∧
      op.Candid ctx.config ctx.functions ∅ ∧ op.scope.fixed.toList = [⟨"g"⟩, ⟨"m"⟩, ⟨"y"⟩] ∧
      (∀ v ∈ op.certain ctx.config ctx.functions ∅, v ∈ c.dom) ∧
      ∀ v ∈ op.scope.fixed, v ∈ c.dom := by
  intro ctx op c
  let grouped : Op := .group [⟨"g"⟩] [⟨⟨"m"⟩, .sample (.var ⟨"g"⟩)⟩] (.bgp [])
  let fed : Set Var := ∅ ∪ {v | Slot.var ⟨"g"⟩ = .var v}
  let part : Op := .assign [(⟨"y"⟩, .var ⟨"g"⟩)] grouped
  have hs : (compile ctx op .root).result = .ok (.each (.graph (.var ⟨"g"⟩) part ctx) .root) := rfl
  have hc : Stage.YieldsIn 5 (.each (.graph (.var ⟨"g"⟩) part ctx) .root) c := by
    apply Stage.YieldsIn.later false ⟨rfl, rfl⟩
    apply Stage.YieldsIn.later false ⟨rfl, rfl⟩
    apply Stage.YieldsIn.later false ⟨rfl, rfl⟩
    apply Stage.YieldsIn.later false ⟨rfl, rfl⟩
    exact Stage.YieldsIn.here false ⟨rfl, rfl⟩
  have hfed : ⟨"g"⟩ ∈ fed := .inr rfl
  have hkey : ⟨"g"⟩ ∈ grouped.certain ctx.config ctx.functions fed :=
    .inl ⟨List.mem_singleton.2 rfl, .inl hfed⟩
  have hsample : ⟨"m"⟩ ∈ grouped.certain ctx.config ctx.functions fed :=
    .inr ⟨_, List.mem_singleton.2 rfl, rfl,
      Aggregator.certain_pick (List.cons_ne_nil _ _) (Expr.certain_var (.inl hfed)) (.inl rfl)⟩
  have hcandid : op.Candid ctx.config ctx.functions ∅ := by
    refine ⟨⟨?_, ?_⟩, ?_⟩
    · exact List.forall_mem_cons.2 ⟨hkey, List.forall_mem_singleton.2 hsample⟩
    · exact List.forall_mem_singleton.2 (.inr ⟨rfl, Expr.certain_var hkey⟩)
    · rintro v ⟨⟩
      exact .inl hkey
  obtain ⟨hcertain, hfixed⟩ := mem_dom_of_yieldsIn hs (by decide) hc
  exact ⟨_, hs, hc, hcandid, rfl, hcertain, hfixed hcandid⟩

/-- What the scope fixes need not be bound: by a table, an assignment, a grouping, in a graph clause
whose part drops the name, and in a join that feeds its left rows into a projection. -/
theorem fixed_not_mem_dom :
    let x : Var := ⟨"x"⟩
    let y : Var := ⟨"y"⟩
    let b : Binding := .single x (.iri "1")
    let d : Binding := .single y (.iri "2")
    let named := ({} : Dataset).addNamedTriple (.iri "g") ⟨.iri "a", .iri "p", .iri "b"⟩
    let loses (ctx : Context) (op : Op) (l : List Binding) (v : Var) : Prop :=
      ctx.solutions op .root = .ok l ∧ v ∈ op.scope.fixed ∧ ∃ c ∈ l, v ∉ c.dom
    loses (ofDataset {}) (.table (.ofRows [b, d])) [b, d] y ∧
      loses (ofDataset {}) (.assign [(y, .var x)] (.bgp [])) [∅] y ∧
      loses (ofDataset {}) (.group [y] [] (.bgp [])) [∅] y ∧
      loses (ofDataset named) (.graph (.var x) (.project [y] (.bgp []))) [∅] x ∧
      loses (ofDataset {}) (.join (.table (.ofRows [b]))
        (.filter [.bound y] (.project [y] (.table (.ofRows [d]))))) [d] x := by
  intro x y b d named loses
  have hrows (ctx : Context) (op : Op) : ctx.solutions op .root =
      (op.transcript ctx { rows := [∅] }).bind Transcript.result :=
    (solutions_eq_transcript op .root).trans (by rw [Stage.transcript_root])
  have hfed : Op.joinStreams (.table (.ofRows [b]))
      (.filter [.bound y] (.project [y] (.table (.ofRows [d])))) = true := by decide
  refine ⟨⟨?_, by decide, b, by simp, by decide⟩, ⟨?_, by decide, ∅, by simp, by decide⟩,
    ⟨?_, by decide, ∅, by simp, by decide⟩, ⟨?_, by decide, ∅, by simp, by decide⟩,
    ⟨?_, by decide, d, by simp, by decide⟩⟩
  · exact (hrows _ _).trans rfl
  · exact (hrows _ _).trans rfl
  · exact (hrows _ _).trans rfl
  · exact (hrows _ _).trans (congrArg Except.ok (by decide))
  · rw [hrows, Op.transcript, hfed]
    exact congrArg Except.ok (by decide)

end Context

end SparqlAlgebra
