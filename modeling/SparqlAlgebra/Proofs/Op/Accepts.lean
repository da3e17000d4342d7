import SparqlAlgebra.Proofs.Op.Apart
import SparqlAlgebra.Proofs.Stage.Unordered

/-!
Which rows an operator may be fed with. A fed row goes unnoticed inside an operator if, wherever
something looks at a variable that the row may bind, the rows there settle it by themselves. Then
feeding rows in below gives the same rows, up to their order, as joining them with what the operator
gives on its own, whatever is streamed and whatever is materialized.
-/

namespace SparqlAlgebra

/-- Whether fed rows cannot fix an end of a walk of length zero outside the graph. -/
def PathPattern.anchored (p : PathPattern) (fed : Extent) : Bool :=
  !p.adrift || p.vars.all (· ∉ fed.foreign)

namespace Op

open SortedSet

mutual

/-- Whether an operator may be fed with rows of an extent; if `far`, with rows that are apart. -/
def accepts (c : Config) : Op → (far : Bool) → (fed : Extent) → Bool
  | bgp _, _, _ => true
  | triple _, _, _ => true
  | quad q, _, _ => q.graph.isNone
  | path p, _, fed => p.anchored fed
  | join l r, far, fed =>
    accepts c l far fed &&
      -- A streaming join feeds the right side with the rows merged so far.
      if c.streamedJoins && joinStreams l r then accepts c r (far && l.apart) (fed.join l.extent)
      else accepts c r true {}
  | leftJoin l r exprs, far, fed =>
    accepts c l far fed &&
      l.extent.settles fed.may (r.extent.may.union (ofList (Expr.mentionsAll (exprs.getD [])))) &&
      -- A streaming left join does so row by row.
      if c.streamedLeftJoins && leftJoinStreams l r then accepts c r true (fed.join l.extent)
      else accepts c r true {}
  | union l r, _, fed => accepts c l true fed && accepts c r true fed
  | diff l r, far, fed =>
    accepts c l far fed && l.extent.settles fed.may r.extent.may && accepts c r true {}
  | filter exprs sub, far, fed =>
    accepts c sub far fed && sub.extent.settles fed.may (ofList (Expr.mentionsAll exprs))
  | graph name sub, _, fed => accepts c sub true (.upTo (addAll fed.may name.var?.toList))
  | table _, _, _ => true
  | sequence steps, far, fed => acceptsSteps c steps far fed
  | marker _, _, _ => true
  | label _ sub, far, fed => accepts c sub far fed
  | list sub, far, fed => accepts c sub far fed
  | null, _, _ => true
  | project kept sub, far, fed => accepts c sub far fed && fed.may.toList.all (· ∈ kept)
  | distinct sub, far, fed =>
    -- Fed rows that are not apart might be taken for duplicates.
    far && accepts c sub true fed && sub.extent.settles fed.may sub.extent.may
  | _, _, _ => false

/-- Whether steps may be fed with rows of an extent, each with the rows of the step before. -/
def acceptsSteps (c : Config) : List Op → (far : Bool) → (fed : Extent) → Bool
  | [], _, _ => true
  | op :: rest, far, fed =>
    accepts c op far fed &&
      acceptsSteps c rest (far && op.apart) (fed.join op.extent)

end

theorem accepts_of_mem_branches {c : Config} {fed : Extent} {op : Op}
    (h : op.accepts c true fed = true) : ∀ b ∈ op.branches, b.accepts c true fed = true :=
  forall_mem_branches (fun _ _ h => Bool.and_eq_true_iff.1 h) h

/-- Rows that the operator accepts may be fed in below instead of being joined in above. -/
def Seeds (op : Op) : Prop :=
  ∀ {ctx : Context} {far : Bool} {fed : Extent} {input : Stage} {l : List Binding},
    op.accepts ctx.config far fed = true → fed.Bounds ctx.graph l → (far = true → Rows.Apart l) →
    input.EmitsBag l →
    (compile ctx op input).GivesBag (Rows.join l (op.bag ctx.dataset ctx.functions ctx.graph))

variable {sub : Op}

theorem Seeds.root (h : sub.Seeds) {ctx : Context} (ha : sub.accepts ctx.config true {} = true) :
    (compile ctx sub .root).GivesBag (sub.bag ctx.dataset ctx.functions ctx.graph) := by
  have hr := h ha (Extent.bounds_unit _) (fun _ => Rows.apart_singleton ∅) Stage.emits_root.bag
  rwa [Rows.unit_join] at hr

theorem Seeds.alone (h : sub.Seeds) (ctx : Context) {fed : Extent} {b : Binding}
    (ha : sub.accepts ctx.config true fed = true) (hb : fed.Bounds ctx.graph [b]) :
    (compile ctx sub (.rows [b])).GivesBag
      ((sub.bag ctx.dataset ctx.functions ctx.graph).filterMap b.merge) := by
  have hr := h ha hb (fun _ => Rows.apart_singleton b) (Stage.emitsBag_rows [b])
  rwa [Rows.singleton_join] at hr

end Op

namespace Extent

variable {e f fed : Extent} {g : Graph} {k l r : List Binding} {fs : Functions} {exprs : List Expr}

/-- What fed rows share with what is looked at, settled rows bind already. -/
theorem Bounds.settled {looked : SortedSet Var} (he : e.Bounds g k) (hf : fed.Bounds g l)
    (hs : e.settles fed.may looked = true) {i a : Binding} (hi : i ∈ l) (ha : a ∈ k) {v : Var}
    (hv : i.contains v = true) (hl : v ∈ looked) : a.contains v = true :=
  he.sure a ha v (settles_iff.1 hs v (hf.may i hi v hv) hl)

theorem Bounds.filter_join (he : e.Bounds g k) (hf : fed.Bounds g l)
    (hs : e.settles fed.may (.ofList (Expr.mentionsAll exprs)) = true) :
    (Rows.join l k).filter (Expr.allHold fs exprs) =
      Rows.join l (k.filter (Expr.allHold fs exprs)) := by
  apply Rows.filter_join
  intro i hi a ha v hm hv
  exact he.settled hf hs hi ha hv (SortedSet.mem_ofList.2 hm)

theorem Bounds.leftJoin_join (he : e.Bounds g k) (hf : fed.Bounds g l) (hr : f.Bounds g r)
    (hs : e.settles fed.may (f.may.union (.ofList (Expr.mentionsAll exprs))) = true) :
    Rows.leftJoin fs exprs (Rows.join l k) r = Rows.join l (Rows.leftJoin fs exprs k r) := by
  apply Rows.leftJoin_join
  · intro i hi a ha b hb v hv hbv
    exact he.settled hf hs hi ha hv (SortedSet.mem_union.2 (.inl (hr.may b hb v hbv)))
  · intro i hi a ha v hm hv
    exact he.settled hf hs hi ha hv (SortedSet.mem_union.2 (.inr (SortedSet.mem_ofList.2 hm)))

theorem Bounds.diff_join (he : e.Bounds g k) (hf : fed.Bounds g l) (hr : f.Bounds g r)
    (hs : e.settles fed.may f.may = true) :
    Rows.diff (Rows.join l k) r = Rows.join l (Rows.diff k r) := by
  apply Rows.diff_join
  intro i hi a ha b hb v hv hbv
  exact he.settled hf hs hi ha hv (hr.may b hb v hbv)

/-- Duplicates may be removed first where fed rows are apart and all rows settle alike what the fed
rows bind. -/
theorem Bounds.firsts_join (he : e.Bounds g k) (hf : fed.Bounds g l) (hl : Rows.Apart l)
    (hs : e.settles fed.may e.may = true) :
    (Rows.firsts [] (Rows.join l k)).Perm (Rows.join l (Rows.firsts [] k)) := by
  apply hl.firsts_join
  intro i hi v hv a ha b hb
  rw [Bool.eq_iff_iff]
  constructor
  · exact fun hav => he.settled hf hs hi hb hv (he.may a ha v hav)
  · exact fun hbv => he.settled hf hs hi ha hv (he.may b hb v hbv)

/-- Fed rows bind the ends of an anchored path to nodes only. -/
theorem Bounds.mem_nodes_of_anchored {p : PathPattern} (hf : fed.Bounds g l)
    (ha : p.anchored fed = true) {b : Binding} (hb : b ∈ l) (hp : p.adrift = true) {x : Term}
    (hx : p.subject.resolve b = some x ∨ p.object.resolve b = some x) : x ∈ g.nodes := by
  rw [PathPattern.anchored, hp, Bool.not_true, Bool.false_or, List.all_eq_true] at ha
  obtain ⟨-, hs, ho⟩ := PathPattern.adrift_iff.1 hp
  have hend {slot : Slot} (hslot : slot ∈ [p.subject, p.object]) (hn : slot.resolve ∅ = none)
      (hx : slot.resolve b = some x) : x ∈ g.nodes := by
    cases slot with
    | term t => cases hn
    | var v =>
      have hv : v ∈ p.vars := List.mem_filterMap.2 ⟨.var v, hslot, rfl⟩
      exact hf.inside b hb v (of_decide_eq_true (ha v hv)) x hx
  rcases hx with hx | hx
  · exact hend (by simp) hs hx
  · exact hend (by simp) ho hx

end Extent

end SparqlAlgebra
