import SparqlAlgebra.Proofs.Binding.Extends
import SparqlAlgebra.Proofs.Path.Extend
import SparqlAlgebra.Proofs.Stage.Build

/-!
The solutions of a basic pattern over a row: the rows that extend it by the variables of the pattern
and make every triple pattern a triple of the graph. Matching finds each of them once, so that the
order of the triple patterns does not count.

The solutions of a path pattern over a row are the merges of the row with the solutions that the
pattern has by itself, whichever end of the pattern the row fixes, unless the row strays: a walk of
length zero relates every term to itself, but a pattern that fixes neither of its ends tries the
nodes of the graph only.
-/

namespace SparqlAlgebra

namespace Slot

variable {slot : Slot} {b c m : Binding} {t : Term}

theorem resolve_of_extends (h : c.Extends b) (ht : slot.resolve b = some t) :
    slot.resolve c = some t := by
  cases slot with
  | term k => exact ht
  | var v => exact h v t ht

/-- A row in which the slot stands for a term is reached by binding the slot to the term. -/
theorem bind_of_extends (h : m.Extends b) (ht : slot.resolve m = some t) :
    ∃ c, slot.bind b t = some c ∧ m.Extends c := by
  cases slot with
  | term k =>
    have hk : k = t := Option.some.inj ht
    exact ⟨b, if_pos hk, h⟩
  | var v =>
    have hv : m.get? v = some t := ht
    cases hb : b.get? v with
    | some old =>
      have hold : old = t := Option.some.inj ((h v old hb).symm.trans hv)
      exact ⟨b, by simp [bind, hb, hold], h⟩
    | none =>
      refine ⟨b.insert v t, by simp [bind, hb], ?_⟩
      intro w u hw
      rw [SortedMap.get?_insert] at hw
      by_cases e : w = v
      · rw [if_pos e] at hw
        rw [e, hv, Option.some.inj hw]
      · rw [if_neg e] at hw
        exact h w u hw

end Slot

namespace TriplePattern

/-- The triple that comes of a pattern when its variables are replaced by what a row binds them to,
if it binds them all. -/
def instantiate (p : TriplePattern) (m : Binding) : Option Triple := do
  let s ← p.subject.resolve m
  let q ← p.predicate.resolve m
  let o ← p.object.resolve m
  return ⟨s, q, o⟩

variable {p : TriplePattern} {g : Graph} {b c m : Binding} {t : Triple}

theorem instantiate_eq_some_iff : p.instantiate m = some t ↔
    p.subject.resolve m = some t.subject ∧ p.predicate.resolve m = some t.predicate ∧
      p.object.resolve m = some t.object := by
  obtain ⟨s, q, o⟩ := t
  simp [instantiate, Option.bind_eq_some_iff]

theorem instantiate_of_extends (h : c.Extends b) (ht : p.instantiate b = some t) :
    p.instantiate c = some t := by
  obtain ⟨hs, hq, ho⟩ := instantiate_eq_some_iff.1 ht
  exact instantiate_eq_some_iff.2 ⟨Slot.resolve_of_extends h hs, Slot.resolve_of_extends h hq,
    Slot.resolve_of_extends h ho⟩

theorem instantiate_of_bind (h : p.bind b t = some c) : p.instantiate c = some t :=
  instantiate_eq_some_iff.2 (resolve_of_bind h)

theorem bind_of_extends (h : m.Extends b) (ht : p.instantiate m = some t) :
    ∃ c, p.bind b t = some c ∧ m.Extends c := by
  obtain ⟨hs, hq, ho⟩ := instantiate_eq_some_iff.1 ht
  obtain ⟨x, hx, hmx⟩ := Slot.bind_of_extends h hs
  obtain ⟨y, hy, hmy⟩ := Slot.bind_of_extends hmx hq
  obtain ⟨z, hz, hmz⟩ := Slot.bind_of_extends hmy ho
  refine ⟨z, ?_, hmz⟩
  simp [bind, hx, hy, hz]

theorem exists_mem_extend (h : m.Extends b) (ht : t ∈ g) (hm : p.instantiate m = some t) :
    ∃ c ∈ p.extend g b, m.Extends c := by
  obtain ⟨c, hc, hmc⟩ := bind_of_extends h hm
  refine ⟨c, ?_, hmc⟩
  rw [extend_eq]
  exact List.mem_filterMap.2 ⟨t, SortedSet.mem_toList.2 ht, hc⟩

end TriplePattern

namespace BasicPattern

/-- The row makes every triple pattern a triple of the graph. -/
def Holds (p : BasicPattern) (g : Graph) (m : Binding) : Prop :=
  ∀ t ∈ p, ∃ x ∈ g, t.instantiate m = some x

variable {p q : BasicPattern} {g : Graph} {b c m : Binding} {l : List Binding}

theorem Holds.extends (h : p.Holds g b) (hc : c.Extends b) : p.Holds g c := by
  intro t ht
  obtain ⟨x, hx, hb⟩ := h t ht
  exact ⟨x, hx, TriplePattern.instantiate_of_extends hc hb⟩

theorem holds_of_mem_extend (h : m ∈ extend p g [∅]) : p.Holds g m := by
  induction p generalizing m with
  | nil =>
    intro t ht
    cases ht
  | cons t p ih =>
    rw [extend_cons_unit] at h
    obtain ⟨a, ha, r, hr, hm⟩ := Rows.mem_join.1 h
    intro s hs
    rcases List.mem_cons.1 hs with rfl | hs
    · rw [TriplePattern.extend_eq] at ha
      obtain ⟨x, hx, hax⟩ := List.mem_filterMap.1 ha
      have hma : m.Extends a := Binding.extends_merge_left hm
      have hinst := TriplePattern.instantiate_of_bind hax
      exact ⟨x, SortedSet.mem_toList.1 hx, TriplePattern.instantiate_of_extends hma hinst⟩
    · have hrest : BasicPattern.Holds p g r := ih hr
      exact hrest.extends (Binding.extends_merge_right hm) s hs

/-- A row in which the pattern holds is reached from every row that it extends. -/
theorem exists_mem_extend (hp : p.Holds g m) (hb : b ∈ l) (hm : m.Extends b) :
    ∃ c ∈ extend p g l, m.Extends c := by
  induction p generalizing b l with
  | nil => exact ⟨b, hb, hm⟩
  | cons t p ih =>
    obtain ⟨x, hx, hinst⟩ := hp t List.mem_cons_self
    obtain ⟨c, hc, hmc⟩ := TriplePattern.exists_mem_extend hm hx hinst
    have hrest : BasicPattern.Holds p g m := fun s hs => hp s (List.mem_cons_of_mem t hs)
    rw [extend_cons]
    exact ih hrest (List.mem_flatMap.2 ⟨b, hb, hc⟩) hmc

theorem extend_singleton (p : BasicPattern) (g : Graph) (b : Binding) :
    extend p g [b] = (extend p g [∅]).filterMap b.merge := by
  rw [extend_eq_join, Rows.singleton_join]

theorem contains_of_mem_extend (h : m ∈ extend p g [b]) (v : Var) :
    m.contains v = true ↔ b.contains v = true ∨ v ∈ p.vars := by
  rw [extend_singleton] at h
  obtain ⟨r, hr, hm⟩ := List.mem_filterMap.1 h
  rw [Binding.contains_merge hm, Bool.or_eq_true, contains_extend hr]

theorem mem_extend_iff : m ∈ extend p g [b] ↔
    m.Extends b ∧ (∀ v, m.contains v = true ↔ b.contains v = true ∨ v ∈ p.vars) ∧
      p.Holds g m := by
  constructor
  · intro h
    have hdom := contains_of_mem_extend h
    rw [extend_singleton] at h
    obtain ⟨r, hr, hm⟩ := List.mem_filterMap.1 h
    have hhold : p.Holds g r := holds_of_mem_extend hr
    exact ⟨Binding.extends_merge_left hm, hdom, hhold.extends (Binding.extends_merge_right hm)⟩
  · rintro ⟨hb, hdom, hp⟩
    -- What matching reaches below `m` binds as many variables as `m`, so it is `m`.
    obtain ⟨c, hc, hmc⟩ := exists_mem_extend hp (List.mem_singleton.2 rfl) hb
    have heq : m = c := hmc.eq_of_contains fun v hv =>
      (contains_of_mem_extend hc v).2 ((hdom v).1 hv)
    exact heq ▸ hc

theorem nodup_extend (p : BasicPattern) (g : Graph) (b : Binding) : (extend p g [b]).Nodup := by
  have hp := apart_extend p g
  rw [extend_eq_join]
  exact (Rows.apart_singleton b).nodup_join hp.nodup fun _ _ v _ x hx y hy => hp.alike x hx y hy v

theorem extend_perm (h : q.Perm p) (g : Graph) (b : Binding) :
    (extend q g [b]).Perm (extend p g [b]) := by
  refine (List.perm_ext_iff_of_nodup (nodup_extend q g b) (nodup_extend p g b)).2 fun m => ?_
  have hvars (v : Var) : v ∈ q.vars ↔ v ∈ p.vars := (h.flatMap_right TriplePattern.vars).mem_iff
  have hholds : q.Holds g m ↔ p.Holds g m := forall_congr' fun t => by rw [h.mem_iff]
  simp only [mem_extend_iff, hvars, hholds]

end BasicPattern

/-- Matching a basic pattern over a row finds exactly the extensions of the row by the variables of
the pattern that make every triple pattern a triple of the active graph, each once and whatever the
order of the triple patterns. -/
theorem Context.solutions_bgp (ctx : Context) (p : BasicPattern) (b : Binding) :
    ∃ rows, ctx.solutions (.bgp p) (.rows [b]) = .ok rows ∧ rows.Nodup ∧
      (∀ m, m ∈ rows ↔ m.Extends b ∧ m.dom = b.dom.union (.ofList p.vars) ∧
        ∀ t ∈ p, ∃ x ∈ ctx.graph, t.instantiate m = some x) ∧
      ∀ q : BasicPattern, q.Perm p →
        ∃ other, ctx.solutions (.bgp q) (.rows [b]) = .ok other ∧ other.Perm rows := by
  have hrows (q : BasicPattern) :
      ctx.solutions (.bgp q) (.rows [b]) = .ok (q.extend ctx.graph [b]) :=
    solutions_eq (Compiled.gives_ok (Stage.emits_pattern q ctx.graph (Stage.emits_rows [b]))).counted
  have hdom (m : Binding) : m.dom = b.dom.union (.ofList p.vars) ↔
      ∀ v, m.contains v = true ↔ b.contains v = true ∨ v ∈ p.vars := by
    rw [SortedSet.ext_iff]
    simp only [SortedSet.mem_union, SortedSet.mem_ofList, Binding.mem_dom]
  refine ⟨p.extend ctx.graph [b], hrows p, p.nodup_extend ctx.graph b, fun m => ?_, fun q hq => ?_⟩
  · rw [hdom]
    exact BasicPattern.mem_extend_iff
  · exact ⟨_, hrows q, BasicPattern.extend_perm hq ctx.graph b⟩

/-- A variable that is shared by the triple patterns and repeated in one of them, over a row that
binds another one. -/
theorem Context.solutions_bgp_loop :
    let ctx := ofDataset ((({} : Dataset).addTriple ⟨.iri "a", .iri "p", .iri "b"⟩).addTriple
      ⟨.iri "b", .iri "p", .iri "b"⟩)
    let p : BasicPattern := [⟨.var ⟨"x"⟩, .term (.iri "p"), .var ⟨"y"⟩⟩,
      ⟨.var ⟨"y"⟩, .term (.iri "p"), .var ⟨"y"⟩⟩]
    let b : Binding := .single ⟨"x"⟩ (.iri "a")
    let m : Binding := .ofList [(⟨"x"⟩, .iri "a"), (⟨"y"⟩, .iri "b")]
    ∃ rows other, ctx.solutions (.bgp p) (.rows [b]) = .ok rows ∧ m ∈ rows ∧
      p.reverse.Perm p ∧ ctx.solutions (.bgp p.reverse) (.rows [b]) = .ok other ∧
      other.Perm rows := by
  intro ctx p b m
  have hreverse : p.reverse.Perm p := List.reverse_perm p
  obtain ⟨rows, hrows, -, hmem, hperm⟩ := solutions_bgp ctx p b
  obtain ⟨other, hother, hsame⟩ := hperm p.reverse hreverse
  have hm : m ∈ rows := by
    refine (hmem m).2 ⟨?_, by decide, ?_⟩
    · exact Binding.extends_merge_left (b := .single ⟨"y"⟩ (.iri "b")) (by decide)
    · intro t ht
      rcases List.mem_pair.1 ht with rfl | rfl
      · exact ⟨⟨.iri "a", .iri "p", .iri "b"⟩, by decide, by decide⟩
      · exact ⟨⟨.iri "b", .iri "p", .iri "b"⟩, by decide, by decide⟩
  exact ⟨rows, other, hrows, hm, hreverse, hother, hsame⟩

theorem Context.solutions_eq_extend (ctx : Context) (p : PathPattern) (b : Binding) :
    ctx.solutions (.path p) (.rows [b]) = .ok (p.extend ctx.graph b) := by
  have hrow : Stage.Emits false (.rows [b]) [b] none := Stage.emits_rows [b]
  have hemits := Stage.emits_path p ctx.graph hrow
  rw [List.flatMap_singleton] at hemits
  exact solutions_eq (Compiled.gives_ok hemits).counted

/-- Matching a path pattern over a row finds the merges of the row with what the pattern finds over
the empty row, as often and in some order, if and only if the row does not stray. -/
theorem Context.solutions_path (ctx : Context) (p : PathPattern) (b : Binding) :
    ∃ rows alone, ctx.solutions (.path p) (.rows [b]) = .ok rows ∧
      ctx.solutions (.path p) (.rows [∅]) = .ok alone ∧
      (rows.Perm (alone.filterMap b.merge) ↔ p.strays ctx.graph b = false) :=
  ⟨p.extend ctx.graph b, p.extend ctx.graph ∅, ctx.solutions_eq_extend p b,
    ctx.solutions_eq_extend p ∅, PathPattern.extend_merge_perm_iff⟩

/-- A row binds the start of a walk of length zero to a term outside the graph. -/
theorem Context.solutions_path_astray :
    let ctx := ofDataset {}
    let p : PathPattern := ⟨.var ⟨"x"⟩, .zeroOrOne (.link "p"), .var ⟨"y"⟩⟩
    let b : Binding := .single ⟨"x"⟩ (.iri "a")
    let c : Binding := .ofList [(⟨"x"⟩, .iri "a"), (⟨"y"⟩, .iri "a")]
    ctx.solutions (.path p) (.rows [b]) = .ok [c] ∧ ctx.solutions (.path p) (.rows [∅]) = .ok [] ∧
      ¬ [c].Perm (([] : List Binding).filterMap b.merge) := by
  intro ctx p b c
  rw [solutions_eq_extend, solutions_eq_extend]
  have hrows : p.extend ctx.graph b = [c] := by decide
  have halone : p.extend ctx.graph ∅ = [] := by decide
  exact ⟨congrArg Except.ok hrows, congrArg Except.ok halone, by simp⟩

end SparqlAlgebra
