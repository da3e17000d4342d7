import SparqlAlgebra.Proofs.Rows.Apart

/-!
Matching a pattern over a row is the same as matching it over the empty row and merging the row
with what was found. The rows found over the empty row bind the variables of the pattern and no
others.
-/

namespace SparqlAlgebra

/-- A step that merges one row over the listed variables into each row it is given. -/
structure Binding.Merges (f : Binding → Option Binding) (vars : List Var) : Prop where
  merge : ∀ b, f b = (f ∅).bind b.merge
  contains : ∀ r, f ∅ = some r → ∀ v, r.contains v = true ↔ v ∈ vars

namespace Binding

/-- The step binds the listed variables and no others besides. -/
theorem Merges.contains_of {f : Binding → Option Binding} {vars : List Var} (h : Merges f vars)
    {b c : Binding} (hc : f b = some c) (v : Var) :
    c.contains v = true ↔ b.contains v = true ∨ v ∈ vars := by
  rw [h.merge] at hc
  obtain ⟨r, hr, hm⟩ := Option.bind_eq_some_iff.1 hc
  rw [contains_merge hm, Bool.or_eq_true, h.contains r hr]

theorem Merges.andThen {f g : Binding → Option Binding} {vars more : List Var}
    (hf : Merges f vars) (hg : Merges g more) :
    Merges (fun b => (f b).bind g) (vars ++ more) := by
  constructor
  · intro b
    -- Both steps merge one row or none, so this is the associativity of merging.
    rw [hf.merge b]
    cases hp : f ∅ with
    | none => rfl
    | some p =>
      cases hq : g ∅ with
      | none =>
        have hg' : g = fun _ => none := by
          funext x
          rw [hg.merge x, hq]
          rfl
        rw [hg']
        show (b.merge p).bind (fun _ => none) = none
        cases b.merge p <;> rfl
      | some q =>
        have hg' (x : Binding) : g x = x.merge q := by rw [hg.merge x, hq]; rfl
        simp only [Option.bind_some, hg']
        exact (funext hg' : g = fun x => x.merge q) ▸ merge_assoc b p q
  · intro r hr v
    obtain ⟨p, hp, hr⟩ := Option.bind_eq_some_iff.1 hr
    rw [hg.merge p] at hr
    obtain ⟨q, hq, hr⟩ := Option.bind_eq_some_iff.1 hr
    rw [contains_merge hr, Bool.or_eq_true, hf.contains p hp, hg.contains q hq, List.mem_append]

end Binding

namespace Slot

theorem merges_bind (slot : Slot) (t : Term) :
    Binding.Merges (slot.bind · t) slot.var?.toList := by
  cases slot with
  | term c =>
    constructor
    · intro b
      by_cases e : c = t <;> simp [bind, e]
    · intro r hr v
      by_cases e : c = t
      · simp only [bind, if_pos e, Option.some.injEq] at hr
        simp [← hr, var?, SortedMap.contains]
      · simp [bind, e] at hr
  | var w =>
    have hsingle : bind ∅ t (var w) = some (Binding.single w t) := rfl
    constructor
    · intro b
      rw [hsingle, Option.bind_some, Binding.merge_single]
      rfl
    · intro r hr v
      rw [hsingle] at hr
      cases hr
      rw [SortedMap.contains, Binding.get?_single]
      by_cases e : v = w <;> simp [var?, e]

/-- What a row fixes of a slot is what the slot can be bound to. -/
theorem resolve_eq_of_bind {slot : Slot} {b c : Binding} {s t : Term} (h : slot.bind b t = some c)
    (hs : slot.resolve b = some s) : s = t := by
  cases slot with
  | term k =>
    by_cases e : k = t
    · exact (Option.some.inj hs).symm.trans e
    · simp [bind, e] at h
  | var v =>
    have hv : b.get? v = some s := hs
    by_cases e : s = t
    · exact e
    · simp [bind, hv, e] at h

theorem resolve_of_bind {slot other : Slot} {b c : Binding} {s t : Term}
    (h : slot.bind b t = some c) (hs : other.resolve b = some s) : other.resolve c = some s := by
  cases other with
  | term k => exact hs
  | var v =>
    have hv : b.get? v = some s := hs
    rw [(merges_bind slot t).merge b] at h
    obtain ⟨r, -, hr⟩ := Option.bind_eq_some_iff.1 h
    show c.get? v = some s
    rw [(Binding.merge_eq_some_iff.1 hr).2, hv]
    rfl

/-- What a slot was bound to is what the row fixes of it. -/
theorem resolve_self_of_bind {slot : Slot} {b c : Binding} {t : Term}
    (h : slot.bind b t = some c) : slot.resolve c = some t := by
  cases slot with
  | term k =>
    by_cases e : k = t
    · exact congrArg some e
    · simp [bind, e] at h
  | var v =>
    rw [(merges_bind (var v) t).merge b] at h
    have hsingle : bind ∅ t (var v) = some (Binding.single v t) := rfl
    have hm : b.merge (Binding.single v t) = some c := by rwa [hsingle] at h
    exact Binding.get?_of_merge_right hm (by rw [Binding.get?_single, if_pos rfl])

/-- Variables at two ends that are nodes are bound to nodes. -/
theorem exists_node_of_ends {s o : Slot} {g : Graph} {b : Binding} {x y : Term}
    (hs : s.resolve b = some x) (ho : o.resolve b = some y) (hx : x ∈ g.nodes) (hy : y ∈ g.nodes)
    {v : Var} (hv : v ∈ [s, o].filterMap var?) : ∃ z ∈ g.nodes, b.get? v = some z := by
  obtain ⟨slot, hslot, hv⟩ := List.mem_filterMap.1 hv
  have hget : b.get? v = slot.resolve b := by
    cases slot with
    | term k => cases hv
    | var w => rw [← Option.some.inj hv, resolve]
  rcases List.mem_pair.1 hslot with rfl | rfl
  · exact ⟨x, hx, hget.trans hs⟩
  · exact ⟨y, hy, hget.trans ho⟩

theorem fits_of_bind {slot : Slot} {b c d : Binding} {t : Term} (h : slot.bind c t = some d)
    (hb : ∀ s, slot.resolve b = some s → slot.resolve c = some s) :
    Graph.fits (slot.resolve b) t = true := by
  cases hs : slot.resolve b with
  | none => rfl
  | some s => simp [Graph.fits, resolve_eq_of_bind h (hb s hs)]

end Slot

namespace TriplePattern

variable (p : TriplePattern)

theorem merges_bind (t : Triple) : Binding.Merges (p.bind · t) p.vars := by
  have h := (p.subject.merges_bind t.subject).andThen
    ((p.predicate.merges_bind t.predicate).andThen (p.object.merges_bind t.object))
  have hvars : p.vars =
      p.subject.var?.toList ++ (p.predicate.var?.toList ++ p.object.var?.toList) := by
    simp [vars, List.filterMap_eq_flatMap_toList]
  rw [hvars]
  exact h

theorem fits_of_bind {b c : Binding} {t : Triple} (h : p.bind b t = some c) :
    (Graph.fits (p.subject.resolve b) t.subject && Graph.fits (p.predicate.resolve b) t.predicate &&
      Graph.fits (p.object.resolve b) t.object) = true := by
  obtain ⟨x, hx, h⟩ := Option.bind_eq_some_iff.1 h
  obtain ⟨y, hy, h⟩ := Option.bind_eq_some_iff.1 h
  have hs := Slot.fits_of_bind hx fun s hs => hs
  have hp := Slot.fits_of_bind hy fun s hs => Slot.resolve_of_bind hx hs
  have ho := Slot.fits_of_bind h fun s hs => Slot.resolve_of_bind hy (Slot.resolve_of_bind hx hs)
  rw [hs, hp, ho]
  rfl

/-- Probing with what a row fixes loses no triple of the graph that extends the row. -/
theorem extend_eq (g : Graph) (b : Binding) : p.extend g b = g.toList.filterMap (p.bind b) := by
  rw [extend, Graph.find, List.filterMap_filter]
  refine List.filterMap_congr fun t _ => ?_
  cases h : p.bind b t with
  | none => simp
  | some c => rw [if_pos (p.fits_of_bind h)]

theorem extend_merge (g : Graph) (b : Binding) :
    p.extend g b = (p.extend g ∅).filterMap b.merge := by
  rw [extend_eq, extend_eq, List.filterMap_filterMap]
  exact List.filterMap_congr fun t _ => (p.merges_bind t).merge b

theorem contains_extend {g : Graph} {r : Binding} (h : r ∈ p.extend g ∅) (v : Var) :
    r.contains v = true ↔ v ∈ p.vars := by
  rw [extend_eq] at h
  obtain ⟨t, -, ht⟩ := List.mem_filterMap.1 h
  exact (p.merges_bind t).contains r ht v

variable {p} in
theorem resolve_of_bind {b c : Binding} {t : Triple} (h : p.bind b t = some c) :
    p.subject.resolve c = some t.subject ∧ p.predicate.resolve c = some t.predicate ∧
      p.object.resolve c = some t.object := by
  obtain ⟨x, hx, h⟩ := Option.bind_eq_some_iff.1 h
  obtain ⟨y, hy, h⟩ := Option.bind_eq_some_iff.1 h
  exact ⟨Slot.resolve_of_bind h (Slot.resolve_of_bind hy (Slot.resolve_self_of_bind hx)),
    Slot.resolve_of_bind h (Slot.resolve_self_of_bind hy), Slot.resolve_self_of_bind h⟩

/-- The row that a triple makes of the empty row makes out the triple. -/
theorem apart_extend (g : Graph) : Rows.Apart (p.extend g ∅) := by
  refine ⟨?_, fun a ha b hb v => ?_⟩
  · rw [extend_eq]
    refine List.pairwise_filterMap.2 ((SortedSet.nodup_toList g).imp fun hne x hx y hy hxy => hne ?_)
    obtain ⟨hs, hp, ho⟩ := resolve_of_bind hx
    obtain ⟨hs', hp', ho'⟩ := resolve_of_bind (hxy ▸ hy)
    have hsubject := Option.some.inj (hs.symm.trans hs')
    have hpredicate := Option.some.inj (hp.symm.trans hp')
    have hobject := Option.some.inj (ho.symm.trans ho')
    exact congr (congrArg₂ Triple.mk hsubject hpredicate) hobject
  · rw [Bool.eq_iff_iff, p.contains_extend ha, p.contains_extend hb]

/-- The variables in the places that only nodes of a graph fit. -/
def ends : List Var := [p.subject, p.object].filterMap Slot.var?

theorem exists_node_of_extend {g : Graph} {r : Binding} (h : r ∈ p.extend g ∅) {v : Var}
    (hv : v ∈ p.ends) : ∃ x ∈ g.nodes, r.get? v = some x := by
  rw [extend_eq] at h
  obtain ⟨t, ht, hr⟩ := List.mem_filterMap.1 h
  have ht : t ∈ g := SortedSet.mem_toList.1 ht
  obtain ⟨hs, -, ho⟩ := resolve_of_bind hr
  exact Slot.exists_node_of_ends hs ho (Graph.mem_nodes.2 ⟨t, ht, .inl rfl⟩)
    (Graph.mem_nodes.2 ⟨t, ht, .inr rfl⟩) hv

theorem flatMap_extend (g : Graph) (l : List Binding) :
    l.flatMap (p.extend g) = Rows.join l (p.extend g ∅) :=
  List.flatMap_congr fun b _ => p.extend_merge g b

end TriplePattern

namespace BasicPattern

/-- Extends rows by one triple pattern after the other. -/
def extend (p : BasicPattern) (g : Graph) (l : List Binding) : List Binding :=
  p.foldl (fun rows t => rows.flatMap (t.extend g)) l

@[simp] theorem extend_nil (g : Graph) (l : List Binding) : extend [] g l = l := rfl

theorem extend_cons (t : TriplePattern) (p : BasicPattern) (g : Graph) (l : List Binding) :
    extend (t :: p) g l = extend p g (l.flatMap (t.extend g)) := rfl

theorem extend_eq_join (p : BasicPattern) (g : Graph) (l : List Binding) :
    extend p g l = Rows.join l (extend p g [∅]) := by
  induction p generalizing l with
  | nil => exact (Rows.join_unit l).symm
  | cons t p ih =>
    calc extend (t :: p) g l
      _ = extend p g (Rows.join l (t.extend g ∅)) := by rw [extend_cons, t.flatMap_extend]
      _ = Rows.join (Rows.join l (t.extend g ∅)) (extend p g [∅]) := ih _
      _ = Rows.join l (Rows.join (t.extend g ∅) (extend p g [∅])) := Rows.join_assoc _ _ _
      _ = Rows.join l (extend p g (t.extend g ∅)) := by rw [← ih]
      _ = Rows.join l (extend (t :: p) g [∅]) := by
        rw [extend_cons, t.flatMap_extend, Rows.unit_join]

theorem extend_cons_unit (t : TriplePattern) (p : BasicPattern) (g : Graph) :
    extend (t :: p) g [∅] = Rows.join (t.extend g ∅) (extend p g [∅]) := by
  rw [extend_cons, extend_eq_join, t.flatMap_extend, Rows.unit_join]

theorem contains_extend {p : BasicPattern} {g : Graph} {r : Binding} (h : r ∈ extend p g [∅])
    (v : Var) : r.contains v = true ↔ v ∈ p.vars := by
  induction p generalizing r with
  | nil =>
    rw [extend_nil, List.mem_singleton] at h
    simp [h, vars, SortedMap.contains]
  | cons t p ih =>
    rw [extend_cons_unit] at h
    obtain ⟨a, ha, b, hb, hr⟩ := Rows.mem_join.1 h
    rw [Binding.contains_merge hr, Bool.or_eq_true, t.contains_extend ha, ih hb]
    simp [vars]

theorem apart_extend (p : BasicPattern) (g : Graph) : Rows.Apart (extend p g [∅]) := by
  induction p with
  | nil => exact Rows.apart_singleton ∅
  | cons t p ih =>
    rw [extend_cons_unit]
    exact (t.apart_extend g).join ih

/-- The variables in a place of some triple that only nodes of a graph fit. -/
def ends (p : BasicPattern) : List Var := p.flatMap TriplePattern.ends

theorem exists_node_of_extend {p : BasicPattern} {g : Graph} {r : Binding}
    (h : r ∈ extend p g [∅]) {v : Var} (hv : v ∈ p.ends) : ∃ x ∈ g.nodes, r.get? v = some x := by
  induction p generalizing r with
  | nil => cases hv
  | cons t p ih =>
    rw [extend_cons_unit] at h
    obtain ⟨a, ha, b, hb, hr⟩ := Rows.mem_join.1 h
    rw [ends, List.flatMap_cons, List.mem_append] at hv
    rcases hv with hv | hv
    · obtain ⟨x, hx, hax⟩ := t.exists_node_of_extend ha hv
      exact ⟨x, hx, Binding.get?_of_merge_left hr hax⟩
    · obtain ⟨x, hx, hbx⟩ := ih hb hv
      exact ⟨x, hx, Binding.get?_of_merge_right hr hbx⟩

end BasicPattern

end SparqlAlgebra
