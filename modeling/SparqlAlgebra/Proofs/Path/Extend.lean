import Mathlib.Algebra.BigOperators.Group.List.Basic
import Mathlib.Data.List.Count
import SparqlAlgebra.Proofs.Path.Ends

/-!
Matching a path pattern over a row, against matching it over the empty row and merging the row with
what was found: the same rows come out, though not in the same order when the row fixes the end of
the path but not its start. A row finds more only if it strays, that is if it fixes an end of a walk
of length zero outside the graph.
-/

namespace SparqlAlgebra

namespace PathPattern

/-- Lists that count alike what `f` is defined on have the same images. -/
theorem filterMap_perm_of_count {α β : Type} [BEq α] [LawfulBEq α] {f : α → Option β}
    {k l : List α} (h : ∀ x, (f x).isSome → k.count x = l.count x) :
    (k.filterMap f).Perm (l.filterMap f) := by
  have hf (m : List α) : m.filterMap f = (m.filter fun x => (f x).isSome).filterMap f := by
    rw [List.filterMap_filter]
    refine List.filterMap_congr fun x _ => ?_
    cases f x <;> rfl
  rw [hf k, hf l]
  refine List.Perm.filterMap f (List.perm_iff_count.2 fun x => ?_)
  by_cases hx : (f x).isSome
  · have hc (m : List α) : (m.filter fun x => (f x).isSome).count x = m.count x :=
      List.count_filter hx
    rw [hc, hc, h x hx]
  · have hn (m : List α) : (m.filter fun x => (f x).isSome).count x = 0 :=
      List.count_eq_zero_of_not_mem fun hm => hx (List.mem_filter.1 hm).2
    rw [hn, hn]

variable (p : PathPattern)

/-- Extends a row by the two ends of a walk. -/
def bind (b : Binding) (e : Term × Term) : Option Binding :=
  (p.subject.bind b e.1).bind fun c => p.object.bind c e.2

theorem extend_eq (g : Graph) (b : Binding) : p.extend g b = (p.pairs g b).filterMap (p.bind b) :=
  rfl

theorem merges_bind (e : Term × Term) : Binding.Merges (p.bind · e) p.vars := by
  have h := (p.subject.merges_bind e.1).andThen (p.object.merges_bind e.2)
  have hvars : p.vars = p.subject.var?.toList ++ p.object.var?.toList := by
    simp [vars, List.filterMap_eq_flatMap_toList]
  rw [hvars]
  exact h

theorem contains_extend {g : Graph} {r : Binding} (h : r ∈ p.extend g ∅) (v : Var) :
    r.contains v = true ↔ v ∈ p.vars := by
  rw [extend_eq] at h
  obtain ⟨e, -, he⟩ := List.mem_filterMap.1 h
  exact (p.merges_bind e).contains r he v

variable {p} {g : Graph} {b : Binding} {s o : Term}

theorem ends_of_bind (h : (p.bind b (s, o)).isSome) :
    (∀ x, p.subject.resolve b = some x → x = s) ∧ ∀ x, p.object.resolve b = some x → x = o := by
  obtain ⟨c, hc⟩ := Option.isSome_iff_exists.1 h
  obtain ⟨d, hd, hc⟩ := Option.bind_eq_some_iff.1 hc
  exact ⟨fun x hx => Slot.resolve_eq_of_bind hd hx,
    fun x hx => Slot.resolve_eq_of_bind hc (Slot.resolve_of_bind hd hx)⟩

theorem count_from (s t o : Term) (l : List Term) :
    (l.map (t, ·)).count (s, o) = if t = s then l.count o else 0 := by
  split
  · rename_i e
    rw [e]
    exact List.count_map_of_injective l _ (fun _ _ h => (Prod.mk.inj h).2) o
  · rename_i e
    refine List.count_eq_zero_of_not_mem fun h => ?_
    obtain ⟨_, -, hx⟩ := List.mem_map.1 h
    exact e (Prod.mk.inj hx).1

/-- The walks from every node of the graph hold each pair as often as there are walks between them,
but for a walk of length zero outside the graph. -/
theorem count_everywhere (p : Path) (g : Graph) (s o : Term)
    (h : p.nullable = true → s = o → s ∈ g.nodes) :
    (g.nodes.flatMap fun t => (p.ends g true t).map (t, ·)).count (s, o) =
      (p.ends g true s).count o := by
  have hother : ∀ t ≠ s, t ∈ g.nodes →
      (List.count (s, o) ∘ fun t => (p.ends g true t).map (t, ·)) t = 0 := fun t ht _ => by
    rw [Function.comp, count_from, if_neg ht]
  -- Only the walks from `s` itself count, once if `s` is a node and not at all otherwise.
  rw [List.count_flatMap, List.sum_map_eq_nsmul_single s _ hother, Function.comp, count_from,
    if_pos rfl]
  by_cases hs : s ∈ g.nodes
  · rw [List.count_eq_one_of_mem (Graph.nodup_nodes g) hs, one_nsmul]
  · rw [List.count_eq_zero_of_not_mem hs, zero_nsmul]
    refine (List.count_eq_zero_of_not_mem fun ho => ?_).symm
    rcases Path.stays_of_mem_ends ho with ⟨hn, e⟩ | ⟨hs', -⟩
    · exact hs (h hn e.symm)
    · exact hs hs'

/-- Whatever a row fixes of the ends, the pairs it finds hold each walk it admits equally often. -/
theorem count_pairs (h : (p.bind b (s, o)).isSome)
    (hn : p.path.nullable = true → p.subject.resolve b = none → p.object.resolve b = none →
      s = o → s ∈ g.nodes) :
    (p.pairs g b).count (s, o) = (p.path.ends g true s).count o := by
  obtain ⟨hs, ho⟩ := ends_of_bind h
  unfold pairs
  split
  · rename_i t hsub
    rw [hs _ hsub, count_from, if_pos rfl]
  · rename_i t hsub hobj
    rw [ho t hobj, List.count_map_of_injective _ _ fun _ _ e => (Prod.mk.inj e).1, Path.count_ends]
  · rename_i hsub hobj
    exact count_everywhere p.path g s o fun hp => hn hp hsub hobj

variable (p) in
/-- Whether the pattern fixes neither end of walks that may have length zero. -/
def adrift : Bool :=
  p.path.nullable && (p.subject.resolve ∅).isNone && (p.object.resolve ∅).isNone

theorem adrift_iff : p.adrift = true ↔
    p.path.nullable = true ∧ p.subject.resolve ∅ = none ∧ p.object.resolve ∅ = none := by
  simp [adrift, and_assoc]

theorem resolve_empty {slot : Slot} (h : slot.resolve b = none) : slot.resolve ∅ = none := by
  cases slot with
  | var v => rfl
  | term t => exact h

/-- Walks stay inside the graph, unless one of length zero starts or ends at a fixed term. -/
theorem mem_nodes_of_pairs (hn : p.path.nullable = true → p.adrift = true)
    (h : (s, o) ∈ p.pairs g ∅) : s ∈ g.nodes ∧ o ∈ g.nodes := by
  unfold pairs at h
  split at h
  · rename_i t hsub
    obtain ⟨y, hy, he⟩ := List.mem_map.1 h
    obtain ⟨rfl, rfl⟩ := Prod.mk.inj he
    refine (Path.stays_of_mem_ends hy).resolve_left fun hz => ?_
    have hfree := (adrift_iff.1 (hn hz.1)).2.1
    rw [hsub] at hfree
    cases hfree
  · rename_i t _ hobj
    obtain ⟨y, hy, he⟩ := List.mem_map.1 h
    obtain ⟨rfl, rfl⟩ := Prod.mk.inj he
    refine ((Path.stays_of_mem_ends hy).resolve_left fun hz => ?_).symm
    have hfree := (adrift_iff.1 (hn hz.1)).2.2
    rw [hobj] at hfree
    cases hfree
  · obtain ⟨t, ht, h⟩ := List.mem_flatMap.1 h
    obtain ⟨y, hy, he⟩ := List.mem_map.1 h
    obtain ⟨rfl, rfl⟩ := Prod.mk.inj he
    rcases Path.stays_of_mem_ends hy with ⟨-, rfl⟩ | hst
    · exact ⟨ht, ht⟩
    · exact hst

theorem exists_node_of_extend (hn : p.path.nullable = true → p.adrift = true) {r : Binding}
    (h : r ∈ p.extend g ∅) {v : Var} (hv : v ∈ p.vars) : ∃ x ∈ g.nodes, r.get? v = some x := by
  rw [extend_eq] at h
  obtain ⟨⟨s, o⟩, he, hr⟩ := List.mem_filterMap.1 h
  obtain ⟨hs, ho⟩ := mem_nodes_of_pairs hn he
  obtain ⟨c, hc, hr⟩ := Option.bind_eq_some_iff.1 hr
  have hsub : p.subject.resolve r = some s :=
    Slot.resolve_of_bind hr (Slot.resolve_self_of_bind hc)
  exact Slot.exists_node_of_ends hsub (Slot.resolve_self_of_bind hr) hs ho hv

variable (p) in
/-- Whether a row takes a walk of length zero that the pattern does not find by itself: the row fixes
an end to a term outside the graph, and the other end may be the same term. -/
def strays (g : Graph) (b : Binding) : Bool :=
  p.adrift && ((p.subject.resolve b).or (p.object.resolve b)).any fun x =>
    x ∉ g.nodes && (p.bind b (x, x)).isSome

theorem strays_iff : p.strays g b = true ↔ p.adrift = true ∧
    ∃ x ∉ g.nodes, (p.subject.resolve b).or (p.object.resolve b) = some x ∧
      (p.bind b (x, x)).isSome := by
  simp only [strays, Bool.and_eq_true, Option.any_eq_true, decide_eq_true_eq]
  exact and_congr_right fun _ => exists_congr fun x => and_left_comm

theorem strays_eq_false (h : p.adrift = true → ∀ x,
    p.subject.resolve b = some x ∨ p.object.resolve b = some x → x ∈ g.nodes) :
    p.strays g b = false := by
  refine Bool.eq_false_iff.2 fun hs => ?_
  obtain ⟨hp, x, hx, hend, -⟩ := strays_iff.1 hs
  exact hx (h hp x ((Option.or_eq_some_iff.1 hend).imp_right fun h => h.2))

/-- A row that does not stray may be merged in afterwards. -/
theorem extend_merge_perm (h : p.strays g b = false) :
    (p.extend g b).Perm ((p.extend g ∅).filterMap b.merge) := by
  have hmerge : (p.extend g ∅).filterMap b.merge = (p.pairs g ∅).filterMap (p.bind b) := by
    rw [extend_eq, List.filterMap_filterMap]
    exact List.filterMap_congr fun e _ => ((p.merges_bind e).merge b).symm
  rw [hmerge, extend_eq]
  by_cases hopen : p.subject.resolve b = none ∧ p.object.resolve b = none
  · -- The row fixes no end, so the same walks are tried.
    have hpairs : p.pairs g b = p.pairs g ∅ := by
      simp only [pairs, hopen.1, hopen.2, resolve_empty hopen.1, resolve_empty hopen.2]
    rw [hpairs]
  · refine filterMap_perm_of_count fun (s, o) he => ?_
    have he' : (p.bind ∅ (s, o)).isSome := by
      rw [(p.merges_bind (s, o)).merge b] at he
      obtain ⟨c, hc⟩ := Option.isSome_iff_exists.1 he
      obtain ⟨d, hd, -⟩ := Option.bind_eq_some_iff.1 hc
      exact Option.isSome_iff_exists.2 ⟨d, hd⟩
    have hnode (hp : p.path.nullable = true) (hs : p.subject.resolve ∅ = none)
        (ho : p.object.resolve ∅ = none) (e : s = o) : s ∈ g.nodes := by
      -- The row fixes one end, and both ends are the same here.
      by_contra hn
      refine Bool.eq_false_iff.1 h (strays_iff.2 ⟨adrift_iff.2 ⟨hp, hs, ho⟩, s, hn, ?_, e ▸ he⟩)
      obtain ⟨hfs, hfo⟩ := ends_of_bind he
      cases hsb : p.subject.resolve b with
      | some x => rw [hfs x hsb, Option.some_or]
      | none =>
        obtain ⟨x, hob⟩ := Option.ne_none_iff_exists'.1 fun hob => hopen ⟨hsb, hob⟩
        rw [hob, hfo x hob, e, Option.none_or]
    calc (p.pairs g b).count (s, o)
      _ = (p.path.ends g true s).count o :=
        count_pairs he fun _ hs ho => (hopen ⟨hs, ho⟩).elim
      _ = (p.pairs g ∅).count (s, o) := (count_pairs he' hnode).symm

theorem mem_pairs_self {x : Term} (hp : p.path.nullable = true)
    (hx : (p.subject.resolve b).or (p.object.resolve b) = some x)
    (hb : (p.bind b (x, x)).isSome) : (x, x) ∈ p.pairs g b := by
  obtain ⟨hs, ho⟩ := ends_of_bind hb
  unfold pairs
  split
  · rename_i t hsub
    obtain rfl := hs t hsub
    exact List.mem_map.2 ⟨t, Path.self_mem_ends hp true t, rfl⟩
  · rename_i t hsub hobj
    obtain rfl := ho t hobj
    exact List.mem_map.2 ⟨t, Path.self_mem_ends hp false t, rfl⟩
  · rename_i hsub hobj
    rw [hsub, hobj] at hx
    cases hx

/-- The row that a straying row gives is not among those that are merged in afterwards, since these
have nodes at both ends. -/
theorem not_perm_of_strays (h : p.strays g b = true) :
    ¬ (p.extend g b).Perm ((p.extend g ∅).filterMap b.merge) := by
  obtain ⟨hp, x, hx, hend, hb⟩ := strays_iff.1 h
  obtain ⟨c, hc⟩ := Option.isSome_iff_exists.1 hb
  have hmem : c ∈ p.extend g b :=
    List.mem_filterMap.2 ⟨(x, x), mem_pairs_self (adrift_iff.1 hp).1 hend hb, hc⟩
  intro hperm
  obtain ⟨r, hr, hrc⟩ := List.mem_filterMap.1 (hperm.mem_iff.1 hmem)
  obtain ⟨⟨s, o⟩, he, hr⟩ := List.mem_filterMap.1 hr
  have hs : s ∈ g.nodes := (mem_nodes_of_pairs (fun _ => hp) he).1
  have hc' : p.bind b (s, o) = some c := by
    rw [(p.merges_bind (s, o)).merge b]
    exact Option.bind_eq_some_iff.2 ⟨r, hr, hrc⟩
  have hfrom {e : Term × Term} (h : p.bind b e = some c) : p.subject.resolve c = some e.1 := by
    obtain ⟨d, hd, h⟩ := Option.bind_eq_some_iff.1 h
    exact Slot.resolve_of_bind h (Slot.resolve_self_of_bind hd)
  have hsx : s = x := Option.some.inj ((hfrom hc').symm.trans (hfrom hc))
  exact hx (hsx ▸ hs)

theorem extend_merge_perm_iff :
    (p.extend g b).Perm ((p.extend g ∅).filterMap b.merge) ↔ p.strays g b = false :=
  ⟨fun h => Bool.eq_false_iff.2 fun hs => not_perm_of_strays hs h, extend_merge_perm⟩

end PathPattern

end SparqlAlgebra
