import SparqlAlgebra.Proofs.Rows.Join

/-!
Joining rows in below an operation of the bag algebra or above it: the same rows come out when the
joined rows bind nothing that the operation looks at and its own rows leave open.
-/

namespace SparqlAlgebra

namespace Rows

theorem filter_filterMap_of {α β : Type} {f : α → Option β} {p : β → Bool} {q : α → Bool}
    {l : List α} (h : ∀ a ∈ l, ∀ b, f a = some b → p b = q a) :
    (l.filterMap f).filter p = (l.filter q).filterMap f := by
  induction l with
  | nil => rfl
  | cons a l ih =>
    have ih := ih fun x hx => h x (List.mem_cons_of_mem _ hx)
    cases ha : f a with
    | none =>
      rw [List.filterMap_cons_none ha, ih, List.filter_cons]
      split
      · rw [List.filterMap_cons_none ha]
      · rfl
    | some b =>
      have hb := h a List.mem_cons_self b ha
      rw [List.filterMap_cons_some ha, List.filter_cons, List.filter_cons, hb, ih]
      split
      · rw [List.filterMap_cons_some ha]
      · rfl

theorem filter_join {fs : Functions} {exprs : List Expr} {l r : List Binding}
    (h : ∀ i ∈ l, ∀ b ∈ r, ∀ v ∈ Expr.mentionsAll exprs, i.contains v → b.contains v) :
    (join l r).filter (Expr.allHold fs exprs) = join l (r.filter (Expr.allHold fs exprs)) := by
  rw [join, List.filter_flatMap]
  exact List.flatMap_congr fun i hi => filter_filterMap_of fun b hb x hx =>
    Expr.allHold_merge hx exprs (h i hi b hb)

section

variable {fs : Functions} {exprs : List Expr} {r : List Binding} {i a x : Binding}

theorem found_merge (hx : i.merge a = some x)
    (he : ∀ v ∈ Expr.mentionsAll exprs, i.contains v → a.contains v) :
    found fs exprs r x = (found fs exprs r a).filterMap i.merge := by
  have hr : r.filterMap x.merge = (r.filterMap a.merge).filterMap i.merge := by
    rw [filterMap_merge_filterMap, hx]
    rfl
  rw [found, hr]
  refine filter_filterMap_of fun m hm y hy => Expr.allHold_merge hy exprs fun v hv hi => ?_
  obtain ⟨b, -, hb⟩ := List.mem_filterMap.1 hm
  rw [Binding.contains_merge hb, he v hv hi, Bool.true_or]

/-- A row that agrees with `a` agrees with what is found for it, when what it shares with the right
rows is bound in `a`. -/
theorem isSome_merge_found (hx : i.merge a = some x)
    (hr : ∀ b ∈ r, ∀ v, i.contains v → b.contains v → a.contains v) {m : Binding}
    (hm : m ∈ found fs exprs r a) : (i.merge m).isSome := by
  obtain ⟨b, hb, hm⟩ := List.mem_filterMap.1 (List.mem_of_mem_filter hm)
  have hia := (Binding.merge_eq_some_iff.1 hx).1
  have hab := (Binding.merge_eq_some_iff.1 hm).1
  have hib : Binding.Agree i b := hia.through hab (hr b hb)
  rw [Binding.merge_isSome, Binding.compatible_iff]
  exact ((Binding.agree_merge_iff hm).2 ⟨hia.symm, hib.symm⟩).symm

theorem optionally_merge (hx : i.merge a = some x)
    (hr : ∀ b ∈ r, ∀ v, i.contains v → b.contains v → a.contains v)
    (he : ∀ v ∈ Expr.mentionsAll exprs, i.contains v → a.contains v) :
    optionally fs exprs r x = (optionally fs exprs r a).filterMap i.merge := by
  have hfound : found fs exprs r x = (found fs exprs r a).filterMap i.merge := found_merge hx he
  -- Nothing found for `a` is lost, so it keeps its matches or has none.
  have hnil : found fs exprs r x = [] ↔ found fs exprs r a = [] := by
    rw [hfound, List.filterMap_eq_nil_iff]
    constructor
    · intro h
      refine List.eq_nil_iff_forall_not_mem.2 fun m hm => ?_
      have hs := isSome_merge_found hx hr hm
      rw [h m hm] at hs
      cases hs
    · intro h m hm
      rw [h] at hm
      cases hm
  rw [optionally, optionally]
  by_cases h : found fs exprs r a = []
  · rw [if_pos h, if_pos (hnil.2 h), List.filterMap_cons_some hx]
    rfl
  · rw [if_neg h, if_neg (mt hnil.1 h), hfound]

theorem optionally_disagree (h : i.merge a = none) :
    (optionally fs exprs r a).filterMap i.merge = [] := by
  refine List.filterMap_eq_nil_iff.2 fun m hm => ?_
  unfold optionally at hm
  split at hm
  · rw [List.mem_singleton.1 hm]
    exact h
  · obtain ⟨b, -, hb⟩ := List.mem_filterMap.1 (List.mem_of_mem_filter hm)
    have hassoc := Binding.merge_assoc i a b
    rw [h, hb] at hassoc
    exact hassoc.symm

end

theorem leftJoin_join {fs : Functions} {exprs : List Expr} {l k r : List Binding}
    (hr : ∀ i ∈ l, ∀ a ∈ k, ∀ b ∈ r, ∀ v, i.contains v → b.contains v → a.contains v)
    (he : ∀ i ∈ l, ∀ a ∈ k, ∀ v ∈ Expr.mentionsAll exprs, i.contains v → a.contains v) :
    leftJoin fs exprs (join l k) r = join l (leftJoin fs exprs k r) := by
  simp only [leftJoin, join, List.flatMap_assoc]
  refine List.flatMap_congr fun i hi => ?_
  rw [List.filterMap_flatMap, flatMap_filterMap]
  refine List.flatMap_congr fun a ha => ?_
  cases hx : i.merge a with
  | none => exact (optionally_disagree hx).symm
  | some x => exact optionally_merge hx (hr i hi a ha) (he i hi a ha)

theorem diff_join {l k r : List Binding}
    (hr : ∀ i ∈ l, ∀ a ∈ k, ∀ b ∈ r, ∀ v, i.contains v → b.contains v → a.contains v) :
    diff (join l k) r = join l (diff k r) := by
  rw [diff, diff, join, List.filter_flatMap]
  refine List.flatMap_congr fun i hi => filter_filterMap_of fun a ha x hx => ?_
  rw [Bool.eq_iff_iff, List.all_eq_true, List.all_eq_true]
  refine forall₂_congr fun b hb => ?_
  -- A right row that `a` agrees with agrees with `i` as well.
  suffices h : x.compatible b = a.compatible b by rw [h]
  rw [Bool.eq_iff_iff, Binding.compatible_iff, Binding.compatible_iff, Binding.agree_merge_iff hx]
  have hia := (Binding.merge_eq_some_iff.1 hx).1
  exact and_iff_right_of_imp fun hab => hia.through hab (hr i hi a ha b hb)

theorem optionally_perm {fs : Functions} {exprs : List Expr} {r s : List Binding}
    (hr : r.Perm s) (a : Binding) : (optionally fs exprs r a).Perm (optionally fs exprs s a) := by
  have hf : (found fs exprs r a).Perm (found fs exprs s a) := (hr.filterMap _).filter _
  unfold optionally
  by_cases h : found fs exprs r a = []
  · have h' : found fs exprs s a = [] := List.Perm.eq_nil (h ▸ hf.symm)
    rw [if_pos h, if_pos h']
  · have h' : found fs exprs s a ≠ [] := fun h' => h (List.Perm.eq_nil (h' ▸ hf))
    rw [if_neg h, if_neg h']
    exact hf

theorem leftJoin_perm {fs : Functions} {exprs : List Expr} {k l r s : List Binding}
    (hl : k.Perm l) (hr : r.Perm s) : (leftJoin fs exprs k r).Perm (leftJoin fs exprs l s) :=
  hl.flatMap fun a _ => optionally_perm hr a

theorem map_project_join {vars : List Var} {l r : List Binding}
    (h : ∀ i ∈ l, ∀ v, i.contains v → v ∈ vars) :
    (join l r).map (·.project vars) = join l (r.map (·.project vars)) := by
  simp only [join, List.map_flatMap, List.map_filterMap, List.filterMap_map]
  exact List.flatMap_congr fun i hi => List.filterMap_congr fun b _ =>
    Binding.map_project_merge b (h i hi)

end Rows

end SparqlAlgebra
