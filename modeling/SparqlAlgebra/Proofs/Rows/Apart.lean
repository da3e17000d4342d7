import Mathlib.Data.List.Nodup
import SparqlAlgebra.Proofs.Rows.Join

/-!
Rows that stay apart whatever is merged into them: no two are equal, and all bind the same
variables. Duplicates may be removed before such rows are joined in or afterwards.
-/

namespace SparqlAlgebra

namespace Rows

theorem mem_firsts {α : Type} [DecidableEq α] {seen l : List α} {x : α} :
    x ∈ firsts seen l ↔ x ∈ l ∧ x ∉ seen := by
  induction l generalizing seen with
  | nil => simp [firsts]
  | cons y l ih =>
    rw [firsts]
    split
    · rename_i hy
      rw [ih, List.mem_cons]
      refine ⟨fun h => ⟨.inr h.1, h.2⟩, fun ⟨h, hx⟩ => ⟨h.resolve_left fun e => hx (e ▸ hy), hx⟩⟩
    · rename_i hy
      rw [List.mem_cons, ih, List.mem_cons, List.mem_cons, not_or]
      by_cases e : x = y
      · simp [e, hy]
      · simp [e]

theorem firsts_sublist {α : Type} [DecidableEq α] (seen l : List α) :
    (firsts seen l).Sublist l := by
  induction l generalizing seen with
  | nil => exact .slnil
  | cons x l ih =>
    rw [firsts]
    split
    · exact (ih seen).cons x
    · exact (ih (x :: seen)).cons_cons x

theorem nodup_firsts {α : Type} [DecidableEq α] (seen l : List α) : (firsts seen l).Nodup := by
  induction l generalizing seen with
  | nil => exact List.nodup_nil
  | cons y l ih =>
    rw [firsts]
    split
    · exact ih seen
    · refine List.nodup_cons.2 ⟨fun h => ?_, ih _⟩
      exact (mem_firsts.1 h).2 List.mem_cons_self

theorem firsts_perm {α : Type} [DecidableEq α] {k l : List α} (h : k.Perm l) :
    (firsts [] k).Perm (firsts [] l) := by
  refine (List.perm_ext_iff_of_nodup (nodup_firsts _ _) (nodup_firsts _ _)).2 fun x => ?_
  rw [mem_firsts, mem_firsts, h.mem_iff]

/-- Only which values have been seen matters, not how often or in which order. -/
theorem firsts_congr {α : Type} [DecidableEq α] {s t : List α} (h : ∀ x, x ∈ s ↔ x ∈ t)
    (l : List α) : firsts s l = firsts t l := by
  induction l generalizing s t with
  | nil => rfl
  | cons y l ih =>
    have hcons : ∀ x, x ∈ y :: s ↔ x ∈ y :: t := fun x => by
      rw [List.mem_cons, List.mem_cons, h]
    rw [firsts, firsts, ih h, ih hcons]
    exact if_congr (h y) rfl rfl

theorem firsts_append {α : Type} [DecidableEq α] (seen k l : List α) :
    firsts seen (k ++ l) = firsts seen k ++ firsts (k ++ seen) l := by
  induction k generalizing seen with
  | nil => rfl
  | cons x k ih =>
    rw [List.cons_append, firsts, firsts]
    split
    · rename_i hx
      have hseen : ∀ y, y ∈ k ++ seen ↔ y ∈ x :: k ++ seen := fun y => by
        simp only [List.cons_append, List.mem_cons, List.mem_append]
        exact ⟨.inr, fun hy => hy.elim (fun e => .inr (e ▸ hx)) id⟩
      rw [ih, firsts_congr hseen]
    · have hseen : ∀ y, y ∈ k ++ x :: seen ↔ y ∈ x :: k ++ seen := fun y => by
        simp only [List.cons_append, List.mem_cons, List.mem_append]
        exact or_left_comm
      rw [ih, firsts_congr hseen, List.cons_append, List.cons_append]

theorem firsts_concat {α : Type} [DecidableEq α] (l : List α) (x : α) :
    firsts [] (l ++ [x]) = if x ∈ l then firsts [] l else firsts [] l ++ [x] := by
  rw [firsts_append, List.append_nil, firsts, firsts, firsts]
  split
  · rw [List.append_nil]
  · rfl

/-- Values come in the order in which they are first met. -/
theorem firsts_pairwise_idxOf {α : Type} [DecidableEq α] [BEq α] [LawfulBEq α] (seen l : List α) :
    (firsts seen l).Pairwise fun x y => l.idxOf x < l.idxOf y := by
  induction l generalizing seen with
  | nil => exact .nil
  | cons z l ih =>
    -- What is left of the values comes behind the first one.
    have hlater (s : List α) (hz : z ∈ s) :
        (firsts s l).Pairwise fun x y => (z :: l).idxOf x < (z :: l).idxOf y := by
      refine (ih s).imp_of_mem fun {x y} hx hy h => ?_
      have hxz : z ≠ x := fun e => (mem_firsts.1 hx).2 (e ▸ hz)
      have hyz : z ≠ y := fun e => (mem_firsts.1 hy).2 (e ▸ hz)
      rw [List.idxOf_cons_ne l hxz, List.idxOf_cons_ne l hyz]
      exact Nat.succ_lt_succ h
    rw [firsts]
    split
    · rename_i hz
      exact hlater seen hz
    · refine List.pairwise_cons.2 ⟨fun y hy => ?_, hlater _ List.mem_cons_self⟩
      have hyz : z ≠ y := fun e => (mem_firsts.1 hy).2 (e ▸ List.mem_cons_self)
      rw [List.idxOf_cons_self, List.idxOf_cons_ne l hyz]
      exact Nat.succ_pos _

/-- Different rows that all bind the same variables. -/
structure Apart (l : List Binding) : Prop where
  nodup : l.Nodup
  alike : ∀ a ∈ l, ∀ b ∈ l, ∀ v, a.contains v = b.contains v

variable {k l : List Binding}

theorem apart_nil : Apart [] := ⟨List.nodup_nil, nofun⟩

theorem apart_singleton (b : Binding) : Apart [b] := by
  refine ⟨List.nodup_singleton b, fun a ha c hc v => ?_⟩
  rw [List.mem_singleton.1 ha, List.mem_singleton.1 hc]

theorem Apart.sublist (h : Apart l) (hk : k.Sublist l) : Apart k :=
  ⟨h.nodup.sublist hk, fun a ha b hb => h.alike a (hk.subset ha) b (hk.subset hb)⟩

/-- Rows that are apart are merged into different rows, if the other rows bind alike what they
bind. -/
theorem Apart.nodup_join (hl : Apart l) (hk : k.Nodup)
    (h : ∀ i ∈ l, ∀ v, i.contains v = true → ∀ a ∈ k, ∀ b ∈ k, a.contains v = b.contains v) :
    (join l k).Nodup := by
  refine List.nodup_flatMap.2 ⟨fun i hi => ?_, hl.nodup.imp_of_mem fun hi hj hij x hx hy => ?_⟩
  · refine List.pairwise_filterMap.2 (hk.imp_of_mem fun ha hb hab x hx y hy hxy => hab ?_)
    exact Binding.eq_of_merge_eq hx (hxy ▸ hy) fun v hv => h i hi v hv _ ha _ hb
  · -- A common merge would give back the same row on both sides.
    obtain ⟨a, -, ha⟩ := List.mem_filterMap.1 hx
    obtain ⟨b, -, hb⟩ := List.mem_filterMap.1 hy
    exact hij (Binding.eq_of_merge ha hb (hl.alike _ hi _ hj))

theorem Apart.join (hl : Apart l) (hk : Apart k) : Apart (join l k) := by
  refine ⟨hl.nodup_join hk.nodup fun _ _ v _ a ha b hb => hk.alike a ha b hb v,
    fun x hx y hy v => ?_⟩
  obtain ⟨a, ha, b, hb, hx⟩ := mem_join.1 hx
  obtain ⟨c, hc, d, hd, hy⟩ := mem_join.1 hy
  rw [Binding.contains_merge hx, Binding.contains_merge hy, hl.alike a ha c hc, hk.alike b hb d hd]

/-- Duplicates may be removed before rows are joined in that are apart. -/
theorem Apart.firsts_join (hl : Apart l)
    (h : ∀ i ∈ l, ∀ v, i.contains v = true → ∀ a ∈ k, ∀ b ∈ k, a.contains v = b.contains v) :
    (firsts [] (Rows.join l k)).Perm (Rows.join l (firsts [] k)) := by
  -- Both lists are without duplicates, so it is enough to compare their members.
  have hnodup : (Rows.join l (firsts [] k)).Nodup := by
    refine hl.nodup_join (nodup_firsts [] k) fun i hi v hv a ha b hb => ?_
    exact h i hi v hv a (mem_firsts.1 ha).1 b (mem_firsts.1 hb).1
  refine (List.perm_ext_iff_of_nodup (nodup_firsts _ _) hnodup).2 fun x => ?_
  simp [mem_firsts, mem_join]

end Rows

end SparqlAlgebra
