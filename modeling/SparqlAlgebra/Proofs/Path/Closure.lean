import Mathlib.Logic.Relation
import SparqlAlgebra.Path.Basic

/-!
The closure of a successor function over some seeds lists exactly the reachable nodes, each once:
its fuel lasts, since every node it meets is a seed or a node of the graph.
-/

namespace SparqlAlgebra

namespace Graph

open Relation

/-- One step along a successor function. -/
def Steps (next : Term → List Term) (x y : Term) : Prop := y ∈ next x

variable {next : Term → List Term}

theorem not_mem_seen_of_mem_reach {fuel : Nat} {queue seen : List Term} {y : Term}
    (h : y ∈ reach next fuel queue seen) : y ∉ seen := by
  fun_induction reach next fuel queue seen with
  | case1 => cases h
  | case2 fuel seen x rest hx ih => exact ih h
  | case3 => cases h
  | case4 seen x rest hx fuel ih =>
    rcases List.mem_cons.1 h with rfl | h
    · exact hx
    · exact fun hy => ih h (List.mem_cons_of_mem _ hy)

theorem nodup_reach (next : Term → List Term) (fuel : Nat) (queue seen : List Term) :
    (reach next fuel queue seen).Nodup := by
  fun_induction reach next fuel queue seen with
  | case1 => exact List.nodup_nil
  | case2 fuel seen x rest hx ih => exact ih
  | case3 => exact List.nodup_nil
  | case4 seen x rest hx fuel ih =>
    exact List.nodup_cons.2 ⟨fun h => not_mem_seen_of_mem_reach h List.mem_cons_self, ih⟩

theorem reachable_of_mem_reach {fuel : Nat} {queue seen : List Term} {y : Term}
    (h : y ∈ reach next fuel queue seen) : ∃ x ∈ queue, ReflTransGen (Steps next) x y := by
  fun_induction reach next fuel queue seen with
  | case1 => cases h
  | case2 fuel seen x rest hx ih =>
    obtain ⟨z, hz, hy⟩ := ih h
    exact ⟨z, List.mem_cons_of_mem _ hz, hy⟩
  | case3 => cases h
  | case4 seen x rest hx fuel ih =>
    rcases List.mem_cons.1 h with rfl | h
    · exact ⟨y, List.mem_cons_self, .refl⟩
    · obtain ⟨z, hz, hy⟩ := ih h
      rcases List.mem_append.1 hz with hz | hz
      · exact ⟨z, List.mem_cons_of_mem _ hz, hy⟩
      · exact ⟨x, List.mem_cons_self, hy.head hz⟩

theorem length_filter_not_mem_cons_lt {u seen : List Term} {x : Term} (hx : x ∈ u)
    (hs : x ∉ seen) :
    (u.filter fun y => y ∉ x :: seen).length < (u.filter fun y => y ∉ seen).length := by
  rw [← List.countP_eq_length_filter, ← List.countP_eq_length_filter]
  -- The count goes down where `x` stands and nowhere up.
  induction u with
  | nil => cases hx
  | cons z u ih =>
    have hle : (u.countP fun y => y ∉ x :: seen) ≤ u.countP fun y => y ∉ seen := by
      refine List.countP_mono_left fun y _ hy => ?_
      simp only [List.mem_cons, not_or, decide_eq_true_eq] at hy ⊢
      exact hy.2
    by_cases e : z = x
    · subst e
      rw [List.countP_cons_of_neg (by simp), List.countP_cons_of_pos (by simp [hs])]
      omega
    · have ih := ih ((List.mem_cons.1 hx).resolve_left fun h => e h.symm)
      by_cases hz : z ∈ seen
      · rw [List.countP_cons_of_neg (by simp [hz]), List.countP_cons_of_neg (by simp [hz])]
        exact ih
      · rw [List.countP_cons_of_pos (by simp [e, hz]), List.countP_cons_of_pos (by simp [hz])]
        omega

/-- The queue lies in a set that `next` does not leave, and there is fuel for every unseen member of
the set. -/
structure Fueled (next : Term → List Term) (u : List Term) (fuel : Nat)
    (queue seen : List Term) : Prop where
  closed : ∀ x ∈ u, ∀ y ∈ next x, y ∈ u
  inside : ∀ x ∈ queue, x ∈ u
  enough : (u.filter fun y => y ∉ seen).length ≤ fuel

namespace Fueled

variable {u rest seen : List Term} {x : Term} {fuel : Nat}

theorem skip (h : Fueled next u fuel (x :: rest) seen) : Fueled next u fuel rest seen :=
  ⟨h.closed, fun y hy => h.inside y (List.mem_cons_of_mem _ hy), h.enough⟩

/-- Each new visit takes one member of the set from the unseen ones, so there is fuel for it. -/
theorem unseen_lt (h : Fueled next u fuel (x :: rest) seen) (hx : x ∉ seen) :
    (u.filter fun y => y ∉ x :: seen).length < fuel :=
  Nat.lt_of_lt_of_le (length_filter_not_mem_cons_lt (h.inside x List.mem_cons_self) hx) h.enough

theorem visit (h : Fueled next u (fuel + 1) (x :: rest) seen) (hx : x ∉ seen) :
    Fueled next u fuel (rest ++ next x) (x :: seen) where
  closed := h.closed
  inside y hy := (List.mem_append.1 hy).elim (fun hy => h.inside y (List.mem_cons_of_mem _ hy))
    (h.closed x (h.inside x List.mem_cons_self) y)
  enough := Nat.le_of_lt_succ (h.unseen_lt hx)

end Fueled

/-- While the fuel lasts, the queue is visited and what is visited is closed under `next`, up to what
was seen before. -/
theorem reach_closed {u : List Term} {fuel : Nat} {queue seen : List Term}
    (h : Fueled next u fuel queue seen) :
    (∀ x ∈ queue, x ∈ seen ∨ x ∈ reach next fuel queue seen) ∧
      ∀ x ∈ reach next fuel queue seen, ∀ y ∈ next x,
        y ∈ seen ∨ y ∈ reach next fuel queue seen := by
  fun_induction reach next fuel queue seen with
  | case1 => exact ⟨fun _ h => (List.not_mem_nil h).elim, fun _ h => (List.not_mem_nil h).elim⟩
  | case2 fuel seen x rest hx ih =>
    obtain ⟨hrest, hclosed⟩ := ih h.skip
    refine ⟨fun y hy => ?_, hclosed⟩
    rcases List.mem_cons.1 hy with rfl | hy
    · exact .inl hx
    · exact hrest y hy
  | case3 seen x rest hx => exact absurd (h.unseen_lt hx) (Nat.not_lt_zero _)
  | case4 seen x rest hx fuel ih =>
    obtain ⟨hrest, hclosed⟩ := ih (h.visit hx)
    have hmove (y : Term) (h : y ∈ x :: seen ∨ y ∈ reach next fuel (rest ++ next x) (x :: seen)) :
        y ∈ seen ∨ y ∈ x :: reach next fuel (rest ++ next x) (x :: seen) := by
      rcases h with h | h
      · rcases List.mem_cons.1 h with rfl | h
        · exact .inr List.mem_cons_self
        · exact .inl h
      · exact .inr (List.mem_cons_of_mem _ h)
    constructor
    · intro y hy
      rcases List.mem_cons.1 hy with rfl | hy
      · exact .inr List.mem_cons_self
      · exact hmove y (hrest y (List.mem_append_left _ hy))
    · intro y hy z hz
      rcases List.mem_cons.1 hy with rfl | hy
      · exact hmove z (hrest z (List.mem_append_right _ hz))
      · exact hmove z (hclosed y hy z hz)

section

variable {g : Graph} (hn : ∀ x, ∀ y ∈ next x, y = x ∨ y ∈ g.nodes)

include hn

/-- The fuel of a closure lasts if `next` leads from a term to itself or to nodes of the graph. -/
theorem fueled_closure (seeds : List Term) :
    Fueled next (seeds ++ g.nodes) (seeds.length + g.nodes.length) seeds [] where
  closed x hx y hy := by
    rcases hn x y hy with rfl | hy
    · exact hx
    · exact List.mem_append_right _ hy
  inside _ hx := List.mem_append_left _ hx
  enough := by
    rw [← List.length_append]
    exact List.length_filter_le _ _

/-- The closure lists what the seeds reach. -/
theorem mem_closure {seeds : List Term} {y : Term} :
    y ∈ g.closure next seeds ↔ ∃ x ∈ seeds, ReflTransGen (Steps next) x y := by
  obtain ⟨hseeds, hclosed⟩ := reach_closed (fueled_closure hn seeds)
  refine ⟨reachable_of_mem_reach, ?_⟩
  rintro ⟨x, hx, hxy⟩
  -- What is visited holds the seeds and is closed, so it holds all of the walk.
  induction hxy with
  | refl => exact (hseeds x hx).resolve_left List.not_mem_nil
  | tail _ hyz ih => exact (hclosed _ ih _ hyz).resolve_left List.not_mem_nil

end

theorem nodup_closure (g : Graph) (next : Term → List Term) (seeds : List Term) :
    (g.closure next seeds).Nodup :=
  nodup_reach _ _ _ _

end Graph

end SparqlAlgebra
