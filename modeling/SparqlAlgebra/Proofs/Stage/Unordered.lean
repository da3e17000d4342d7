import Mathlib.Tactic.Choose
import SparqlAlgebra.Proofs.Rows.Seed
import SparqlAlgebra.Proofs.Stage.Build

/-!
Stages and plans whose rows are known up to their order. Where rows of different plans are compared
this is all that can be said of them, and every stage carries it on from its inputs.
-/

namespace SparqlAlgebra

theorem Pairing.combine_perm (rule : Pairing) (fs : Functions) (b : Binding) {r s : List Binding}
    (h : r.Perm s) : (rule.combine fs b r).Perm (rule.combine fs b s) := by
  cases rule with
  | inner => exact h.filterMap _
  | optional exprs =>
    rw [combine_optional, combine_optional]
    exact Rows.optionally_perm h b
  | minus =>
    rw [combine, combine, h.any_eq]

namespace Stage

/-- The stage emits the listed rows in some order and comes to its end. -/
def EmitsBag (s : Stage) (l : List Binding) : Prop := ∃ m, s.Emits false m none ∧ m.Perm l

variable {s : Stage} {k l : List Binding}

theorem Emits.bag (h : s.Emits false l none) : s.EmitsBag l := ⟨l, h, .refl l⟩

theorem emitsBag_rows (l : List Binding) : (rows l).EmitsBag l := (emits_rows l).bag

theorem EmitsBag.perm (h : s.EmitsBag k) (hp : k.Perm l) : s.EmitsBag l := by
  obtain ⟨m, hm, hk⟩ := h
  exact ⟨m, hm, hk.trans hp⟩

/-- A stage that works on the rows of its input as a function of lists works on them in any order,
if the function does. -/
theorem EmitsBag.lift {t : Stage} {f : List Binding → List Binding} (h : s.EmitsBag k)
    (ht : ∀ m, s.Emits false m none → t.Emits false (f m) none)
    (hf : ∀ m, m.Perm k → (f m).Perm l) : t.EmitsBag l := by
  obtain ⟨m, hm, hk⟩ := h
  exact ⟨f m, ht m hm, hf m hk⟩

theorem emitsBag_pattern (p : BasicPattern) (g : Graph) (h : s.EmitsBag l) :
    (p.stage g s).EmitsBag (p.extend g l) := by
  refine h.lift (fun m => emits_pattern p g) fun m hm => ?_
  rw [BasicPattern.extend_eq_join, BasicPattern.extend_eq_join p g l]
  exact Rows.join_perm hm (.refl _)

theorem emitsBag_table (t : Table) (ctx : Context) (h : s.EmitsBag l) :
    (t.stage ctx s).EmitsBag (Rows.join l t.rows) :=
  h.lift (fun _ => emits_table t (Bool.and_false _)) fun _ hm => Rows.join_perm hm (.refl _)

theorem emitsBag_filters (fs : Functions) (exprs : List Expr) (h : s.EmitsBag l) :
    (exprs.foldl (fun s e => via (.filter e) fs s false) s).EmitsBag
      (l.filter (Expr.allHold fs exprs)) :=
  h.lift (fun _ => emits_filters fs exprs) fun _ hm => hm.filter _

theorem emitsBag_project (fs : Functions) (vars : List Var) (h : s.EmitsBag l) :
    (via (.project vars) fs s false).EmitsBag (l.map (·.project vars)) := by
  refine h.lift (fun _ => emits_via) fun m hm => ?_
  rw [RowRule.treat_project]
  exact hm.map _

theorem emitsBag_distinct (fs : Functions) (h : s.EmitsBag l) :
    (via (.distinct []) fs s false).EmitsBag (Rows.firsts [] l) := by
  refine h.lift (fun _ => emits_via) fun m hm => ?_
  rw [RowRule.treat_distinct]
  exact Rows.firsts_perm hm

theorem emitsBag_pair {rule : Pairing} {ctx : Context} {t : Stage} {r : List Binding}
    (h : s.EmitsBag l) (ht : t.EmitsBag r) :
    (pair rule ctx s t none []).EmitsBag (l.flatMap fun b => rule.combine ctx.functions b r) := by
  obtain ⟨n, hn, hr⟩ := ht
  exact h.lift (fun _ hm => emits_pair (Bool.and_false _) hm hn) fun _ hm =>
    hm.flatMap fun b _ => rule.combine_perm ctx.functions b hr

/-- Picks the order in which each of many stages emits its rows. -/
theorem exists_order {α : Type} {l : List α} {Q : α → Stage → Prop} {f : α → List Binding}
    (hf : ∀ a ∈ l, ∃ t, Q a t ∧ t.EmitsBag (f a)) :
    ∃ n : α → List Binding, (∀ a ∈ l, ∃ t, Q a t ∧ t.Emits false (n a) none) ∧
      ∀ a ∈ l, (n a).Perm (f a) := by
  have hex : ∀ a, ∃ n, a ∈ l → (∃ t, Q a t ∧ t.Emits false n none) ∧ n.Perm (f a) := by
    intro a
    by_cases ha : a ∈ l
    · obtain ⟨t, ht, n, hn, hp⟩ := hf a ha
      exact ⟨n, fun _ => ⟨⟨t, ht, hn⟩, hp⟩⟩
    · exact ⟨[], fun h => (ha h).elim⟩
  choose n hn using hex
  exact ⟨n, fun a ha => (hn a ha).1, fun a ha => (hn a ha).2⟩

/-- Rows expanded in any order by a rule without memory. -/
theorem emitsBag_each {rule : Expansion} (hr : ∀ b, rule.after b = rule) (h : s.EmitsBag l)
    {f : Binding → List Binding}
    (hf : ∀ b ∈ l, ∃ t, (rule.expand b).1 = .flow t ∧ t.EmitsBag (f b)) :
    (each rule s).EmitsBag (l.flatMap f) := by
  -- Each expansion has its own order, and the input has another one.
  obtain ⟨n, hn, hp⟩ := exists_order hf
  obtain ⟨m, hm, hml⟩ := h
  have he := emits_each hr hm fun b hb => hn b (hml.subset hb)
  exact ⟨_, he, hml.flatMap fun b hb => hp b (hml.subset hb)⟩

theorem emitsBag_chain {pending : List Seeded} {f : Seeded → List Binding}
    (hf : ∀ p ∈ pending, ∃ t, (compile p.ctx p.op (rows [p.seed])).result = .ok t ∧
      t.EmitsBag (f p)) :
    (chain pending).EmitsBag (pending.flatMap f) := by
  obtain ⟨n, hn, hp⟩ := exists_order hf
  exact ⟨_, emits_chain hn, (List.Perm.refl pending).flatMap hp⟩

theorem emitsBag_optional {part : Op} {ctx : Context} (h : s.EmitsBag l)
    {f : Binding → List Binding}
    (hf : ∀ b ∈ l, ∃ t, (compile ctx part (rows [b])).result = .ok t ∧ t.EmitsBag (f b)) :
    (optional part ctx s).EmitsBag (l.flatMap fun b => if f b = [] then [b] else f b) := by
  obtain ⟨n, hn, hp⟩ := exists_order hf
  obtain ⟨m, hm, hml⟩ := h
  have he := emits_optional hm fun b hb => hn b (hml.subset hb)
  refine ⟨_, he, hml.flatMap fun b hb => ?_⟩
  -- Whether a row has a match does not depend on the order of its matches.
  have hb := hp b (hml.subset hb)
  by_cases hz : f b = []
  · have hnz : n b = [] := List.perm_nil.1 (hz ▸ hb)
    rw [if_pos hz, if_pos hnz]
  · have hnz : n b ≠ [] := fun e => hz (List.nil_perm.1 (e ▸ hb))
    rw [if_neg hz, if_neg hnz]
    exact hb

end Stage

namespace Compiled

/-- The compilation succeeds, and its stage emits the listed rows in some order and comes to its
end. -/
def GivesBag (c : Compiled) (l : List Binding) : Prop := ∃ s, c.result = .ok s ∧ s.EmitsBag l

variable {c : Compiled} {k l : List Binding}

theorem givesBag_ok {s : Stage} (h : s.EmitsBag l) : (ok s).GivesBag l := ⟨s, rfl, h⟩

theorem GivesBag.counted (h : c.GivesBag l) : c.counted.GivesBag l := h

theorem GivesBag.map {f : Stage → Stage} (h : c.GivesBag k)
    (hf : ∀ s, s.EmitsBag k → (f s).EmitsBag l) : (c.map f).GivesBag l := by
  obtain ⟨s, hc, hs⟩ := h
  exact ⟨f s, result_map hc f, hf s hs⟩

theorem GivesBag.andThen {f : Stage → Compiled} (h : c.GivesBag k)
    (hf : ∀ s, s.EmitsBag k → (f s).GivesBag l) : (c.andThen f).GivesBag l := by
  obtain ⟨s, hc, hs⟩ := h
  obtain ⟨t, ht, he⟩ := hf s hs
  exact ⟨t, result_andThen hc ht, he⟩

end Compiled

theorem Context.solutions_perm {ctx : Context} {op : Op} {input : Stage} {l : List Binding}
    (h : (compile ctx op input).GivesBag l) : ∃ m, ctx.solutions op input = .ok m ∧ m.Perm l := by
  obtain ⟨s, hc, m, hm, hp⟩ := h
  exact ⟨m, solutions_eq ⟨s, hc, hm⟩, hp⟩

end SparqlAlgebra
