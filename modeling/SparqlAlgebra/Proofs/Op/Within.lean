import SparqlAlgebra.Proofs.Op.Additive
import SparqlAlgebra.Proofs.Stage.Within

/-!
Properties of all rows of an operator, told from what it makes of each row of its input. There is
a rule for each kind of stage that operators are compiled to. Those for unions, graph clauses and
services say which rows their parts are run over.
-/

namespace SparqlAlgebra

namespace RowRule

/-- Whether the rule passes rows on as they came. -/
def sifts : RowRule → Bool
  | filter _ => true
  | distinct _ => true
  | reduced .. => true
  | _ => false

variable {rule : RowRule} {fs : Functions} {b c : Binding}

theorem sifts_feed (h : rule.sifts = true) : (rule.feed fs b).1.sifts = true := by
  cases rule with
  | distinct seen =>
    rw [feed]
    split <;> rfl
  | _ => exact h

theorem sifts_reset (h : rule.sifts = true) : rule.reset.sifts = true := by
  cases rule <;> exact h

theorem eq_of_sifts (h : rule.sifts = true) (hc : (rule.feed fs b).2 = some c) : c = b := by
  cases rule with
  | filter e =>
    rw [feed] at hc
    dsimp only at hc
    split at hc
    · exact (Option.some.inj hc).symm
    · cases hc
  | distinct seen =>
    rw [feed] at hc
    split at hc
    · cases hc
    · exact (Option.some.inj hc).symm
  | reduced capacity recent =>
    rw [feed] at hc
    dsimp only at hc
    split at hc
    · cases hc
    · exact (Option.some.inj hc).symm
  | project vars => cases h
  | assign assignments => cases h

end RowRule

namespace Stage

open Binding

variable {P R : Binding → Prop} {s : Stage} {n : Nat} {ctx : Context} {sub : Op}

section Rules

variable {rule : RowRule} {fs : Functions} {closed : Bool} {vars : List Var}
  {assignments : List (Var × Expr)}

/-- A rule that passes rows on as they came keeps any property of them. -/
theorem withinFirst_sifted (hr : rule.sifts = true) (hi : s.WithinFirst n P) :
    (via rule fs s closed).WithinFirst n P := by
  refine withinFirst_via (K := fun r => r.sifts = true) hi hr (fun r => RowRule.sifts_reset) ?_
  intro r b hr hb
  exact ⟨RowRule.sifts_feed hr, fun c hc => RowRule.eq_of_sifts hr hc ▸ hb⟩

theorem within_sifted (hr : rule.sifts = true) (hi : s.Within P) :
    (via rule fs s closed).Within P :=
  within_of_first fun n => withinFirst_sifted hr (hi.first n)

theorem withinFirst_filters (exprs : List Expr) (hi : s.WithinFirst n P) :
    (exprs.foldl (fun s e => via (.filter e) fs s false) s).WithinFirst n P := by
  induction exprs generalizing s with
  | nil => exact hi
  | cons e exprs ih => exact ih (withinFirst_sifted rfl hi)

theorem within_filters (exprs : List Expr) (hi : s.Within P) :
    (exprs.foldl (fun s e => via (.filter e) fs s false) s).Within P :=
  within_of_first fun n => withinFirst_filters exprs (hi.first n)

theorem withinFirst_project (hi : s.WithinFirst n P) (h : ∀ b, P b → R (b.project vars)) :
    (via (.project vars) fs s closed).WithinFirst n R := by
  refine withinFirst_via (K := (· = .project vars)) hi rfl ?_ ?_
  · rintro r rfl
    rfl
  · rintro r b rfl hb
    exact ⟨rfl, fun c hc => Option.some.inj hc ▸ h b hb⟩

theorem within_project (hi : s.Within P) (h : ∀ b, P b → R (b.project vars)) :
    (via (.project vars) fs s closed).Within R :=
  within_of_first fun n => withinFirst_project (hi.first n) h

theorem withinFirst_assign (hi : s.WithinFirst n P)
    (h : ∀ b, P b → ∀ c, RowRule.extend fs assignments b = some c → R c) :
    (via (.assign assignments) fs s closed).WithinFirst n R := by
  refine withinFirst_via (K := (· = .assign assignments)) hi rfl ?_ ?_
  · rintro r rfl
    rfl
  · rintro r b rfl hb
    exact ⟨rfl, h b hb⟩

theorem within_assign (hi : s.Within P)
    (h : ∀ b, P b → ∀ c, RowRule.extend fs assignments b = some c → R c) :
    (via (.assign assignments) fs s closed).Within R :=
  within_of_first fun n => withinFirst_assign (hi.first n) h

end Rules

/-- Whatever the pairing, a paired row extends the left row. -/
theorem withinFirst_paired (hP : Upward P) (rule : Pairing) (ctx : Context) (right : Stage)
    (hi : s.WithinFirst n P) : (pair rule ctx s right none []).WithinFirst n P :=
  withinFirst_pair (Q := fun _ => True) hi (fun _ _ => trivial) fun _ _ hb _ _ hc =>
    hP hb (Pairing.extends_of_mem_combine hc)

theorem within_paired (hP : Upward P) (rule : Pairing) (ctx : Context) (right : Stage)
    (hi : s.Within P) : (pair rule ctx s right none []).Within P :=
  within_of_first fun n => withinFirst_paired hP rule ctx right (hi.first n)

section Patterns

variable {t : TriplePattern} {p : PathPattern} {g : Graph}

theorem withinFirst_triple (hi : s.WithinFirst n P) (h : ∀ b, P b → ∀ c ∈ t.extend g b, R c) :
    (each (.triple t g) s).WithinFirst n R := by
  refine withinFirst_each (fun _ => rfl) hi ?_ nofun
  intro b u hb hu
  obtain rfl := Expansion.reaches_flow.1 hu
  exact (within_rows (h b hb)).first n

theorem within_triple (hi : s.Within P) (h : ∀ b, P b → ∀ c ∈ t.extend g b, R c) :
    (each (.triple t g) s).Within R :=
  within_of_first fun n => withinFirst_triple (hi.first n) h

theorem withinFirst_path (hi : s.WithinFirst n P) (h : ∀ b, P b → ∀ c ∈ p.extend g b, R c) :
    (each (.path p g) s).WithinFirst n R := by
  refine withinFirst_each (fun _ => rfl) hi ?_ nofun
  intro b u hb hu
  obtain rfl := Expansion.reaches_flow.1 hu
  exact (within_rows (h b hb)).first n

theorem within_path (hi : s.Within P) (h : ∀ b, P b → ∀ c ∈ p.extend g b, R c) :
    (each (.path p g) s).Within R :=
  within_of_first fun n => withinFirst_path (hi.first n) h

end Patterns

section Union

variable {branches : List Op}

/-- The branches of a union are run over each row alone. -/
theorem withinFirst_union (hi : s.WithinFirst n P)
    (h : ∀ op ∈ branches, ∀ b u, P b → Op.Builds ctx op (rows [b]) u → u.WithinFirst n R) :
    (each (.union branches ctx) s).WithinFirst n R := by
  refine withinFirst_each (fun _ => rfl) hi ?_ nofun
  intro b u hb hu
  obtain rfl := Expansion.reaches_flow.1 hu
  refine withinFirst_chain fun p hp u hu => ?_
  obtain ⟨op, ho, rfl⟩ := List.mem_map.1 hp
  exact h op ho b u hb (Op.builds_of_compile hu)

theorem within_union (hi : s.Within P)
    (h : ∀ op ∈ branches, ∀ b u, P b → Op.Builds ctx op (rows [b]) u → u.Within R) :
    (each (.union branches ctx) s).Within R :=
  within_of_first fun n =>
    withinFirst_union (hi.first n) fun op ho b u hb hu => (h op ho b u hb hu).first n

end Union

section Graph

variable {name : Slot} {b c : Binding} {t : Term}

/-- For the row `b`, the part of a graph clause is run in the graph `t` over the row `c`, which
binds the name and otherwise what `b` binds. -/
structure Enters (name : Slot) (t : Term) (b c : Binding) : Prop where
  resolve : name.resolve c = some t
  kept : c.Extends b
  only : ∀ v, c.contains v = true → name = .var v ∨ b.contains v = true

theorem enters_self (h : name.resolve b = some t) : Enters name t b b := ⟨h, .refl b, fun _ => .inr⟩

theorem enters_insert {v : Var} (h : b.get? v = none) (t : Term) :
    Enters (.var v) t b (b.insert v t) := by
  refine ⟨by simp [Slot.resolve], extends_insert h t, fun w hw => ?_⟩
  by_cases he : w = v
  · exact .inl (congrArg Slot.var he.symm)
  · rw [SortedMap.contains, SortedMap.get?_insert, if_neg he] at hw
    exact .inr hw

/-- The part of a graph clause is run over one row for each graph that the name may stand for. -/
theorem withinFirst_graph (hi : s.WithinFirst n P)
    (h : ∀ b c t g u, P b → Enters name t b c →
      Op.Builds { ctx with graph := g } sub (rows [c]) u → u.WithinFirst n R) :
    (each (.graph name sub ctx) s).WithinFirst n R := by
  refine withinFirst_each (fun _ => rfl) hi ?_ ?_
  · intro b u hb hu
    cases Expansion.expands_of_expand hu with
    | graphNamed hname _ hu => exact h b b _ _ u hb (enters_self hname) hu
    | graphMissing => exact (within_nil R).first n
    | graphOpen hopen =>
      refine withinFirst_chain fun p hp u hu => ?_
      obtain ⟨e, -, rfl⟩ := List.mem_map.1 hp
      exact h b _ e.1 e.2 u hb (enters_insert hopen e.1) (Op.builds_of_compile hu)
  · intro b ctx' u _ hhold
    obtain ⟨endpoint, sub, ctx, hrule⟩ := Expansion.silent_of_hold hhold
    cases hrule

theorem within_graph (hi : s.Within P)
    (h : ∀ b c t g u, P b → Enters name t b c →
      Op.Builds { ctx with graph := g } sub (rows [c]) u → u.Within R) :
    (each (.graph name sub ctx) s).Within R :=
  within_of_first fun n =>
    withinFirst_graph (hi.first n) fun b c t g u hb hc hu => (h b c t g u hb hc hu).first n

end Graph

section Service

variable {endpoint : Slot} {silent : Bool}

/-- The part of a service is run over each row alone, and a silent service may give the row itself
instead. -/
theorem withinFirst_service (hi : s.WithinFirst n P)
    (h : ∀ b d u, P b → Expansion.endpointData endpoint ctx b = .ok d →
      Op.Builds (ctx.remote d) sub (rows [b]) u → u.WithinFirst n R)
    (hb : silent = true → ∀ b, P b → R b) :
    (each (.service endpoint sub silent ctx) s).WithinFirst n R := by
  refine withinFirst_each (fun _ => rfl) hi ?_ ?_
  · intro b u hrow hu
    cases Expansion.expands_of_expand hu with
    | service hd hu => exact h b _ u hrow hd hu
    | serviceSilent => exact (within_single (hb rfl b hrow)).first n
  · intro b ctx' u hrow hhold
    obtain ⟨endpoint, sub, ctx, hrule⟩ := Expansion.silent_of_hold hhold
    cases hrule
    exact hb rfl b hrow

theorem within_service (hi : s.Within P)
    (h : ∀ b d u, P b → Expansion.endpointData endpoint ctx b = .ok d →
      Op.Builds (ctx.remote d) sub (rows [b]) u → u.Within R)
    (hb : silent = true → ∀ b, P b → R b) :
    (each (.service endpoint sub silent ctx) s).Within R :=
  within_of_first fun n =>
    withinFirst_service (hi.first n) (fun b d u hrow hd hu => (h b d u hrow hd hu).first n) hb

end Service

end Stage

end SparqlAlgebra
