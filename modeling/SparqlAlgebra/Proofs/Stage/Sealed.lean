import SparqlAlgebra.Proofs.Op.Bag
import SparqlAlgebra.Proofs.Stage.Usage

/-!
Stages without an outer source. They have nothing to pull: no step of theirs costs a pull, and what
they become has no outer source either. Whatever is compiled over a row is such a stage.
-/

namespace SparqlAlgebra

@[simp] theorem Tally.pulls_add (a b : Tally) : (a + b).pulls = a.pulls + b.pulls := rfl

namespace Stage

/-- Whether there is no outer source in the stage. -/
def isSealed : Stage → Bool
  | root => true
  | rows _ => true
  | source _ => false
  | each _ input => isSealed input
  | eachOf _ input current => isSealed input && isSealed current
  | eachHeld _ _ input _ held _ => isSealed input && isSealed held
  | chain _ => true
  | chainOf _ current => isSealed current
  | pair _ _ left right _ _ => isSealed left && isSealed right
  | pairLoad _ _ left right _ _ => isSealed left && isSealed right
  | optional _ _ left => isSealed left
  | optionalOf _ _ left _ current _ => isSealed left && isSealed current
  | gather _ _ input _ => isSealed input
  | gathered input _ => isSealed input
  | slice input _ _ => isSealed input
  | via _ _ input _ => isSealed input

@[simp] theorem pulls_closeTally (s : Stage) : s.closeTally.pulls = 0 := rfl

theorem isSealed_close {s : Stage} (h : s.isSealed = true) : s.close.isSealed = true := by
  induction s with
  | source items => cases h
  | via rule fs input closed ih =>
    cases closed with
    | false => exact ih h
    | true => exact h
  | _ => rfl

theorem isSealed_pattern (p : BasicPattern) (g : Graph) {i : Stage} (h : i.isSealed = true) :
    (p.stage g i).isSealed = true := by
  induction p generalizing i with
  | nil => exact h
  | cons t p ih => exact ih h

theorem isSealed_filters (fs : Functions) (exprs : List Expr) {s : Stage}
    (h : s.isSealed = true) :
    (exprs.foldl (fun s e => via (.filter e) fs s false) s).isSealed = true := by
  induction exprs generalizing s with
  | nil => exact h
  | cons e exprs ih => exact ih h

theorem isSealed_table (t : Table) (ctx : Context) {i : Stage} (h : i.isSealed = true) :
    (t.stage ctx i).isSealed = true := by
  rcases t.stage_cases ctx i with ⟨-, ht⟩ | ⟨-, ht⟩ | ht <;> rw [ht]
  · exact h
  · rfl
  · exact Bool.and_eq_true_iff.2 ⟨h, rfl⟩

end Stage

namespace Compiled

/-- The compilation pulls no outer source and builds none in. -/
structure Sealed (c : Compiled) : Prop where
  pulls : c.tally.pulls = 0
  isSealed : ∀ s, c.result = .ok s → s.isSealed = true

variable {c : Compiled}

theorem sealed_ok {s : Stage} (h : s.isSealed = true) : (ok s).Sealed := by
  refine ⟨rfl, ?_⟩
  rintro _ ⟨⟩
  exact h

theorem sealed_fail (e : PlanError) : (fail e).Sealed := ⟨rfl, nofun⟩

theorem Sealed.counted (h : c.Sealed) : c.counted.Sealed := by
  refine ⟨?_, h.isSealed⟩
  show 0 + c.tally.pulls = 0
  rw [h.pulls]

theorem Sealed.andThen (h : c.Sealed) {f : Stage → Compiled}
    (hf : ∀ s, s.isSealed = true → (f s).Sealed) : (c.andThen f).Sealed := by
  obtain ⟨e | s, tally⟩ := c
  · exact ⟨h.pulls, nofun⟩
  · have hs := hf s (h.isSealed s rfl)
    have hpulls : tally.pulls = 0 := h.pulls
    refine ⟨?_, hs.isSealed⟩
    show tally.pulls + (f s).tally.pulls = 0
    rw [hpulls, hs.pulls]

theorem Sealed.map (h : c.Sealed) {f : Stage → Stage}
    (hf : ∀ s, s.isSealed = true → (f s).isSealed = true) : (c.map f).Sealed := by
  refine ⟨h.pulls, fun t ht => ?_⟩
  obtain ⟨s, hs, rfl⟩ := Compiled.map_eq_ok ht
  exact hf s (h.isSealed s hs)

theorem Sealed.applying (h : c.Sealed) (p : Except PlanError Procedure) :
    (c.applying p).Sealed := by
  cases p with
  | error e => exact sealed_fail e
  | ok p => exact h.map fun _ hs => hs

end Compiled

namespace Op

open Stage

/-- Over an input without outer source the operator gets by without one. -/
def Seals (op : Op) : Prop :=
  ∀ ⦃ctx : Context⦄ ⦃i : Stage⦄, i.isSealed = true → (compile ctx op i).Sealed

variable {l r sub : Op}

theorem seals_of_ok {op : Op} {f : Context → Stage → Stage}
    (hc : ∀ ctx i, compile ctx op i = (Compiled.ok (f ctx i)).counted)
    (hf : ∀ ctx i, i.isSealed = true → (f ctx i).isSealed = true) : op.Seals := by
  intro ctx i hi
  rw [hc]
  exact (Compiled.sealed_ok (hf ctx i hi)).counted

theorem seals_of_map {op : Op} (h : sub.Seals) {f : Context → Stage → Stage}
    (hc : ∀ ctx i, compile ctx op i = ((compile ctx sub i).map (f ctx)).counted)
    (hf : ∀ ctx s, s.isSealed = true → (f ctx s).isSealed = true) : op.Seals := by
  intro ctx i hi
  rw [hc]
  exact ((h hi).map (hf ctx)).counted

theorem seals_join (hl : l.Seals) (hr : r.Seals) : (join l r).Seals := by
  intro ctx i hi
  rw [compile_join]
  refine ((hl hi).andThen fun s hs => ?_).counted
  split
  · exact hr hs
  · exact (hr rfl).map fun t ht => Bool.and_eq_true_iff.2 ⟨hs, ht⟩

theorem seals_leftJoin (hl : l.Seals) (hr : r.Seals) (exprs : Option (List Expr)) :
    (leftJoin l r exprs).Seals := by
  intro ctx i hi
  rw [compile_leftJoin]
  refine ((hl hi).andThen fun s hs => ?_).counted
  split
  · exact Compiled.sealed_ok hs
  · exact (hr rfl).map fun t ht => Bool.and_eq_true_iff.2 ⟨hs, ht⟩

theorem seals_diff (hl : l.Seals) (hr : r.Seals) : (diff l r).Seals := by
  intro ctx i hi
  rw [compile_diff]
  refine ((hl hi).andThen fun s hs => ?_).counted
  exact (hr rfl).map fun t ht => Bool.and_eq_true_iff.2 ⟨hs, ht⟩

theorem seals_quad (q : QuadPattern) : (quad q).Seals := by
  obtain ⟨g, p⟩ := q
  intro ctx i hi
  cases g with
  | some g => exact (Compiled.sealed_fail _).counted
  | none => exact (Compiled.sealed_ok (isSealed_pattern p _ hi)).counted

theorem seals_sequence {steps : List Op} (h : ∀ op ∈ steps, op.Seals) :
    (sequence steps).Seals := by
  intro ctx i hi
  rw [compile_sequence]
  refine Compiled.Sealed.counted ?_
  induction steps generalizing i with
  | nil => exact Compiled.sealed_ok hi
  | cons op rest ih =>
    rw [compileSteps_cons]
    exact (h op List.mem_cons_self hi).andThen fun s hs =>
      ih (fun o ho => h o (List.mem_cons_of_mem op ho)) hs

theorem seals_ext (e : Extension) : (ext e).Seals := by
  intro ctx i hi
  rw [compile_ext, Extension.stage]
  rcases e.eval ctx with err | _ | l | _
  · cases err <;> exact (Compiled.sealed_fail _).counted
  · exact (Compiled.sealed_ok hi).counted
  · exact (Compiled.sealed_ok (s := .rows l) rfl).counted
  · exact (Compiled.sealed_fail _).counted

theorem seals (op : Op) : op.Seals := by
  -- The stages below are the input, those of operands over it, and those of operands over the root.
  induction op using operands_induction with
  | step op ih =>
    cases op with
    | join l r => exact seals_join (ih l (by simp [operands])) (ih r (by simp [operands]))
    | leftJoin l r exprs =>
      exact seals_leftJoin (ih l (by simp [operands])) (ih r (by simp [operands])) exprs
    | diff l r => exact seals_diff (ih l (by simp [operands])) (ih r (by simp [operands]))
    | quad q => exact seals_quad q
    | sequence steps => exact seals_sequence ih
    | ext e => exact seals_ext e
    | conditional l r => exact fun ctx i _ => (Compiled.sealed_fail _).counted
    | datasetNames g => exact fun ctx i _ => (Compiled.sealed_fail _).counted
    | null =>
      intro ctx i _
      refine Compiled.Sealed.counted ⟨rfl, ?_⟩
      rintro _ ⟨⟩
      rfl
    | bgp p => exact seals_of_ok (compile_bgp · · p) fun ctx _ => isSealed_pattern p ctx.graph
    | triple t => exact seals_of_ok (compile_triple · · t) fun _ _ => id
    | path p => exact seals_of_ok (compile_path · · p) fun _ _ => id
    | union l r => exact seals_of_ok (compile_union · · l r) fun _ _ => id
    | graph name sub => exact seals_of_ok (compile_graph · · name sub) fun _ _ => id
    | service endpoint sub silent =>
      exact seals_of_ok (compile_service · · endpoint sub silent) fun _ _ => id
    | table t => exact seals_of_ok (compile_table · · t) fun ctx _ => isSealed_table t ctx
    | marker name => exact seals_of_ok (compile_marker · · name) fun _ _ => id
    | procedure name args sub =>
      exact fun ctx i hi => ((ih sub (by simp [operands]) hi).applying _).counted
    | propFunc property subject object sub =>
      exact fun ctx i hi => ((ih sub (by simp [operands]) hi).applying _).counted
    | label name sub => exact fun ctx i hi => (ih sub (by simp [operands]) hi).counted
    | list sub => exact fun ctx i hi => (ih sub (by simp [operands]) hi).counted
    | filter exprs sub =>
      exact seals_of_map (ih sub (by simp [operands])) (compile_filter · · exprs sub)
        fun ctx _ => isSealed_filters ctx.functions exprs
    | project vars sub =>
      exact seals_of_map (ih sub (by simp [operands])) (compile_project · · vars sub) fun _ _ => id
    | order keys sub =>
      exact seals_of_map (ih sub (by simp [operands])) (compile_order · · keys sub) fun _ _ => id
    | slice offset length sub =>
      exact seals_of_map (ih sub (by simp [operands])) (compile_slice · · offset length sub)
        fun _ _ => id
    | distinct sub =>
      exact seals_of_map (ih sub (by simp [operands])) (compile_distinct · · sub) fun _ _ => id
    | reduced sub =>
      exact seals_of_map (ih sub (by simp [operands])) (compile_reduced · · sub) fun _ _ => id
    | group vars aggs sub =>
      exact seals_of_map (ih sub (by simp [operands])) (compile_group · · vars aggs sub)
        fun _ _ => id
    | assign assignments sub =>
      exact seals_of_map (ih sub (by simp [operands])) (compile_assign · · assignments sub)
        fun _ _ => id

end Op

namespace Expansion

/-- What a row is expanded to has no outer source. -/
def Sealed : Expanded → Prop
  | .flow s => s.isSealed = true
  | .hold _ s => s.isSealed = true
  | .failed _ => True

theorem sealed_flowing {c : Compiled} (h : c.Sealed) :
    Sealed (flowing c).1 ∧ (flowing c).2.pulls = 0 := by
  obtain ⟨e | s, tally⟩ := c
  · exact ⟨trivial, h.pulls⟩
  · exact ⟨h.isSealed s rfl, h.pulls⟩

theorem sealed_holding (ctx : Context) (b : Binding) {c : Compiled} (h : c.Sealed) :
    Sealed (holding ctx b c).1 ∧ (holding ctx b c).2.pulls = 0 := by
  obtain ⟨e | s, tally⟩ := c
  · cases e with
    | cancelled => exact ⟨trivial, h.pulls⟩
    | _ => exact ⟨rfl, h.pulls⟩
  · exact ⟨h.isSealed s rfl, h.pulls⟩

theorem sealed_request (endpoint : Slot) (sub : Op) (ctx : Context) (b : Binding) :
    (request endpoint sub ctx b).Sealed := by
  unfold request
  split
  · exact Compiled.sealed_fail _
  · exact sub.seals rfl

theorem sealed_expand (rule : Expansion) (b : Binding) :
    Sealed (rule.expand b).1 ∧ (rule.expand b).2.pulls = 0 := by
  cases rule with
  | triple t g => exact ⟨rfl, rfl⟩
  | path p g => exact ⟨rfl, rfl⟩
  | union branches ctx => exact ⟨rfl, rfl⟩
  | graph name sub ctx =>
    cases hi : inGraphs name sub ctx b with
    | inr g =>
      rw [expand_graph_inr hi]
      exact sealed_flowing (sub.seals rfl)
    | inl s =>
      rw [expand_graph_inl hi]
      refine ⟨?_, rfl⟩
      -- The stage is a chain, or empty.
      show s.isSealed = true
      unfold inGraphs at hi
      split at hi
      · split at hi <;> cases hi
        rfl
      · split at hi <;> cases hi <;> rfl
  | service endpoint sub silent ctx =>
    have hrequest := sealed_request endpoint sub ctx b
    have he : (service endpoint sub silent ctx).expand b =
        if silent then holding ctx b (request endpoint sub ctx b)
        else flowing (request endpoint sub ctx b) := rfl
    rw [he]
    cases silent with
    | true => exact sealed_holding ctx b hrequest
    | false => exact sealed_flowing hrequest
  | procedure p earlier =>
    cases ha : p.answer earlier b with
    | ok l =>
      rw [expand_procedure_ok ha]
      exact ⟨rfl, rfl⟩
    | error e =>
      rw [expand_procedure_error ha]
      exact ⟨trivial, rfl⟩

end Expansion

namespace Move

open Stage

/-- The step costs no pull, and the stage after it has no outer source. -/
structure Sealed (m : Move) : Prop where
  pulls : m.tally.pulls = 0
  isSealed : m.stage.isSealed = true

variable {m : Move} {input : Stage}

theorem Sealed.within {f : Stage → Stage} (h : m.Sealed)
    (hf : m.stage.isSealed = true → (f m.stage).isSealed = true) : (m.within f).Sealed :=
  ⟨h.pulls, hf h.isSealed⟩

theorem Sealed.turn {x : Signal} {t : Stage} {cost : Tally} (h : m.Sealed) (hc : cost.pulls = 0)
    (ht : m.stage.isSealed = true → t.isSealed = true) : (m.turn x t cost).Sealed := by
  refine ⟨?_, ht h.isSealed⟩
  show m.tally.pulls + cost.pulls = 0
  rw [h.pulls, hc]

theorem Sealed.each {rule : Expansion} (h : m.Sealed) : (m.each rule).Sealed := by
  unfold Move.each
  split
  · rename_i b _
    obtain ⟨hx, hc⟩ := rule.sealed_expand b
    rcases he : rule.expand b with ⟨s | ⟨ctx, s⟩ | e, cost⟩ <;> rw [he] at hx hc
    · exact h.turn hc fun hs => Bool.and_eq_true_iff.2 ⟨hs, hx⟩
    · exact h.turn hc fun hs => Bool.and_eq_true_iff.2 ⟨hs, hx⟩
    · exact h.turn hc id
  · exact h.within id

theorem Sealed.eachOf {rule : Expansion} (hi : input.isSealed = true) (h : m.Sealed) :
    (m.eachOf rule input).Sealed := by
  unfold Move.eachOf
  split
  · exact h.turn rfl fun _ => hi
  · exact h.within fun hs => Bool.and_eq_true_iff.2 ⟨hi, hs⟩

theorem Sealed.eachHeld {rule : Expansion} {ctx : Context} {b : Binding} {acc : List Binding}
    (hi : input.isSealed = true) (h : m.Sealed) : (m.eachHeld rule ctx input b acc).Sealed := by
  unfold Move.eachHeld
  split
  · exact h.within fun hs => Bool.and_eq_true_iff.2 ⟨hi, hs⟩
  · exact h.turn rfl fun hs => Bool.and_eq_true_iff.2 ⟨hi, hs⟩
  · exact h.turn rfl fun _ => Bool.and_eq_true_iff.2 ⟨hi, rfl⟩
  · exact h.turn rfl fun _ => hi
  · exact h.turn rfl fun _ => Bool.and_eq_true_iff.2 ⟨hi, rfl⟩

theorem Sealed.chainOf {pending : List Seeded} (h : m.Sealed) : (m.chainOf pending).Sealed := by
  unfold Move.chainOf
  split
  · exact h.turn rfl fun _ => rfl
  · exact h.within id

theorem Sealed.pair {rule : Pairing} {ctx : Context} {right : Stage}
    {loaded : Option (List Binding)} (hr : right.isSealed = true) (h : m.Sealed) :
    (m.pair rule ctx right loaded).Sealed := by
  unfold Move.pair
  split
  · exact h.turn rfl fun hs => Bool.and_eq_true_iff.2 ⟨hs, hr⟩
  · exact h.turn rfl fun hs => Bool.and_eq_true_iff.2 ⟨hs, hr⟩
  · exact h.within fun hs => Bool.and_eq_true_iff.2 ⟨hs, hr⟩

theorem Sealed.pairLoad {rule : Pairing} {ctx : Context} {b : Binding} {acc : List Binding}
    (hi : input.isSealed = true) (h : m.Sealed) : (m.pairLoad rule ctx input b acc).Sealed := by
  have hcost : rule.tally.pulls = 0 := by cases rule <;> rfl
  unfold Move.pairLoad
  split
  · exact h.within fun hs => Bool.and_eq_true_iff.2 ⟨hi, hs⟩
  · exact h.turn rfl fun hs => Bool.and_eq_true_iff.2 ⟨hi, hs⟩
  · exact h.turn (by simp [hcost]) fun hs => Bool.and_eq_true_iff.2 ⟨hi, isSealed_close hs⟩
  · exact h.turn rfl fun hs => Bool.and_eq_true_iff.2 ⟨hi, isSealed_close hs⟩

theorem Sealed.optional {part : Op} {ctx : Context} (h : m.Sealed) :
    (m.optional part ctx).Sealed := by
  unfold Move.optional
  split
  · rename_i b _
    have hc : (compile ctx part (rows [b])).Sealed := part.seals rfl
    dsimp only
    split
    · rename_i u hu
      exact h.turn hc.pulls fun hs => Bool.and_eq_true_iff.2 ⟨hs, hc.isSealed u hu⟩
    · exact h.turn hc.pulls id
  · exact h.within id

theorem Sealed.optionalOf {part : Op} {ctx : Context} {seed : Binding} {found : Bool}
    (hi : input.isSealed = true) (h : m.Sealed) :
    (m.optionalOf part ctx input seed found).Sealed := by
  unfold Move.optionalOf
  split
  · exact h.within fun hs => Bool.and_eq_true_iff.2 ⟨hi, hs⟩
  · exact h.turn rfl fun _ => hi
  · exact h.within fun hs => Bool.and_eq_true_iff.2 ⟨hi, hs⟩

theorem Sealed.gather {rule : Gathering} {ctx : Context} {acc : List Binding} (h : m.Sealed) :
    (m.gather rule ctx acc).Sealed := by
  have hcost : rule.tally.pulls = 0 := by cases rule <;> rfl
  unfold Move.gather
  split
  · exact h.within id
  · exact h.turn rfl id
  · exact h.turn (by simp [hcost]) isSealed_close
  · exact h.turn rfl isSealed_close

theorem Sealed.slice {skip : Nat} {limit : Option Nat} (h : m.Sealed) :
    (m.slice skip limit).Sealed := by
  unfold Move.slice
  split
  · -- A row is skipped, or the last one, after which the input is released, or one of the others.
    split
    · exact h.turn rfl id
    · split
      · exact h.turn rfl isSealed_close
      · exact h.turn rfl id
  · exact h.within id

theorem Sealed.via {rule : RowRule} {fs : Functions} {closed : Bool} (h : m.Sealed) :
    (m.via rule fs closed).Sealed := by
  have hcost : rule.tally.pulls = 0 := by cases rule <;> rfl
  unfold Move.via
  split
  · exact h.turn hcost id
  · exact h.within id

end Move

namespace Stage

/-- A stage without outer source pulls none in a step, and does not get one. -/
theorem sealed_step {s : Stage} (h : s.isSealed = true) (raised : Bool) :
    (step raised s).Sealed := by
  -- A step of a stage takes one step of the stage that it works on, so the induction is on stages;
  -- what is compiled on the way is sealed because it is compiled over single rows.
  induction s with
  | root => exact ⟨rfl, rfl⟩
  | rows l => cases l <;> exact ⟨rfl, rfl⟩
  | source items => cases h
  | each rule input hi => exact (hi h).each
  | eachOf rule input current _ hc =>
    obtain ⟨hin, hcur⟩ := Bool.and_eq_true_iff.1 h
    exact (hc hcur).eachOf hin
  | eachHeld rule ctx input row held acc _ hh =>
    obtain ⟨hin, hheld⟩ := Bool.and_eq_true_iff.1 h
    rw [step_eachHeld]
    split
    · exact ⟨rfl, hin⟩
    · exact (hh hheld).eachHeld hin
  | chain pending =>
    cases pending with
    | nil => exact ⟨rfl, rfl⟩
    | cons p pending =>
      have hp : (compile p.ctx p.op (rows [p.seed])).Sealed := p.op.seals rfl
      cases hc : (compile p.ctx p.op (rows [p.seed])).result with
      | ok u =>
        rw [step_chain_ok raised pending hc]
        exact ⟨hp.pulls, hp.isSealed u hc⟩
      | error e =>
        rw [step_chain_error raised pending hc]
        exact ⟨hp.pulls, rfl⟩
  | chainOf pending current hc => exact (hc h).chainOf
  | pair rule ctx left right loaded queue hl _ =>
    obtain ⟨hleft, hright⟩ := Bool.and_eq_true_iff.1 h
    cases queue with
    | nil => exact (hl hleft).pair hright
    | cons b queue => exact ⟨rfl, h⟩
  | pairLoad rule ctx left right row acc _ hr =>
    obtain ⟨hleft, hright⟩ := Bool.and_eq_true_iff.1 h
    rw [step_pairLoad]
    split
    · exact ⟨rfl, Bool.and_eq_true_iff.2 ⟨hleft, isSealed_close hright⟩⟩
    · exact (hr hright).pairLoad hleft
  | optional part ctx left hl => exact (hl h).optional
  | optionalOf part ctx left seed current found _ hc =>
    obtain ⟨hleft, hcur⟩ := Bool.and_eq_true_iff.1 h
    exact (hc hcur).optionalOf hleft
  | gather rule ctx input acc hi =>
    rw [step_gather]
    split
    · exact ⟨rfl, isSealed_close h⟩
    · exact (hi h).gather
  | gathered input rest hi => cases rest <;> exact ⟨rfl, h⟩
  | slice input skip limit hi =>
    rw [step_slice]
    split
    · exact ⟨rfl, rfl⟩
    · exact (hi h).slice
  | via rule fs input closed hi => exact (hi h).via

end Stage

end SparqlAlgebra
