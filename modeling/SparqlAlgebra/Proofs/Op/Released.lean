import SparqlAlgebra.Proofs.Op.Builds
import SparqlAlgebra.Proofs.Op.Everywhere
import SparqlAlgebra.Proofs.Stage.Released

/-!
Compiled operators after their release. They are mute if their input is, and have released it.
-/

namespace SparqlAlgebra

open Stage

section Releasable

variable {ctx : Context} {s : Stage}

theorem releasable_pattern (p : BasicPattern) (g : Graph) (h : s.Releasable) :
    (p.stage g s).Releasable := by
  induction p generalizing s with
  | nil => exact h
  | cons t p ih => exact ih (releasable_of_empties rfl)

theorem releasable_filters (fs : Functions) (exprs : List Expr) (h : s.Releasable) :
    (exprs.foldl (fun s e => Stage.via (.filter e) fs s false) s).Releasable := by
  induction exprs generalizing s with
  | nil => exact h
  | cons e exprs ih => exact ih (h.via _ fs)

theorem releasable_table (t : Table) (h : s.Releasable) : (t.stage ctx s).Releasable := by
  rcases t.stage_cases ctx s with ⟨-, ht⟩ | ⟨-, ht⟩ | ht <;> rw [ht]
  · exact h
  · exact releasable_of_empties rfl
  · exact releasable_of_empties rfl

/-- Whatever is built over an input that can be released can itself be released. -/
theorem releasable_of_builds {op : Op} {i : Stage} (h : Op.Builds ctx op i s)
    (hi : i.Releasable) : s.Releasable := by
  induction h with
  | bgp p i => exact releasable_pattern p _ hi
  | quad p i => exact releasable_pattern p _ hi
  | joinFed _ _ _ hl hr => exact hr (hl hi)
  | filter exprs _ ih => exact releasable_filters _ exprs (ih hi)
  | table t i => exact releasable_table t hi
  | noSteps i => exact hi
  | steps _ _ hop hrest => exact hrest (hop hi)
  | marker name i => exact hi
  | label name _ ih => exact ih hi
  | list _ ih => exact ih hi
  | project vars _ ih => exact (ih hi).via _ _
  | distinct _ ih => exact (ih hi).via _ _
  | reduced _ ih => exact (ih hi).via _ _
  | assign assignments _ ih => exact (ih hi).via _ _
  | @ext e i s hs =>
    unfold Extension.stage at hs
    split at hs <;> cases hs
    · exact hi
    · exact releasable_of_empties rfl
  | _ => exact releasable_of_empties rfl

end Releasable

namespace Compiled

/-- At least `n` outer sources are released by the compilation or held by the stage that it gives. -/
def Covers (n : Nat) (c : Compiled) : Prop :=
  ∀ s, c.result = .ok s → n ≤ c.tally.closes + s.closes

variable {n : Nat} {c : Compiled}

theorem covers_ok {s : Stage} (h : n ≤ s.closes) : (ok s).Covers n := by
  rintro t ⟨⟩
  exact Nat.le_add_left_of_le h

theorem Covers.counted (h : c.Covers n) : c.counted.Covers n := by
  intro s hs
  have hc : c.counted.tally.closes = 0 + c.tally.closes := rfl
  rw [hc, Nat.zero_add]
  exact h s hs

theorem Covers.map {f : Stage → Stage} (h : c.Covers n) (hf : ∀ s, s.closes ≤ (f s).closes) :
    (c.map f).Covers n := by
  intro s hs
  obtain ⟨t, ht, rfl⟩ := map_eq_ok hs
  exact Nat.le_trans (h t ht) (Nat.add_le_add_left (hf t) _)

theorem Covers.andThen {f : Stage → Compiled} (h : c.Covers n)
    (hf : ∀ s, (f s).Covers s.closes) : (c.andThen f).Covers n := by
  intro s hs
  obtain ⟨t, ht, hft⟩ := andThen_eq_ok hs
  have htally : (c.andThen f).tally = c.tally + (f t).tally := by
    unfold Compiled.andThen
    rw [ht]
  have hc := h t ht
  have hd := hf t s hft
  rw [htally, Tally.closes_add]
  omega

theorem Covers.applying (h : c.Covers n) (p : Except PlanError Procedure) :
    (c.applying p).Covers n := by
  cases p with
  | error e => exact nofun
  | ok q => exact h.map fun _ => Nat.le_refl _

/-- A left side waits for a right side that is built beside it. -/
theorem covers_paired (c : Compiled) (rule : Pairing) (ctx : Context) (s : Stage) :
    (c.map fun t => .pair rule ctx s t none []).Covers s.closes := by
  intro u hu
  obtain ⟨t, -, rfl⟩ := map_eq_ok hu
  exact Nat.le_add_left_of_le (Nat.le_add_right _ _)

end Compiled

namespace Op

/-- Compiled over an input, the operator lets go of no outer source that it does not release. -/
def Covering (op : Op) : Prop := ∀ ctx i, (compile ctx op i).Covers i.closes

variable {l r sub : Op}

theorem closes_pattern (p : BasicPattern) (g : Graph) (i : Stage) :
    (p.stage g i).closes = i.closes := by
  induction p generalizing i with
  | nil => rfl
  | cons t p ih => exact ih (.each (.triple t g) i)

theorem closes_filters (fs : Functions) (exprs : List Expr) (i : Stage) :
    (exprs.foldl (fun s e => Stage.via (.filter e) fs s false) i).closes = i.closes := by
  induction exprs generalizing i with
  | nil => rfl
  | cons e exprs ih => exact ih (.via (.filter e) fs i false)

theorem closes_table (t : Table) (ctx : Context) (i : Stage) :
    i.closes ≤ (t.stage ctx i).closes := by
  rcases t.stage_cases ctx i with ⟨-, ht⟩ | ⟨rfl, -⟩ | ht
  · exact Nat.le_of_eq (congrArg closes ht.symm)
  · exact Nat.zero_le _
  · rw [ht]
    exact Nat.le_add_right _ _

/-- An operator that puts a stage on the stage of another one. -/
theorem covering_of_map {op : Op} (h : sub.Covering) {f : Context → Stage → Stage}
    (hc : ∀ ctx i, compile ctx op i = ((compile ctx sub i).map (f ctx)).counted)
    (hf : ∀ ctx s, s.closes ≤ (f ctx s).closes) : op.Covering := by
  intro ctx i
  rw [hc]
  exact ((h ctx i).map (hf ctx)).counted

/-- An operator that puts a stage on the input. -/
theorem covering_of_ok {op : Op} {f : Context → Stage → Stage}
    (hc : ∀ ctx i, compile ctx op i = (Compiled.ok (f ctx i)).counted)
    (hf : ∀ ctx i, i.closes ≤ (f ctx i).closes) : op.Covering := by
  intro ctx i
  rw [hc]
  exact (Compiled.covers_ok (hf ctx i)).counted

theorem covering_of_fail {op : Op} {e : PlanError}
    (hc : ∀ ctx i, compile ctx op i = (Compiled.fail e).counted) : op.Covering := by
  intro ctx i s hs
  rw [hc] at hs
  cases hs

/-- An operator that answers the rows of another one with a procedure. -/
theorem covering_of_applying {op : Op} (h : sub.Covering)
    {made : Context → Except PlanError Procedure}
    (hc : ∀ ctx i, compile ctx op i = ((compile ctx sub i).applying (made ctx)).counted) :
    op.Covering := by
  intro ctx i
  rw [hc]
  exact ((h ctx i).applying _).counted

theorem covering_join (hl : l.Covering) (hr : r.Covering) : (join l r).Covering := by
  intro ctx i
  rw [compile_join]
  refine ((hl ctx i).andThen fun s => ?_).counted
  split
  · exact hr ctx s
  · exact Compiled.covers_paired _ _ _ s

theorem covering_leftJoin (hl : l.Covering) (exprs : Option (List Expr)) :
    (leftJoin l r exprs).Covering := by
  intro ctx i
  rw [compile_leftJoin]
  refine ((hl ctx i).andThen fun s => ?_).counted
  split
  · exact Compiled.covers_ok (Nat.le_refl _)
  · exact Compiled.covers_paired _ _ _ s

theorem covering_diff (hl : l.Covering) : (diff l r).Covering := by
  intro ctx i
  rw [compile_diff]
  exact ((hl ctx i).andThen fun s => Compiled.covers_paired _ _ _ s).counted

theorem covering_quad (q : QuadPattern) : (quad q).Covering := by
  obtain ⟨g, p⟩ := q
  cases g with
  | none =>
    exact covering_of_ok (compile_quad_default · · p) fun ctx i =>
      Nat.le_of_eq (closes_pattern p ctx.graph i).symm
  | some g => exact covering_of_fail (compile_quad_graph · · g p)

theorem covering_sequence {steps : List Op} (h : ∀ op ∈ steps, op.Covering) :
    (sequence steps).Covering := by
  intro ctx i
  rw [compile_sequence]
  suffices hs : (compileSteps ctx steps i).Covers i.closes from hs.counted
  induction steps generalizing i with
  | nil => exact Compiled.covers_ok (Nat.le_refl _)
  | cons op rest ih =>
    rw [compileSteps_cons]
    refine (h op List.mem_cons_self ctx i).andThen fun s => ?_
    exact ih (fun o ho => h o (List.mem_cons_of_mem op ho)) s

theorem covering (op : Op) (h : op.native = true) : op.Covering := by
  induction op using operands_induction with
  | step op ih =>
    have below (sub : Op) (hs : sub ∈ op.operands) : sub.Covering :=
      ih sub hs (everywhere_of_mem_operands h hs)
    cases op with
    | bgp p =>
      exact covering_of_ok (compile_bgp · · p) fun ctx i =>
        Nat.le_of_eq (closes_pattern p ctx.graph i).symm
    | triple t => exact covering_of_ok (compile_triple · · t) fun _ _ => Nat.le_refl _
    | quad q => exact covering_quad q
    | path p => exact covering_of_ok (compile_path · · p) fun _ _ => Nat.le_refl _
    | join l r => exact covering_join (below l (by simp [operands])) (below r (by simp [operands]))
    | leftJoin l r exprs => exact covering_leftJoin (below l (by simp [operands])) exprs
    | union l r => exact covering_of_ok (compile_union · · l r) fun _ _ => Nat.le_refl _
    | diff l r => exact covering_diff (below l (by simp [operands]))
    | conditional l r => exact covering_of_fail (compile_conditional · · l r)
    | filter exprs sub =>
      exact covering_of_map (below sub (by simp [operands])) (compile_filter · · exprs sub)
        fun ctx s => Nat.le_of_eq (closes_filters ctx.functions exprs s).symm
    | graph name sub => exact covering_of_ok (compile_graph · · name sub) fun _ _ => Nat.le_refl _
    | service endpoint sub silent =>
      exact covering_of_ok (compile_service · · endpoint sub silent) fun _ _ => Nat.le_refl _
    | procedure name args sub =>
      exact covering_of_applying (below sub (by simp [operands]))
        (compile_procedure · · name args sub)
    | propFunc property subject object sub =>
      exact covering_of_applying (below sub (by simp [operands]))
        (compile_propFunc · · property subject object sub)
    | datasetNames g => exact covering_of_fail (compile_datasetNames · · g)
    | table t => exact covering_of_ok (compile_table · · t) fun ctx i => closes_table t ctx i
    | sequence steps => exact covering_sequence below
    | marker name => exact covering_of_ok (compile_marker · · name) fun _ _ => Nat.le_refl _
    | label name sub =>
      exact fun ctx i => (below sub (by simp [operands]) ctx i).counted
    | list sub => exact fun ctx i => (below sub (by simp [operands]) ctx i).counted
    | null =>
      rintro ctx i s ⟨⟩
      exact Nat.le_add_right_of_le (Nat.le_of_eq (Nat.zero_add _).symm)
    | project vars sub =>
      exact covering_of_map (below sub (by simp [operands])) (compile_project · · vars sub)
        fun _ _ => Nat.le_refl _
    | order keys sub =>
      exact covering_of_map (below sub (by simp [operands])) (compile_order · · keys sub)
        fun _ _ => Nat.le_refl _
    | slice offset length sub =>
      exact covering_of_map (below sub (by simp [operands]))
        (compile_slice · · offset length sub) fun _ _ => Nat.le_refl _
    | distinct sub =>
      exact covering_of_map (below sub (by simp [operands])) (compile_distinct · · sub)
        fun _ _ => Nat.le_refl _
    | reduced sub =>
      exact covering_of_map (below sub (by simp [operands])) (compile_reduced · · sub)
        fun _ _ => Nat.le_refl _
    | group vars aggs sub =>
      exact covering_of_map (below sub (by simp [operands])) (compile_group · · vars aggs sub)
        fun _ _ => Nat.le_refl _
    | assign assignments sub =>
      exact covering_of_map (below sub (by simp [operands]))
        (compile_assign · · assignments sub) fun _ _ => Nat.le_refl _
    | ext e => cases everywhere_self h

end Op

/-- A compiled plan is silent once it is released, whatever was pulled before and whatever is done
afterwards, and by its release each outer source of the input has been released. -/
theorem Context.answers_released {ctx : Context} {op : Op} {input s : Stage}
    (h : op.native = true) (hi : input.Releasable) (hs : (compile ctx op input).result = .ok s)
    (before : List Use) :
    (∀ uses, ∀ x ∈ (s.after before).close.answers uses, x = .ok none) ∧
      input.closes ≤ (compile ctx op input).tally.closes + s.closings before +
        (s.after before).closes := by
  have hr : s.Releasable := releasable_of_builds (Op.builds_of_compile hs) hi
  have hc : input.closes ≤ (compile ctx op input).tally.closes + s.closes :=
    op.covering h ctx input s hs
  have hu : s.closes ≤ s.closings before + (s.after before).closes := s.closes_le_closings before
  exact ⟨hr before, by omega⟩

/-- The source fails at first. The plan has released it with its only row, before the caller
releases the plan. -/
theorem Context.answers_released_slice :
    let op : Op := .reduced (.slice none (some 1) (.union (.order [] (.bgp [])) (.bgp [])))
    let b : Binding := .single ⟨"x"⟩ (.iri "a")
    let input : Stage := .source [.error (.invalid "input failed"), .ok b, .ok b]
    let before : List Use := [.pull false, .pull true, .pull false]
    op.native = true ∧ input.Releasable ∧ input.closes = 1 ∧
      ∃ s, (compile (ofDataset {}) op input).result = .ok s ∧
        (∀ uses, ∀ x ∈ (s.after before).close.answers uses, x = .ok none) ∧
        1 ≤ (compile (ofDataset {}) op input).tally.closes + s.closings before +
          (s.after before).closes := by
  intro op b input before
  have hn : op.native = true := rfl
  have hi : input.Releasable := releasable_of_empties rfl
  have hs : ∃ s, (compile (ofDataset {}) op input).result = .ok s := ⟨_, rfl⟩
  obtain ⟨s, hs⟩ := hs
  exact ⟨hn, hi, rfl, s, hs, answers_released hn hi hs before⟩

end SparqlAlgebra
