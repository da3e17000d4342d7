import SparqlAlgebra.Proofs.Stage.Usage

/-!
Stages after their release. Most stages are empty then, whatever their state was. One that treats
rows one by one goes on to ask its input, which has been released with it, and is as silent as that.
-/

namespace SparqlAlgebra

namespace Stage

/-- Whatever the caller does, the stage gives nothing but its end. -/
def Mute (s : Stage) : Prop := ∀ uses, ∀ x ∈ s.answers uses, x = .ok none

/-- Whenever the caller releases the stage, it is mute from then on. -/
def Releasable (s : Stage) : Prop := ∀ uses, (s.after uses).close.Mute

/-- Whether nothing is left of the stage after a release. -/
def empties : Stage → Bool
  | via .. => false
  | _ => true

variable {raised : Bool} {s input : Stage} {rule : RowRule} {fs : Functions} {closed : Bool}

theorem mute_rows : (rows []).Mute := by
  intro uses
  induction uses with
  | nil => exact List.forall_mem_nil _
  | cons u uses ih =>
    cases u with
    | pull raised =>
      have hp : (rows []).pull raised = ⟨.ok none, rows [], {} + {}⟩ := pull_of_finished rfl _
      rw [answers, hp]
      exact List.forall_mem_cons.2 ⟨rfl, ih⟩
    | close => exact ih

theorem mute_source : (source []).Mute := by
  intro uses
  induction uses with
  | nil => exact List.forall_mem_nil _
  | cons u uses ih =>
    cases u with
    | pull raised =>
      have hp : (source []).pull raised = ⟨.ok none, source [], {} + { pulls := 1 }⟩ :=
        pull_of_finished rfl _
      rw [answers, hp]
      exact List.forall_mem_cons.2 ⟨rfl, ih⟩
    | close => exact ih

theorem Mute.outcome (h : s.Mute) (raised : Bool) : (s.pull raised).outcome = .ok none :=
  h [.pull raised] _ List.mem_cons_self

theorem Mute.close (h : s.Mute) : s.close.Mute := fun uses => h (.close :: uses)

theorem Mute.after (h : s.Mute) (uses : List Use) : (s.after uses).Mute := by
  induction uses generalizing s with
  | nil => exact h
  | cons u uses ih =>
    cases u with
    | pull raised => exact ih fun more x hx => h (.pull raised :: more) x (List.mem_cons_of_mem _ hx)
    | close => exact ih h.close

theorem Releasable.after (h : s.Releasable) (uses : List Use) : (s.after uses).Releasable := by
  intro more
  rw [← after_append]
  exact h (uses ++ more)

section Empties

theorem mute_close_of_empties (h : s.empties = true) : s.close.Mute := by
  cases s with
  | via => cases h
  | source => exact mute_source
  | _ => exact mute_rows

theorem empties_close (h : s.empties = true) : s.close.empties = true := by
  cases s with
  | via => cases h
  | _ => rfl

/-- No step leaves an input alone without the stage around it. -/
theorem empties_step (h : s.empties = true) : (step raised s).stage.empties = true := by
  cases s with
  | root => rfl
  | rows l => cases l <;> rfl
  | source items => rcases items with _ | ⟨e | b, items⟩ <;> rfl
  | each rule input =>
    rw [step_each, Move.each]
    split
    · split <;> rfl
    · rfl
  | eachOf rule input current =>
    rw [step_eachOf, Move.eachOf]
    split <;> rfl
  | eachHeld rule ctx input row held acc =>
    rw [step_eachHeld]
    split
    · rfl
    · rw [Move.eachHeld]
      split <;> rfl
  | chain pending =>
    cases pending with
    | nil => rfl
    | cons p pending =>
      cases hc : (compile p.ctx p.op (rows [p.seed])).result with
      | ok t =>
        rw [step_chain_ok raised pending hc]
        rfl
      | error e =>
        rw [step_chain_error raised pending hc]
        rfl
  | chainOf pending current =>
    rw [step_chainOf, Move.chainOf]
    split <;> rfl
  | pair rule ctx left right loaded queue =>
    cases queue with
    | nil =>
      rw [step_pair_nil]
      unfold Move.pair
      split <;> rfl
    | cons b queue => rfl
  | pairLoad rule ctx left right row acc =>
    rw [step_pairLoad]
    split
    · rfl
    · rw [Move.pairLoad]
      split <;> rfl
  | optional part ctx left =>
    rw [step_optional, Move.optional]
    split
    · dsimp only
      split <;> rfl
    · rfl
  | optionalOf part ctx left seed current found =>
    rw [step_optionalOf, Move.optionalOf]
    split <;> rfl
  | gather rule ctx input acc =>
    rw [step_gather]
    split
    · rfl
    · rw [Move.gather]
      split <;> rfl
  | gathered input rest => cases rest <;> rfl
  | slice input skip limit =>
    rw [step_slice]
    split
    · rfl
    · rw [Move.slice]
      split
      · split
        · rfl
        · split <;> rfl
      · rfl
  | via => cases h

theorem empties_pull (h : s.empties = true) (raised : Bool) :
    (s.pull raised).stage.empties = true := by
  induction s.ends with
  | intro s _ ih =>
    have hstep : (step raised s).stage.empties = true := empties_step h
    cases hx : (step raised s).signal with
    | silent =>
      rw [(Shows.pull_silent ⟨hx, rfl⟩).2]
      exact ih _ (progress_silent hx) hstep
    | row b =>
      rw [(Shows.pull_row ⟨hx, rfl⟩).2]
      exact hstep
    | finished =>
      rw [(Shows.pull_finished ⟨hx, rfl⟩).2]
      exact hstep
    | failed e =>
      rw [(Shows.pull_failed ⟨hx, rfl⟩).2]
      exact hstep

theorem releasable_of_empties (h : s.empties = true) : s.Releasable := by
  intro uses
  induction uses generalizing s with
  | nil => exact mute_close_of_empties h
  | cons u uses ih =>
    cases u with
    | pull raised => exact ih (empties_pull h raised)
    | close => exact ih (empties_close h)

end Empties

section Via

/-- A pull of a stage that treats rows one by one makes some pulls of its input, and gives the end
if the first of them does. -/
theorem exists_pulls_of_via (raised closed : Bool) (fs : Functions) (input : Stage)
    (rule : RowRule) :
    ∃ n rule', ((via rule fs input closed).pull raised).stage =
        via rule' fs (input.after (List.replicate (n + 1) (.pull raised))) closed ∧
      ((input.pull raised).outcome = .ok none →
        ((via rule fs input closed).pull raised).outcome = .ok none) := by
  induction input.ends generalizing rule with
  | intro input _ ih =>
    cases hx : (step raised input).signal with
    | silent =>
      have hi : Shows raised input .silent (step raised input).stage := ⟨hx, rfl⟩
      have hv : Shows raised (via rule fs input closed) .silent
          (via rule fs (step raised input).stage closed) := by
        simp [Shows, step_via, Move.via, Move.within, hx]
      obtain ⟨n, rule', hs, ho⟩ := ih _ (progress_silent hx) rule
      refine ⟨n, rule', ?_, ?_⟩
      · rw [hv.pull_silent.2, List.replicate_succ, Stage.after, hi.pull_silent.2]
        exact hs
      · rw [hv.pull_silent.1, hi.pull_silent.1]
        exact ho
    | row b =>
      have hi : Shows raised input (.row b) (step raised input).stage := ⟨hx, rfl⟩
      have hno : (input.pull raised).outcome ≠ .ok none := by simp [hi.pull_row.1]
      cases hf : (rule.feed fs b).2 with
      | none =>
        -- The row is dropped, and the input is pulled on.
        have hv : Shows raised (via rule fs input closed) .silent
            (via (rule.feed fs b).1 fs (step raised input).stage closed) := by
          simp [Shows, step_via, Move.via, Move.turn, hx, hf]
        obtain ⟨n, rule', hs, -⟩ := ih _ (progress_row hx) (rule.feed fs b).1
        refine ⟨n + 1, rule', ?_, fun h => (hno h).elim⟩
        rw [hv.pull_silent.2, List.replicate_succ, Stage.after, hi.pull_row.2]
        exact hs
      | some c =>
        have hv : Shows raised (via rule fs input closed) (.row c)
            (via (rule.feed fs b).1 fs (step raised input).stage closed) := by
          simp [Shows, step_via, Move.via, Move.turn, hx, hf]
        refine ⟨0, (rule.feed fs b).1, ?_, fun h => (hno h).elim⟩
        rw [hv.pull_row.2]
        simp [Stage.after, hi.pull_row.2]
    | finished =>
      have hi : Shows raised input .finished (step raised input).stage := ⟨hx, rfl⟩
      have hv : Shows raised (via rule fs input closed) .finished
          (via rule fs (step raised input).stage closed) := by
        simp [Shows, step_via, Move.via, Move.within, hx]
      refine ⟨0, rule, ?_, fun _ => hv.pull_finished.1⟩
      rw [hv.pull_finished.2]
      simp [Stage.after, hi.pull_finished.2]
    | failed e =>
      have hi : Shows raised input (.failed e) (step raised input).stage := ⟨hx, rfl⟩
      have hv : Shows raised (via rule fs input closed) (.failed e)
          (via rule fs (step raised input).stage closed) := by
        simp [Shows, step_via, Move.via, Move.within, hx]
      refine ⟨0, rule, ?_, fun h => ?_⟩
      · rw [hv.pull_failed.2]
        simp [Stage.after, hi.pull_failed.2]
      · rw [hi.pull_failed.1] at h
        cases h

theorem Mute.via (h : input.Mute) (rule : RowRule) (fs : Functions) (closed : Bool) :
    (Stage.via rule fs input closed).Mute := by
  intro uses
  induction uses generalizing input rule closed with
  | nil => exact List.forall_mem_nil _
  | cons u uses ih =>
    cases u with
    | pull raised =>
      obtain ⟨n, rule', hs, ho⟩ := exists_pulls_of_via raised closed fs input rule
      rw [answers, hs]
      exact List.forall_mem_cons.2 ⟨ho (h.outcome raised), ih (h.after _) rule' closed⟩
    | close =>
      cases closed with
      | false => exact ih h.close rule.reset true
      | true => exact ih h rule true

theorem Releasable.via (h : input.Releasable) (rule : RowRule) (fs : Functions) :
    (Stage.via rule fs input false).Releasable := by
  intro uses
  -- Once the stage is closed, its input is mute.
  suffices hall : ∀ input rule closed, input.Releasable → (closed = true → input.Mute) →
      ((Stage.via rule fs input closed).after uses).close.Mute from
    hall input rule false h nofun
  clear h
  induction uses with
  | nil =>
    intro input rule closed h hc
    cases closed with
    | false => exact (h []).via rule.reset fs true
    | true => exact (hc rfl).via rule fs true
  | cons u uses ih =>
    intro input rule closed h hc
    cases u with
    | pull raised =>
      obtain ⟨n, rule', hs, -⟩ := exists_pulls_of_via raised closed fs input rule
      rw [Stage.after, hs]
      exact ih _ rule' closed (h.after _) fun e => (hc e).after _
    | close =>
      cases closed with
      | false =>
        have hm : input.close.Mute := h []
        exact ih input.close rule.reset true (h.after [.close]) fun _ => hm
      | true => exact ih input rule true h hc

end Via

end Stage

end SparqlAlgebra
