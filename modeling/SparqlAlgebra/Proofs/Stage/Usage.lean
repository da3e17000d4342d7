import SparqlAlgebra.Proofs.Stage.Emits

/-!
Stages in the hands of a caller, who pulls and releases them in any order. Whatever the caller does,
no outer source gets lost: each one that a stage held has been released, or the stage still holds it
and releases it in turn.
-/

namespace SparqlAlgebra

/-- What a caller does to a stage: a pull, with the cancel token up or down, or a release. -/
inductive Use where
  | pull (raised : Bool)
  | close
deriving DecidableEq, Repr, Inhabited

namespace Tally

theorem closes_add (a b : Tally) : (a + b).closes = a.closes + b.closes := rfl

theorem zero_add (a : Tally) : {} + a = a := by
  show Tally.add {} a = a
  simp [add]

theorem add_assoc (a b c : Tally) : a + b + c = a + (b + c) := by
  show ((a.add b).add c) = a.add (b.add c)
  simp [add, Nat.add_assoc]

end Tally

namespace Stage

/-- The stage after some uses. -/
def after (s : Stage) : List Use → Stage
  | [] => s
  | .pull raised :: uses => after (s.pull raised).stage uses
  | .close :: uses => after s.close uses

/-- What the pulls among some uses give. -/
def answers (s : Stage) : List Use → List (Except PlanError (Option Binding))
  | [] => []
  | .pull raised :: uses => (s.pull raised).outcome :: answers (s.pull raised).stage uses
  | .close :: uses => answers s.close uses

/-- How often some uses release outer sources. -/
def closings (s : Stage) : List Use → Nat
  | [] => 0
  | .pull raised :: uses => (s.pull raised).tally.closes + closings (s.pull raised).stage uses
  | .close :: uses => s.closes + closings s.close uses

variable {raised : Bool} {s : Stage}

theorem after_append (s : Stage) (uses more : List Use) :
    s.after (uses ++ more) = (s.after uses).after more := by
  induction uses generalizing s with
  | nil => rfl
  | cons u uses ih =>
    cases u with
    | pull raised => exact ih _
    | close => exact ih _

/-- The cost so far is all that a pull carries along. -/
theorem pull_spent (raised : Bool) (s : Stage) (spent : Tally) :
    (s.pull raised spent).outcome = (s.pull raised).outcome ∧
      (s.pull raised spent).stage = (s.pull raised).stage := by
  induction s.ends generalizing spent with
  | intro s _ ih =>
    cases hx : (step raised s).signal with
    | silent =>
      rw [pull_of_silent hx, pull_of_silent hx]
      have h (t : Tally) := ih _ (progress_silent hx) t
      exact ⟨(h _).1.trans (h _).1.symm, (h _).2.trans (h _).2.symm⟩
    | row b => simp [pull_of_row hx]
    | finished => simp [pull_of_finished hx]
    | failed e => simp [pull_of_failed hx]

/-- What was spent before a pull adds to its cost. -/
theorem tally_spent (raised : Bool) (s : Stage) (spent : Tally) :
    (s.pull raised spent).tally = spent + (s.pull raised).tally := by
  induction s.ends generalizing spent with
  | intro s _ ih =>
    cases hx : (step raised s).signal with
    | silent =>
      have h (t : Tally) := ih _ (progress_silent hx) t
      rw [pull_of_silent hx, pull_of_silent hx, h, h ({} + _), Tally.zero_add, Tally.add_assoc]
    | row b => rw [pull_of_row hx, pull_of_row hx, Tally.zero_add]
    | finished => rw [pull_of_finished hx, pull_of_finished hx, Tally.zero_add]
    | failed e => rw [pull_of_failed hx, pull_of_failed hx, Tally.zero_add]

section Pull

variable {t : Stage}

theorem Shows.pull_silent (h : Shows raised s .silent t) :
    (s.pull raised).outcome = (t.pull raised).outcome ∧
      (s.pull raised).stage = (t.pull raised).stage := by
  rw [pull_of_silent h.1, h.2]
  exact pull_spent ..

theorem Shows.pull_row {b : Binding} (h : Shows raised s (.row b) t) :
    (s.pull raised).outcome = .ok (some b) ∧ (s.pull raised).stage = t := by
  rw [pull_of_row h.1]
  exact ⟨rfl, h.2⟩

theorem Shows.pull_finished (h : Shows raised s .finished t) :
    (s.pull raised).outcome = .ok none ∧ (s.pull raised).stage = t := by
  rw [pull_of_finished h.1]
  exact ⟨rfl, h.2⟩

theorem Shows.pull_failed {e : PlanError} (h : Shows raised s (.failed e) t) :
    (s.pull raised).outcome = .error e ∧ (s.pull raised).stage = t := by
  rw [pull_of_failed h.1]
  exact ⟨rfl, h.2⟩

end Pull

/-- The first row of what a stage emits, or its end, is what a pull gives. -/
theorem Emits.pull {l : List Binding} {o : Option PlanError} (h : Emits raised s l o) :
    (∃ b rest, l = b :: rest ∧ (s.pull raised).outcome = .ok (some b) ∧
        Emits raised (s.pull raised).stage rest o) ∨
      (l = [] ∧ ∀ b, (s.pull raised).outcome ≠ .ok (some b)) := by
  induction h with
  | finished h => exact .inr ⟨rfl, by rw [h.pull_finished.1]; exact nofun⟩
  | failed h => exact .inr ⟨rfl, by rw [h.pull_failed.1]; exact nofun⟩
  | silent h _ ih =>
    rw [h.pull_silent.1, h.pull_silent.2]
    exact ih
  | row h ht _ =>
    refine .inl ⟨_, _, rfl, h.pull_row.1, ?_⟩
    rw [h.pull_row.2]
    exact ht

end Stage

namespace Move

open Stage

/-- At least `n` outer sources are released by the step or still held by the stage after it. -/
def Covers (n : Nat) (m : Move) : Prop := n ≤ m.tally.closes + m.stage.closes

variable {m : Move} {n k : Nat}

theorem Covers.within {f : Stage → Stage} (h : m.Covers n)
    (hf : m.stage.closes + k ≤ (f m.stage).closes) : (m.within f).Covers (n + k) := by
  have hm : n ≤ m.tally.closes + m.stage.closes := h
  show n + k ≤ m.tally.closes + (f m.stage).closes
  omega

theorem Covers.turn {x : Signal} {t : Stage} {cost : Tally} (h : m.Covers n)
    (ht : m.stage.closes + k ≤ cost.closes + t.closes) : (m.turn x t cost).Covers (n + k) := by
  have hm : n ≤ m.tally.closes + m.stage.closes := h
  show n + k ≤ m.tally.closes + cost.closes + t.closes
  omega

theorem covers_each {rule : Expansion} (h : m.Covers n) : (m.each rule).Covers n := by
  unfold Move.each
  split
  · rename_i b _
    rcases rule.expand b with ⟨s | ⟨ctx, s⟩ | e, cost⟩
    all_goals exact h.turn (k := 0) (by simp only [closes]; omega)
  · exact h.within (k := 0) (Nat.le_refl _)

theorem covers_eachOf {rule : Expansion} {input : Stage} (h : m.Covers n) :
    (m.eachOf rule input).Covers (n + input.closes) := by
  unfold Move.eachOf
  split
  · exact h.turn (Nat.le_refl _)
  · exact h.within (Nat.le_refl _)

theorem covers_eachHeld {rule : Expansion} {ctx : Context} {input : Stage} {b : Binding}
    {acc : List Binding} (h : m.Covers n) :
    (m.eachHeld rule ctx input b acc).Covers (n + input.closes) := by
  unfold Move.eachHeld
  split
  · exact h.within (Nat.le_refl _)
  · exact h.turn (by simp only [closes]; omega)
  · exact h.turn (by simp only [closeTally, closes]; omega)
  · exact h.turn (Nat.le_refl _)
  · exact h.turn (by simp only [closeTally, closes]; omega)

theorem covers_chainOf {pending : List Seeded} (h : m.Covers n) :
    (m.chainOf pending).Covers n := by
  unfold Move.chainOf
  split
  · exact h.turn (k := 0) (Nat.le_add_right _ _)
  · exact h.within (k := 0) (Nat.le_refl _)

theorem covers_pair {rule : Pairing} {ctx : Context} {right : Stage}
    {loaded : Option (List Binding)} (h : m.Covers n) :
    (m.pair rule ctx right loaded).Covers (n + right.closes) := by
  unfold Move.pair
  split
  · exact h.turn (by simp only [closes]; omega)
  · exact h.turn (by simp only [closes]; omega)
  · exact h.within (Nat.le_refl _)

theorem covers_pairLoad {rule : Pairing} {ctx : Context} {left : Stage} {b : Binding}
    {acc : List Binding} (h : m.Covers n) :
    (m.pairLoad rule ctx left b acc).Covers (n + left.closes) := by
  unfold Move.pairLoad
  split
  · exact h.within (by simp only [closes]; omega)
  · exact h.turn (by simp only [closes]; omega)
  · exact h.turn (by simp only [Tally.closes_add, closeTally, closes]; omega)
  · exact h.turn (by simp only [closeTally, closes]; omega)

theorem covers_optional {part : Op} {ctx : Context} (h : m.Covers n) :
    (m.optional part ctx).Covers n := by
  unfold Move.optional
  split
  · dsimp only
    split
    all_goals exact h.turn (k := 0) (by simp only [closes]; omega)
  · exact h.within (k := 0) (Nat.le_refl _)

theorem covers_optionalOf {part : Op} {ctx : Context} {left : Stage} {seed : Binding}
    {found : Bool} (h : m.Covers n) :
    (m.optionalOf part ctx left seed found).Covers (n + left.closes) := by
  unfold Move.optionalOf
  split
  · exact h.within (Nat.le_refl _)
  · exact h.turn (Nat.le_refl _)
  · exact h.within (Nat.le_refl _)

theorem covers_gather {rule : Gathering} {ctx : Context} {acc : List Binding} (h : m.Covers n) :
    (m.gather rule ctx acc).Covers n := by
  unfold Move.gather
  split
  · exact h.within (k := 0) (Nat.le_refl _)
  · exact h.turn (k := 0) (by simp only [closes]; omega)
  · exact h.turn (k := 0) (by simp only [Tally.closes_add, closeTally]; omega)
  · exact h.turn (k := 0) (by simp only [closeTally]; omega)

theorem covers_slice {skip : Nat} {limit : Option Nat} (h : m.Covers n) :
    (m.slice skip limit).Covers n := by
  unfold Move.slice
  split
  · split
    · exact h.turn (k := 0) (by simp only [closes]; omega)
    · split
      · exact h.turn (k := 0) (by simp only [closeTally]; omega)
      · exact h.turn (k := 0) (by simp only [closes]; omega)
  · exact h.within (k := 0) (Nat.le_refl _)

theorem covers_via {rule : RowRule} {fs : Functions} (h : m.Covers n) :
    (m.via rule fs false).Covers n := by
  unfold Move.via
  split
  · exact h.turn (k := 0) (by simp only [closes]; omega)
  · exact h.within (k := 0) (Nat.le_refl _)

end Move

namespace Stage

/-- No step lets go of an outer source that it does not release. -/
theorem covers_step (raised : Bool) (s : Stage) : (step raised s).Covers s.closes := by
  induction s with
  | root => exact Nat.zero_le _
  | rows l => exact Nat.zero_le _
  | source items => rcases items with _ | ⟨e | b, items⟩ <;> exact Nat.le_refl _
  | each rule input hi => exact Move.covers_each hi
  | eachOf rule input current _ hc => exact Move.covers_eachOf hc
  | eachHeld rule ctx input row held acc _ hh =>
    rw [step_eachHeld]
    split
    · exact Nat.le_refl _
    · exact Move.covers_eachHeld hh
  | chain pending => exact Nat.zero_le _
  | chainOf pending current hc => exact Move.covers_chainOf hc
  | pair rule ctx left right loaded queue hl _ =>
    cases queue with
    | nil => exact Move.covers_pair hl
    | cons b queue => exact Nat.le_add_left _ _
  | pairLoad rule ctx left right row acc _ hr =>
    rw [step_pairLoad]
    split
    · show left.closes + right.closes ≤ right.closes + (left.closes + right.close.closes)
      omega
    · rw [closes, Nat.add_comm]
      exact Move.covers_pairLoad hr
  | optional part ctx left hl => exact Move.covers_optional hl
  | optionalOf part ctx left seed current found _ hc => exact Move.covers_optionalOf hc
  | gather rule ctx input acc hi =>
    rw [step_gather]
    split
    · exact Nat.le_add_right _ _
    · exact Move.covers_gather hi
  | gathered input rest hi =>
    cases rest with
    | nil => exact Nat.le_add_left _ _
    | cons b rest => exact Nat.le_add_left _ _
  | slice input skip limit hi =>
    rw [step_slice]
    split
    · exact Nat.le_refl _
    · exact Move.covers_slice hi
  | via rule fs input closed hi =>
    cases closed with
    | false => exact Move.covers_via hi
    | true => exact Nat.zero_le _

theorem closes_le_pull (raised : Bool) (s : Stage) (spent : Tally) :
    spent.closes + s.closes ≤
      (s.pull raised spent).tally.closes + (s.pull raised spent).stage.closes := by
  induction s.ends generalizing spent with
  | intro s _ ih =>
    have hstep : s.closes ≤ (step raised s).tally.closes + (step raised s).stage.closes :=
      covers_step raised s
    have hnow : spent.closes + s.closes ≤
        (spent + (step raised s).tally).closes + (step raised s).stage.closes := by
      rw [Tally.closes_add]
      omega
    cases hx : (step raised s).signal with
    | silent =>
      rw [pull_of_silent hx]
      exact Nat.le_trans hnow (ih _ (progress_silent hx) _)
    | row b =>
      rw [pull_of_row hx]
      exact hnow
    | finished =>
      rw [pull_of_finished hx]
      exact hnow
    | failed e =>
      rw [pull_of_failed hx]
      exact hnow

/-- What a stage held at first has been released by the caller's uses, or it is by one more. -/
theorem closes_le_closings (s : Stage) (uses : List Use) :
    s.closes ≤ s.closings uses + (s.after uses).closes := by
  induction uses generalizing s with
  | nil => exact Nat.le_add_left _ _
  | cons u uses ih =>
    cases u with
    | pull raised =>
      have hpull := closes_le_pull raised s {}
      have hrest := ih (s.pull raised).stage
      have hzero : ({} : Tally).closes = 0 := rfl
      rw [hzero] at hpull
      rw [closings, after]
      omega
    | close =>
      rw [closings, after]
      omega

end Stage

end SparqlAlgebra
