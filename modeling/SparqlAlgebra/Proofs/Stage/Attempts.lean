import SparqlAlgebra.Proofs.Stage.Emits

/-!
What running stages compile. Branches, optional parts and what stands in graph and service clauses
are compiled when a row arrives. Each step compiles at most one of them, and its failure goes up to
the top, unless a silent service stands in between.
-/

namespace SparqlAlgebra

/-- The stages of a waiting operator over its row. -/
def Seeded.compiled (p : Seeded) : Compiled := compile p.ctx p.op (.rows [p.seed])

/-- A part that is compiled on the way, and whether a failure gives back its row. -/
structure Attempt where
  part : Seeded
  silent : Bool := false

namespace Attempt

/-- What the step shows that makes the attempt. -/
def signal (a : Attempt) : Signal :=
  match a.part.compiled.result with
  | .ok _ => .silent
  | .error .cancelled => .failed .cancelled
  | .error e => if a.silent then .silent else .failed e

/-- What the attempt adds to the count of compilations. -/
def cost (a : Attempt) : Nat := a.part.compiled.tally.compile

/-- The same attempt below a silent service. -/
def hush (a : Attempt) : Attempt := { a with silent := true }

end Attempt

/-- What is compiled to expand a row. -/
def Expansion.attempt (b : Binding) : Expansion → Option Attempt
  | graph name sub ctx =>
    match inGraphs name sub ctx b with
    | .inl _ => none
    | .inr g => some { part := { op := sub, seed := b, ctx := { ctx with graph := g } } }
  | service endpoint sub silent ctx =>
    match endpointData endpoint ctx b with
    | .error _ => none
    | .ok d => some { part := { op := sub, seed := b, ctx := ctx.remote d }, silent }
  | _ => none

namespace Stage

/-- What the next step compiles, if anything. -/
def attempt (raised : Bool) : Stage → Option Attempt
  | root | rows _ | source _ | gathered .. => none
  | each rule input =>
    match (step raised input).signal with
    | .row b => rule.attempt b
    | _ => attempt raised input
  | eachOf _ _ current => attempt raised current
  | eachHeld _ ctx _ _ held _ =>
    if ctx.stopped raised then none else (attempt raised held).map Attempt.hush
  | chain [] => none
  | chain (p :: _) => some { part := p }
  | chainOf _ current => attempt raised current
  | pair _ _ _ _ _ (_ :: _) => none
  | pair _ _ left _ _ [] => attempt raised left
  | pairLoad _ ctx _ right _ _ => if ctx.stopped raised then none else attempt raised right
  | optional part ctx left =>
    match (step raised left).signal with
    | .row b => some { part := { op := part, seed := b, ctx } }
    | _ => attempt raised left
  | optionalOf _ _ _ _ current _ => attempt raised current
  | gather _ ctx input _ => if ctx.stopped raised then none else attempt raised input
  | slice input _ limit => if limit = some 0 then none else attempt raised input
  | via _ _ input _ => attempt raised input

end Stage

namespace Attempt

theorem signal_cases (a : Attempt) : a.signal = .silent ∨ ∃ e, a.signal = .failed e := by
  unfold signal
  split
  · exact .inl rfl
  · exact .inr ⟨_, rfl⟩
  · split
    · exact .inl rfl
    · exact .inr ⟨_, rfl⟩

/-- Below a silent service an attempt goes on, unless it is cancelled. -/
theorem signal_hush (a : Attempt) :
    (a.signal = .silent ∧ a.hush.signal = .silent) ∨
      (a.signal = .failed .cancelled ∧ a.hush.signal = .failed .cancelled) ∨
      ∃ e, e ≠ .cancelled ∧ a.signal = .failed e ∧ a.hush.signal = .silent := by
  obtain ⟨p, silent⟩ := a
  cases hp : p.compiled.result with
  | ok s => exact .inl ⟨by simp only [signal, hp], by simp only [signal, hush, hp]⟩
  | error e =>
    by_cases he : e = .cancelled
    · subst he
      exact .inr (.inl ⟨by simp only [signal, hp], by simp only [signal, hush, hp]⟩)
    · have hsignal (q : Bool) : ({ part := p, silent := q } : Attempt).signal =
          if q then .silent else .failed e := by
        simp only [signal, hp]
      cases silent with
      | true => exact .inl ⟨hsignal true, hsignal true⟩
      | false => exact .inr (.inr ⟨e, he, hsignal false, hsignal true⟩)

theorem signal_of_ok {a : Attempt} {s : Stage} (h : a.part.compiled.result = .ok s) :
    a.signal = .silent := by
  unfold signal
  rw [h]

/-- What fails aloud ends the step. -/
theorem signal_of_error {a : Attempt} {e : PlanError} (h : a.part.compiled.result = .error e)
    (ha : a.silent = false) : a.signal = .failed e := by
  unfold signal
  rw [h, ha]
  cases e <;> rfl

/-- The attempt, if there is one, accounts for what is shown and for all that is compiled. -/
def Accounts (a : Option Attempt) (x : Signal) (t : Tally) : Prop :=
  (∀ y ∈ a, x = y.signal) ∧ t.compile = a.elim 0 cost

theorem accounts_none {x : Signal} {t : Tally} (h : t.compile = 0) : Accounts none x t :=
  ⟨fun y hy => absurd hy (Option.not_mem_none y), h⟩

theorem accounts_some {a : Attempt} {x : Signal} {t : Tally} (hx : x = a.signal)
    (ht : t.compile = a.cost) : Accounts (some a) x t := by
  refine ⟨fun y hy => ?_, ht⟩
  rw [hx, Option.mem_some_iff.1 hy]

end Attempt

open Attempt

/-- What is shown when a row is expanded to this. -/
def Expanded.signal : Expanded → Signal
  | flow _ => .silent
  | hold .. => .silent
  | failed e => .failed e

namespace Expansion

theorem accounts_flowing (p : Seeded) :
    Accounts (some { part := p }) (flowing p.compiled).1.signal (flowing p.compiled).2 := by
  unfold flowing
  cases hp : p.compiled.result with
  | ok s => exact accounts_some (signal_of_ok hp).symm rfl
  | error e => exact accounts_some (signal_of_error hp rfl).symm rfl

theorem accounts_holding (p : Seeded) (ctx : Context) (b : Binding) :
    Accounts (some { part := p, silent := true }) (holding ctx b p.compiled).1.signal
      (holding ctx b p.compiled).2 := by
  unfold holding
  cases hp : p.compiled.result with
  | ok s => exact accounts_some (signal_of_ok hp).symm rfl
  | error e =>
    have hsignal : ({ part := p, silent := true } : Attempt).signal =
        if e = .cancelled then .failed .cancelled else .silent := by
      unfold Attempt.signal
      rw [hp]
      cases e <;> rfl
    cases e with
    | cancelled => exact accounts_some hsignal.symm rfl
    | _ => exact accounts_some hsignal.symm rfl

/-- A row is expanded by the attempt alone. -/
theorem accounts_expand (rule : Expansion) (b : Binding) :
    Accounts (rule.attempt b) (rule.expand b).1.signal (rule.expand b).2 := by
  cases rule with
  | triple t g => exact accounts_none rfl
  | path p g => exact accounts_none rfl
  | union branches ctx => exact accounts_none rfl
  | graph name sub ctx =>
    cases hg : inGraphs name sub ctx b with
    | inl s =>
      rw [expand_graph_inl hg]
      simp only [attempt, hg]
      exact accounts_none rfl
    | inr g =>
      rw [expand_graph_inr hg]
      simp only [attempt, hg]
      exact accounts_flowing { op := sub, seed := b, ctx := { ctx with graph := g } }
  | service endpoint sub silent ctx =>
    simp only [expand, attempt, request]
    cases hd : endpointData endpoint ctx b with
    | error e =>
      cases silent with
      | false => exact accounts_none rfl
      | true => cases e <;> exact accounts_none rfl
    | ok d =>
      cases silent with
      | false => exact accounts_flowing { op := sub, seed := b, ctx := ctx.remote d }
      | true => exact accounts_holding { op := sub, seed := b, ctx := ctx.remote d } ctx b
  | procedure p earlier =>
    cases hp : p.answer earlier b with
    | ok l =>
      rw [expand_procedure_ok hp]
      exact accounts_none rfl
    | error e =>
      rw [expand_procedure_error hp]
      exact accounts_none rfl

end Expansion

namespace Move

open Stage

/-- The step makes the attempt, if there is one, and compiles nothing else. -/
def Makes (m : Move) (a : Option Attempt) : Prop := Accounts a m.signal m.tally

variable {m n : Move} {a : Option Attempt}

/-- A step that has compiled nothing goes on with an attempt. -/
theorem turn_makes {x : Signal} {s : Stage} {t : Tally} (hm : m.tally.compile = 0)
    (h : Accounts a x t) : (m.turn x s t).Makes a := by
  refine ⟨h.1, ?_⟩
  show m.tally.compile + t.compile = _
  rw [hm, Nat.zero_add, h.2]

/-- A stage around another one makes its attempts if it passes on silence and failures. -/
theorem Makes.around (h : m.Makes a) (hsilent : m.signal = .silent → n.signal = .silent)
    (hfailed : ∀ e, m.signal = .failed e → n.signal = .failed e)
    (htally : n.tally.compile = m.tally.compile) : n.Makes a := by
  refine ⟨fun x hx => ?_, htally.trans h.2⟩
  have hm := h.1 x hx
  rcases x.signal_cases with hs | ⟨e, he⟩
  · rw [hs] at hm ⊢
    exact hsilent hm
  · rw [he] at hm ⊢
    exact hfailed e hm

/-- A step with a row has compiled nothing. -/
theorem Makes.compile_of_row {b : Binding} (h : m.Makes a) (hb : m.signal = .row b) :
    m.tally.compile = 0 := by
  cases a with
  | none => exact h.2
  | some x =>
    have hx := h.1 x rfl
    rw [hb] at hx
    rcases x.signal_cases with hs | ⟨e, he⟩
    · rw [hs] at hx
      cases hx
    · rw [he] at hx
      cases hx

theorem Makes.eachOf {rule : Expansion} {input : Stage} (h : m.Makes a) :
    (m.eachOf rule input).Makes a := by
  refine h.around (fun hs => ?_) (fun e he => ?_) ?_
  · simp only [Move.eachOf, hs, within]
  · simp only [Move.eachOf, he, within]
  · unfold Move.eachOf
    split <;> rfl

theorem Makes.chainOf {pending : List Seeded} (h : m.Makes a) : (m.chainOf pending).Makes a := by
  refine h.around (fun hs => ?_) (fun e he => ?_) ?_
  · simp only [Move.chainOf, hs, within]
  · simp only [Move.chainOf, he, within]
  · unfold Move.chainOf
    split <;> rfl

theorem Makes.pair {rule : Pairing} {ctx : Context} {right : Stage}
    {loaded : Option (List Binding)} (h : m.Makes a) : (m.pair rule ctx right loaded).Makes a := by
  refine h.around (fun hs => ?_) (fun e he => ?_) ?_
  · simp only [Move.pair, hs, within]
  · simp only [Move.pair, he, within]
  · unfold Move.pair
    split <;> rfl

theorem Makes.pairLoad {rule : Pairing} {ctx : Context} {left : Stage} {b : Binding}
    {acc : List Binding} (h : m.Makes a) : (m.pairLoad rule ctx left b acc).Makes a := by
  refine h.around (fun hs => ?_) (fun e he => ?_) ?_
  · simp only [Move.pairLoad, hs, within]
  · simp only [Move.pairLoad, he, turn]
  · unfold Move.pairLoad
    cases rule <;> split <;> rfl

theorem Makes.optionalOf {part : Op} {ctx : Context} {left : Stage} {seed : Binding}
    {found : Bool} (h : m.Makes a) : (m.optionalOf part ctx left seed found).Makes a := by
  refine h.around (fun hs => ?_) (fun e he => ?_) ?_
  · simp only [Move.optionalOf, hs, within]
  · simp only [Move.optionalOf, he, within]
  · unfold Move.optionalOf
    split <;> rfl

theorem Makes.gather {rule : Gathering} {ctx : Context} {acc : List Binding} (h : m.Makes a) :
    (m.gather rule ctx acc).Makes a := by
  refine h.around (fun hs => ?_) (fun e he => ?_) ?_
  · simp only [Move.gather, hs, within]
  · simp only [Move.gather, he, turn]
  · unfold Move.gather
    cases rule <;> split <;> rfl

theorem Makes.slice {skip : Nat} {limit : Option Nat} (h : m.Makes a) :
    (m.slice skip limit).Makes a := by
  refine h.around (fun hs => ?_) (fun e he => ?_) ?_
  · simp only [Move.slice, hs, within]
  · simp only [Move.slice, he, within]
  · unfold Move.slice
    split
    · split
      · rfl
      · split <;> rfl
    · rfl

theorem Makes.via {rule : RowRule} {fs : Functions} {closed : Bool} (h : m.Makes a) :
    (m.via rule fs closed).Makes a := by
  refine h.around (fun hs => ?_) (fun e he => ?_) ?_
  · simp only [Move.via, hs, within]
  · simp only [Move.via, he, within]
  · unfold Move.via
    cases rule <;> split <;> rfl

/-- Below a silent service only a cancellation is a failure. -/
theorem Makes.eachHeld {rule : Expansion} {ctx : Context} {input : Stage} {b : Binding}
    {acc : List Binding} (h : m.Makes a) :
    (m.eachHeld rule ctx input b acc).Makes (a.map Attempt.hush) := by
  constructor
  · intro x hx
    obtain ⟨y, hy, rfl⟩ := Option.map_eq_some_iff.1 hx
    rcases y.signal_hush with ⟨hs, hh⟩ | ⟨hs, hh⟩ | ⟨e, he, hs, hh⟩
    · rw [hh]
      simp only [Move.eachHeld, (h.1 y hy).trans hs, within]
    · rw [hh]
      simp only [Move.eachHeld, (h.1 y hy).trans hs, turn]
    · rw [hh]
      unfold Move.eachHeld
      rw [(h.1 y hy).trans hs]
      cases e with
      | cancelled => exact absurd rfl he
      | _ => rfl
  · have hcost : (a.map Attempt.hush).elim 0 Attempt.cost = a.elim 0 Attempt.cost := by
      cases a <;> rfl
    rw [hcost, ← h.2]
    unfold Move.eachHeld
    split <;> rfl

theorem Makes.each {rule : Expansion} (h : m.Makes a) (hm : ∀ b, m.signal ≠ .row b) :
    (m.each rule).Makes a := by
  have heach : m.each rule = m.within (.each rule) := by
    unfold Move.each
    split
    · rename_i b hb
      exact absurd hb (hm b)
    · rfl
  rw [heach]
  exact h

theorem Makes.each_row {rule : Expansion} {b : Binding} (h : m.Makes a) (hb : m.signal = .row b) :
    (m.each rule).Makes (rule.attempt b) := by
  have hzero := h.compile_of_row hb
  have heach : ∃ t, m.each rule = m.turn (rule.expand b).1.signal t (rule.expand b).2 := by
    unfold Move.each
    rw [hb]
    dsimp only
    rcases rule.expand b with ⟨s | ⟨ctx, s⟩ | e, cost⟩
    · exact ⟨_, rfl⟩
    · exact ⟨_, rfl⟩
    · exact ⟨_, rfl⟩
  obtain ⟨t, heach⟩ := heach
  rw [heach]
  exact turn_makes hzero (rule.accounts_expand b)

theorem Makes.optional {part : Op} {ctx : Context} (h : m.Makes a)
    (hm : ∀ b, m.signal ≠ .row b) : (m.optional part ctx).Makes a := by
  have hoptional : m.optional part ctx = m.within (.optional part ctx) := by
    unfold Move.optional
    split
    · rename_i b hb
      exact absurd hb (hm b)
    · rfl
  rw [hoptional]
  exact h

theorem Makes.optional_row {part : Op} {ctx : Context} {b : Binding} (h : m.Makes a)
    (hb : m.signal = .row b) :
    (m.optional part ctx).Makes (some { part := { op := part, seed := b, ctx } }) := by
  let p : Seeded := { op := part, seed := b, ctx }
  have hzero := h.compile_of_row hb
  have hoptional : ∃ t, m.optional part ctx =
      m.turn (Expansion.flowing p.compiled).1.signal t (Expansion.flowing p.compiled).2 := by
    unfold Move.optional Expansion.flowing
    rw [hb]
    dsimp only
    rw [show compile ctx part (rows [b]) = p.compiled from rfl]
    rcases p.compiled.result with e | s
    · exact ⟨_, rfl⟩
    · exact ⟨_, rfl⟩
  obtain ⟨t, hoptional⟩ := hoptional
  rw [hoptional]
  exact turn_makes hzero (Expansion.accounts_flowing p)

end Move

namespace Stage

/-- Each step makes its attempt: it shows what the attempt comes to, and compiles nothing else. -/
theorem makes_step (raised : Bool) (s : Stage) : (step raised s).Makes (s.attempt raised) := by
  -- A stage makes the attempt of the stage that it steps. Only where a row arrives it makes its own,
  -- and then the step that gave the row has compiled nothing.
  induction s with
  | root => exact accounts_none rfl
  | rows l => cases l <;> exact accounts_none rfl
  | source items => rcases items with _ | ⟨e | b, items⟩ <;> exact accounts_none rfl
  | each rule input hi =>
    rw [step_each, attempt]
    split
    · rename_i b hb
      exact hi.each_row hb
    · rename_i hx
      exact hi.each hx
  | eachOf rule input current _ hc => exact hc.eachOf
  | eachHeld rule ctx input row held acc _ hh =>
    rw [step_eachHeld, attempt]
    split
    · exact accounts_none rfl
    · exact hh.eachHeld
  | chain pending =>
    cases pending with
    | nil => exact accounts_none rfl
    | cons p pending =>
      cases hp : p.compiled.result with
      | ok s =>
        rw [step_chain_ok raised pending hp]
        exact accounts_some (signal_of_ok hp).symm rfl
      | error e =>
        rw [step_chain_error raised pending hp]
        exact accounts_some (signal_of_error hp rfl).symm rfl
  | chainOf pending current hc => exact hc.chainOf
  | pair rule ctx left right loaded queue hl _ =>
    cases queue with
    | nil => exact hl.pair
    | cons b queue => exact accounts_none rfl
  | pairLoad rule ctx left right row acc _ hr =>
    rw [step_pairLoad, attempt]
    split
    · exact accounts_none rfl
    · exact hr.pairLoad
  | optional part ctx left hl =>
    rw [step_optional, attempt]
    split
    · rename_i b hb
      exact hl.optional_row hb
    · rename_i hx
      exact hl.optional hx
  | optionalOf part ctx left seed current found _ hc => exact hc.optionalOf
  | gather rule ctx input acc hi =>
    rw [step_gather, attempt]
    split
    · exact accounts_none rfl
    · exact hi.gather
  | gathered input rest hi => cases rest <;> exact accounts_none rfl
  | slice input skip limit hi =>
    rw [step_slice, attempt]
    split
    · exact accounts_none rfl
    · exact hi.slice
  | via rule fs input closed hi => exact hi.via

/-- A run with the token down gets from the one stage to the other. -/
inductive Reaches : Stage → Stage → Prop where
  | refl (s : Stage) : Reaches s s
  | silent {s t u : Stage} : Shows false s .silent t → Reaches t u → Reaches s u
  | row {s t u : Stage} {b : Binding} : Shows false s (.row b) t → Reaches t u → Reaches s u

theorem Reaches.emits {s t : Stage} {l : List Binding} {o : Option PlanError}
    (h : Reaches s t) (ht : Emits false t l o) : ∃ k, Emits false s (k ++ l) o := by
  induction h with
  | refl s => exact ⟨[], ht⟩
  | silent hs _ ih =>
    obtain ⟨k, hk⟩ := ih ht
    exact ⟨k, .silent hs hk⟩
  | @row s t u b hs _ ih =>
    obtain ⟨k, hk⟩ := ih ht
    exact ⟨b :: k, .row hs hk⟩

/-- A part that cannot be compiled ends the run that gets to it, unless it is below a silent
service. -/
theorem Reaches.error {s t : Stage} {a : Attempt} {e : PlanError} (h : Reaches s t)
    (ha : t.attempt false = some a) (hloud : a.silent = false)
    (he : a.part.compiled.result = .error e) : (s.run false).error = some e := by
  have hfailed : (step false t).signal = .failed e :=
    ((makes_step false t).1 a ha).trans (Attempt.signal_of_error he hloud)
  obtain ⟨k, hk⟩ := h.emits (.failed ⟨hfailed, rfl⟩)
  exact (hk.run [] {}).2

end Stage

end SparqlAlgebra
