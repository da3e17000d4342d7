import SparqlAlgebra.Plan.Run
import SparqlAlgebra.Proofs.Rows.Join

/-!
The rows that a stage gives from a state on, as a relation over its steps. For each kind of stage
there is one lemma that tells its rows from the rows of the stages below it. A compiled plan is then
read from the leaves up, and no later proof looks at a step.
-/

namespace SparqlAlgebra

namespace Stage

/-- The labelled transitions of stages: a step of `s` shows `x` and leaves `t`. -/
def Shows (raised : Bool) (s : Stage) (x : Signal) (t : Stage) : Prop :=
  (step raised s).signal = x ∧ (step raised s).stage = t

/-- What a stage still shows, silent steps left out: some rows, and then its end or a failure. -/
inductive Emits (raised : Bool) : Stage → List Binding → Option PlanError → Prop where
  | finished {s t : Stage} : Shows raised s .finished t → Emits raised s [] none
  | failed {s t : Stage} {e : PlanError} : Shows raised s (.failed e) t → Emits raised s [] (some e)
  | silent {s t : Stage} {l : List Binding} {o : Option PlanError} :
    Shows raised s .silent t → Emits raised t l o → Emits raised s l o
  | row {s t : Stage} {b : Binding} {l : List Binding} {o : Option PlanError} :
    Shows raised s (.row b) t → Emits raised t l o → Emits raised s (b :: l) o

variable {raised : Bool}

/-- Running a stage collects exactly what it emits. -/
theorem Emits.run {s : Stage} {l : List Binding} {o : Option PlanError} (h : Emits raised s l o)
    (acc : List Binding) (spent : Tally) :
    (s.run raised acc spent).rows = acc.reverse ++ l ∧ (s.run raised acc spent).error = o := by
  induction h generalizing acc spent with
  | finished h =>
    rw [run_of_finished h.1]
    simp
  | failed h =>
    rw [run_of_failed h.1]
    simp
  | silent h _ ih =>
    rw [run_of_silent h.1, h.2]
    exact ih acc _
  | @row s t b l o h _ ih =>
    rw [run_of_row h.1, h.2]
    obtain ⟨hl, ho⟩ := ih (b :: acc) (spent + (step raised s).tally)
    rw [hl, ho]
    simp

theorem Emits.unique {s : Stage} {k l : List Binding} {o p : Option PlanError}
    (h : Emits raised s k o) (h' : Emits raised s l p) : k = l ∧ o = p := by
  obtain ⟨hk, ho⟩ := h.run [] {}
  obtain ⟨hl, hp⟩ := h'.run [] {}
  exact ⟨hk.symm.trans hl, ho.symm.trans hp⟩

theorem Emits.result_drain {s : Stage} {l : List Binding} {ctx : Context}
    (h : Emits raised s l none) (hs : ctx.stopped raised = false) :
    (s.drain ctx raised).result = .ok l := by
  obtain ⟨hl, ho⟩ := h.run [] {}
  have hd : (s.drain ctx raised).rows = l ∧ (s.drain ctx raised).error = none := by
    simp only [drain, hs, Bool.false_eq_true, if_false]
    exact ⟨hl, ho⟩
  rw [Run.result, hd.1, hd.2]

theorem emits_rows (l : List Binding) : Emits raised (rows l) l none := by
  induction l with
  | nil => exact .finished ⟨rfl, rfl⟩
  | cons b l ih => exact .row ⟨rfl, rfl⟩ ih

theorem emits_root : Emits raised root [∅] none := .row ⟨rfl, rfl⟩ (emits_rows [])

theorem emits_gathered (input : Stage) (l : List Binding) :
    Emits raised (gathered input l) l none := by
  induction l with
  | nil => exact .finished ⟨rfl, rfl⟩
  | cons b l ih => exact .row ⟨rfl, rfl⟩ ih

section Around

variable {w : Stage → Stage} {s : Stage} {k l : List Binding} {o : Option PlanError}

/-- What stands around an input passes on all that the input shows, its rows left aside. -/
def Passes (raised : Bool) (w : Stage → Stage) : Prop :=
  ∀ {s t : Stage} {x : Signal}, (∀ b, x ≠ .row b) → Shows raised s x t → Shows raised (w s) x (w t)

/-- The rows that come out around an input, from what becomes of each row of the input. -/
theorem Emits.around (hw : Passes raised w) {f : List Binding → List Binding} (hf : f [] = [])
    {P : Binding → Prop}
    (hrow : ∀ {s t : Stage} {b : Binding} {l : List Binding} {o : Option PlanError}, P b →
      Shows raised s (.row b) t → Emits raised t l o → Emits raised (w t) (f l) o →
      Emits raised (w s) (f (b :: l)) o)
    (h : Emits raised s l o) (hP : ∀ b ∈ l, P b) : Emits raised (w s) (f l) o := by
  induction h with
  | finished h =>
    rw [hf]
    exact .finished (hw nofun h)
  | failed h =>
    rw [hf]
    exact .failed (hw nofun h)
  | silent h _ ih => exact .silent (hw nofun h) (ih hP)
  | @row s t b l o h ht ih =>
    have hrest := ih fun c hc => hP c (List.mem_cons_of_mem b hc)
    exact hrow (hP b List.mem_cons_self) h ht hrest

/-- What passes on the rows of an input, and goes on elsewhere when the input has ended. -/
theorem Emits.followed {rest : Stage}
    (hsilent : ∀ {s t : Stage}, Shows raised s .silent t → Shows raised (w s) .silent (w t))
    (hrow : ∀ {s t : Stage} {b : Binding}, Shows raised s (.row b) t →
      Shows raised (w s) (.row b) (w t))
    (hend : ∀ {s t : Stage}, Shows raised s .finished t → Shows raised (w s) .silent rest)
    (hk : Emits raised s k none) (hl : Emits raised rest l o) : Emits raised (w s) (k ++ l) o := by
  -- The induction is on the input; that it does not fail is kept as an equation.
  generalize hn : (none : Option PlanError) = n at hk
  induction hk with
  | finished h => exact .silent (hend h) hl
  | failed h => cases hn
  | silent h _ ih => exact .silent (hsilent h) (ih hn)
  | row h _ ih => exact .row (hrow h) (ih hn)

/-- What collects the rows of an input, the last one first, and goes on when the input has ended. -/
theorem Emits.collected {w : List Binding → Stage → Stage} {f : List Binding → List Binding}
    (hsilent : ∀ {acc : List Binding} {s t : Stage}, Shows raised s .silent t →
      Shows raised (w acc s) .silent (w acc t))
    (hrow : ∀ {acc : List Binding} {s t : Stage} {b : Binding}, Shows raised s (.row b) t →
      Shows raised (w acc s) .silent (w (b :: acc) t))
    (hend : ∀ {acc : List Binding} {s t : Stage}, Shows raised s .finished t →
      ∃ u, Shows raised (w acc s) .silent u ∧ Emits raised u (f acc.reverse) o)
    (hk : Emits raised s k none) (acc : List Binding) :
    Emits raised (w acc s) (f (acc.reverse ++ k)) o := by
  generalize hn : (none : Option PlanError) = n at hk
  induction hk generalizing acc with
  | finished h =>
    obtain ⟨u, hu, hl⟩ := hend h
    rw [List.append_nil]
    exact .silent hu hl
  | failed h => cases hn
  | silent h _ ih => exact .silent (hsilent h) (ih acc hn)
  | @row s t b k n h _ ih =>
    have hrest := ih (b :: acc) hn
    rw [List.reverse_cons, List.append_assoc] at hrest
    exact .silent (hrow h) hrest

end Around

section Each

variable {rule : Expansion} {input : Stage} {k l : List Binding} {o : Option PlanError}

theorem passes_each (rule : Expansion) : Passes raised (each rule) := by
  intro s t x hx h
  cases x with
  | row b => exact (hx b rfl).elim
  | _ => simp [Shows, step_each, Move.each, Move.within, h.1, h.2]

theorem emits_eachOf {current : Stage} (hc : Emits raised current k none)
    (hi : Emits raised (each rule input) l o) :
    Emits raised (eachOf rule input current) (k ++ l) o := by
  apply Emits.followed _ _ _ hc hi
  · intro s t h
    simp [Shows, step_eachOf, Move.eachOf, Move.within, h.1, h.2]
  · intro s t b h
    simp [Shows, step_eachOf, Move.eachOf, Move.within, h.1, h.2]
  · intro s t h
    simp [Shows, step_eachOf, Move.eachOf, Move.turn, h.1]

/-- A rule without memory expands each input row to a stage of its own, one after the other. -/
theorem emits_each (hr : ∀ b, rule.after b = rule) (hi : Emits raised input l o)
    {f : Binding → List Binding}
    (hf : ∀ b ∈ l, ∃ s, (rule.expand b).1 = .flow s ∧ Emits raised s (f b) none) :
    Emits raised (each rule input) (l.flatMap f) o := by
  apply Emits.around (passes_each rule) rfl _ hi hf
  rintro s t b l o ⟨u, hu, he⟩ h _ ih
  have hs : Shows raised (each rule s) .silent (eachOf rule t u) := by
    rcases hx : rule.expand b with ⟨x, cost⟩
    rw [hx] at hu
    subst hu
    simp [Shows, step_each, Move.each, Move.turn, h.1, h.2, hx, hr]
  exact .silent hs (emits_eachOf he ih)

end Each

section Chain

variable {pending : List Seeded} {k l : List Binding} {o : Option PlanError}

theorem emits_chainOf {current : Stage} (hc : Emits raised current k none)
    (hp : Emits raised (chain pending) l o) : Emits raised (chainOf pending current) (k ++ l) o := by
  apply Emits.followed _ _ _ hc hp
  · intro s t h
    simp [Shows, step_chainOf, Move.chainOf, Move.within, h.1, h.2]
  · intro s t b h
    simp [Shows, step_chainOf, Move.chainOf, Move.within, h.1, h.2]
  · intro s t h
    simp [Shows, step_chainOf, Move.chainOf, Move.turn, h.1]

/-- Waiting operators give their rows one after the other, if each of them gets built. -/
theorem emits_chain {f : Seeded → List Binding}
    (hf : ∀ p ∈ pending, ∃ s, (compile p.ctx p.op (rows [p.seed])).result = .ok s ∧
      Emits raised s (f p) none) :
    Emits raised (chain pending) (pending.flatMap f) none := by
  induction pending with
  | nil => exact .finished ⟨rfl, rfl⟩
  | cons p pending ih =>
    obtain ⟨s, hc, he⟩ := hf p List.mem_cons_self
    have hs : Shows raised (chain (p :: pending)) .silent (chainOf pending s) := by
      simp [Shows, step_chain_ok raised pending hc]
    exact .silent hs (emits_chainOf he (ih fun q hq => hf q (List.mem_cons_of_mem p hq)))

end Chain

section Pair

variable {rule : Pairing} {ctx : Context} {left right : Stage} {l r : List Binding}
  {o : Option PlanError}

theorem passes_pair (right : Stage) (loaded : Option (List Binding)) :
    Passes raised fun s => pair rule ctx s right loaded [] := by
  intro s t x hx h
  cases x with
  | row b => exact (hx b rfl).elim
  | _ => simp [Shows, step_pair_nil, Move.pair, Move.within, h.1, h.2]

theorem emits_pair_queue {loaded : Option (List Binding)}
    (h : Emits raised (pair rule ctx left right loaded []) l o) (queue : List Binding) :
    Emits raised (pair rule ctx left right loaded queue) (queue ++ l) o := by
  induction queue with
  | nil => exact h
  | cons b queue ih => exact .row ⟨rfl, rfl⟩ ih

theorem emits_pair_loaded (right : Stage) (r : List Binding) (hl : Emits raised left l o) :
    Emits raised (pair rule ctx left right (some r) [])
      (l.flatMap fun b => rule.combine ctx.functions b r) o := by
  apply Emits.around (passes_pair right (some r)) rfl _ hl fun _ _ => trivial
  intro s t b l o _ h _ ih
  have hs : Shows raised (pair rule ctx s right (some r) []) .silent
      (pair rule ctx t right (some r) (rule.combine ctx.functions b r)) := by
    simp [Shows, step_pair_nil, Move.pair, Move.turn, h.1, h.2]
  exact .silent hs (emits_pair_queue ih _)

/-- While a left row waits, the rows on the right are collected behind those that are there. -/
theorem emits_pairLoad (hw : ctx.stopped raised = false) {b : Binding} {acc : List Binding}
    (hl : Emits raised left l o) (hr : Emits raised right r none) :
    Emits raised (pairLoad rule ctx left right b acc)
      ((b :: l).flatMap fun b => rule.combine ctx.functions b (acc.reverse ++ r)) o := by
  apply Emits.collected (w := fun acc s => pairLoad rule ctx left s b acc)
    (f := fun r => (b :: l).flatMap fun b => rule.combine ctx.functions b r) _ _ _ hr acc
  · intro acc s t h
    simp [Shows, step_pairLoad, hw, Move.pairLoad, Move.within, h.1, h.2]
  · intro acc s t c h
    simp [Shows, step_pairLoad, hw, Move.pairLoad, Move.turn, h.1, h.2]
  · intro acc s t h
    have hs : Shows raised (pairLoad rule ctx left s b acc) .silent
        (pair rule ctx left t.close (some acc.reverse)
          (rule.combine ctx.functions b acc.reverse)) := by
      simp [Shows, step_pairLoad, hw, Move.pairLoad, Move.turn, h.1, h.2]
    exact ⟨_, hs, emits_pair_queue (emits_pair_loaded _ _ hl) _⟩

/-- Every left row is paired with all right rows, though these are only read when the first left
row has come. -/
theorem emits_pair (hw : ctx.stopped raised = false) (hl : Emits raised left l o)
    (hr : Emits raised right r none) :
    Emits raised (pair rule ctx left right none [])
      (l.flatMap fun b => rule.combine ctx.functions b r) o := by
  apply Emits.around (passes_pair right none) rfl _ hl fun _ _ => trivial
  intro s t b l o _ h ht _
  have hs : Shows raised (pair rule ctx s right none []) .silent
      (pairLoad rule ctx t right b []) := by
    simp [Shows, step_pair_nil, Move.pair, Move.turn, h.1, h.2]
  exact .silent hs (emits_pairLoad hw ht hr)

end Pair

section Optional

variable {part : Op} {ctx : Context} {left : Stage} {k l : List Binding} {o : Option PlanError}

theorem passes_optional (part : Op) (ctx : Context) : Passes raised (optional part ctx) := by
  intro s t x hx h
  cases x with
  | row b => exact (hx b rfl).elim
  | _ => simp [Shows, step_optional, Move.optional, Move.within, h.1, h.2]

/-- Once a row of the optional part has been passed on, the seed no longer follows. -/
theorem emits_optionalOf_found {current : Stage} {seed : Binding}
    (hc : Emits raised current k none) (hl : Emits raised (optional part ctx left) l o) :
    Emits raised (optionalOf part ctx left seed current true) (k ++ l) o := by
  apply Emits.followed (w := fun s => optionalOf part ctx left seed s true) _ _ _ hc hl
  · intro s t h
    simp [Shows, step_optionalOf, Move.optionalOf, Move.within, h.1, h.2]
  · intro s t b h
    simp [Shows, step_optionalOf, Move.optionalOf, Move.within, h.1, h.2]
  · intro s t h
    simp [Shows, step_optionalOf, Move.optionalOf, Move.turn, h.1]

/-- The rows of the optional part are passed on; the seed comes instead if there are none. -/
theorem emits_optionalOf {current : Stage} {seed : Binding} (hc : Emits raised current k none)
    (hl : Emits raised (optional part ctx left) l o) :
    Emits raised (optionalOf part ctx left seed current false)
      ((if k = [] then [seed] else k) ++ l) o := by
  generalize hn : (none : Option PlanError) = n at hc
  induction hc with
  | @finished s t h =>
    have hs : Shows raised (optionalOf part ctx left seed s false) (.row seed)
        (optional part ctx left) := by
      simp [Shows, step_optionalOf, Move.optionalOf, Move.turn, h.1]
    exact .row hs hl
  | failed h => cases hn
  | @silent s t k n h _ ih =>
    have hs : Shows raised (optionalOf part ctx left seed s false) .silent
        (optionalOf part ctx left seed t false) := by
      simp [Shows, step_optionalOf, Move.optionalOf, Move.within, h.1, h.2]
    exact .silent hs (ih hn)
  | @row s t b k n h ht _ =>
    have hs : Shows raised (optionalOf part ctx left seed s false) (.row b)
        (optionalOf part ctx left seed t true) := by
      simp [Shows, step_optionalOf, Move.optionalOf, Move.within, h.1, h.2]
    -- From here on the seed is no longer owed.
    rw [if_neg (List.cons_ne_nil b k)]
    exact .row hs (emits_optionalOf_found (hn ▸ ht) hl)

theorem emits_optional (hl : Emits raised left l o) {f : Binding → List Binding}
    (hf : ∀ b ∈ l, ∃ s, (compile ctx part (rows [b])).result = .ok s ∧ Emits raised s (f b) none) :
    Emits raised (optional part ctx left) (l.flatMap fun b => if f b = [] then [b] else f b) o := by
  apply Emits.around (passes_optional part ctx) rfl _ hl hf
  rintro s t b l o ⟨u, hu, he⟩ h _ ih
  have hs : Shows raised (optional part ctx s) .silent (optionalOf part ctx t b u false) := by
    simp [Shows, step_optional, Move.optional, Move.turn, h.1, h.2, hu]
  exact .silent hs (emits_optionalOf he ih)

end Optional

section Gather

variable {rule : Gathering} {ctx : Context}

theorem emits_gather (hw : ctx.stopped raised = false) {input : Stage} {acc l : List Binding}
    (hi : Emits raised input l none) :
    Emits raised (gather rule ctx input acc) (rule.arrange ctx.functions (acc.reverse ++ l))
      none := by
  apply Emits.collected (w := fun acc s => gather rule ctx s acc)
    (f := fun l => rule.arrange ctx.functions l) _ _ _ hi acc
  · intro acc s t h
    simp [Shows, step_gather, hw, Move.gather, Move.within, h.1, h.2]
  · intro acc s t b h
    simp [Shows, step_gather, hw, Move.gather, Move.turn, h.1, h.2]
  · intro acc s t h
    have hs : Shows raised (gather rule ctx s acc) .silent
        (gathered t.close (rule.arrange ctx.functions acc.reverse)) := by
      simp [Shows, step_gather, hw, Move.gather, Move.turn, h.1, h.2]
    exact ⟨_, hs, emits_gathered _ _⟩

end Gather

section Slice

theorem emits_slice_zero (input : Stage) (skip : Nat) :
    Emits raised (slice input skip (some 0)) [] none :=
  .finished (t := rows []) ⟨by simp [step_slice], by simp [step_slice]⟩

/-- A slice stops as soon as it has its rows. -/
theorem emits_slice {input : Stage} {l : List Binding} (hi : Emits raised input l none)
    (skip : Nat) (limit : Option Nat) :
    Emits raised (slice input skip limit) (Rows.slice skip limit l) none := by
  -- A slice of no rows ends without a look at its input.
  by_cases hz : limit = some 0
  · subst hz
    simpa [Rows.slice] using emits_slice_zero input skip
  generalize hn : (none : Option PlanError) = n at hi ⊢
  induction hi generalizing skip limit with
  | @finished s t h =>
    have hs : Shows raised (slice s skip limit) .finished (slice t skip limit) := by
      simp [Shows, step_slice, hz, Move.slice, Move.within, h.1, h.2]
    have hl : Rows.slice skip limit [] = [] := by
      cases limit <;> simp [Rows.slice]
    rw [hl]
    exact .finished hs
  | failed h => cases hn
  | @silent s t l n h _ ih =>
    have hs : Shows raised (slice s skip limit) .silent (slice t skip limit) := by
      simp [Shows, step_slice, hz, Move.slice, Move.within, h.1, h.2]
    exact .silent hs (ih skip limit hz hn)
  | @row s t b l n h _ ih =>
    cases skip with
    | succ skip =>
      -- The row is dropped.
      have hs : Shows raised (slice s (skip + 1) limit) .silent (slice t skip limit) := by
        simp [Shows, step_slice, hz, Move.slice, Move.turn, h.1, h.2]
      have hl : Rows.slice (skip + 1) limit (b :: l) = Rows.slice skip limit l := by
        cases limit <;> simp [Rows.slice]
      rw [hl]
      exact .silent hs (ih skip limit hz hn)
    | zero =>
      rcases limit with _ | _ | _ | limit
      · have hs : Shows raised (slice s 0 none) (.row b) (slice t 0 none) := by
          simp [Shows, step_slice, Move.slice, Move.turn, h.1, h.2]
        exact .row hs (ih 0 none hz hn)
      · exact (hz rfl).elim
      · -- The last row closes the input.
        have hs : Shows raised (slice s 0 (some 1)) (.row b) (slice t.close 0 (some 0)) := by
          simp [Shows, step_slice, Move.slice, Move.turn, h.1, h.2]
        exact .row hs (hn ▸ emits_slice_zero _ _)
      · have hs : Shows raised (slice s 0 (some (limit + 2))) (.row b)
            (slice t 0 (some (limit + 1))) := by
          simp [Shows, step_slice, Move.slice, Move.turn, h.1, h.2]
        exact .row hs (ih 0 (some (limit + 1)) (by simp) hn)

end Slice

end Stage

end SparqlAlgebra
