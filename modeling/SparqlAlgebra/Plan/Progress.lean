import SparqlAlgebra.Plan.Step

/-!
Every stage comes to an end: no stage, in whatever state, can go on for ever taking steps that show
a row or nothing. Hence pulling a row ends, and so does draining a stage.
-/

namespace SparqlAlgebra

/-- Whether a step leaves more to come: it shows a row, or nothing yet. -/
def Signal.goesOn : Signal → Prop
  | .silent => True
  | .row _ => True
  | .finished => False
  | .failed _ => False

namespace Stage

/-- A stage one step further on, more to come. -/
def Progress (s' s : Stage) : Prop :=
  ∃ raised, (step raised s).stage = s' ∧ (step raised s).signal.goesOn

/-- A stage that comes to an end. -/
abbrev Ends (s : Stage) : Prop := Acc Progress s

theorem ends_of_step {s : Stage}
    (h : ∀ raised, (step raised s).signal.goesOn → Ends (step raised s).stage) : Ends s :=
  .intro s fun _ ⟨raised, e, hs⟩ => e ▸ h raised hs

theorem ends_rows (l : List Binding) : Ends (rows l) := by
  induction l with
  | nil => exact ends_of_step fun _ h => by simp [Signal.goesOn] at h
  | cons b l ih => exact ends_of_step fun _ _ => ih

theorem ends_root : Ends root := ends_of_step fun _ _ => ends_rows []

theorem ends_source (l : List (Except PlanError Binding)) : Ends (source l) := by
  induction l with
  | nil => exact ends_of_step fun _ h => by simp [Signal.goesOn] at h
  | cons x l ih =>
    cases x with
    | ok b => exact ends_of_step fun _ _ => ih
    | error e => exact ends_of_step fun _ h => by simp [Signal.goesOn] at h

theorem ends_gathered (input : Stage) (l : List Binding) : Ends (gathered input l) := by
  induction l with
  | nil => exact ends_of_step fun _ h => by simp [Signal.goesOn] at h
  | cons b l ih => exact ends_of_step fun _ _ => ih

/-- A stage comes to an end if it does after every way in which the stage below, which comes to an
end itself, can take a step. -/
@[elab_as_elim] theorem ends_of_below {s : Stage} (h : Ends s) {P : Stage → Prop}
    (hP : ∀ s, (∀ raised, (step raised s).signal.goesOn → P (step raised s).stage) → P s) : P s := by
  induction h with
  | intro s _ ih => exact hP s fun raised hs => ih _ ⟨raised, rfl, hs⟩

theorem ends_via {input : Stage} (h : Ends input) (fs : Functions) :
    ∀ rule closed, Ends (via rule fs input closed) := by
  refine ends_of_below h fun input ih rule closed => ends_of_step fun raised hs => ?_
  have ih := ih raised
  rw [step_via] at hs ⊢
  revert ih hs
  generalize step raised input = m
  unfold Move.via
  rcases m with ⟨_ | b | _ | e, s, t⟩ <;> intro hs ih
  · exact ih trivial _ _
  · exact ih trivial _ _
  · exact hs.elim
  · exact hs.elim

theorem ends_slice_zero (input : Stage) (skip : Nat) : Ends (slice input skip (some 0)) :=
  ends_of_step fun _ h => by simp [step_slice, Signal.goesOn] at h

theorem ends_slice {input : Stage} (h : Ends input) :
    ∀ skip limit, Ends (slice input skip limit) := by
  refine ends_of_below h fun input ih skip limit => ends_of_step fun raised hs => ?_
  have ih := ih raised
  rw [step_slice] at hs ⊢
  revert ih hs
  generalize step raised input = m
  split
  · intro hs _
    exact hs.elim
  unfold Move.slice
  rcases m with ⟨_ | b | _ | e, s, t⟩ <;> intro hs ih
  · exact ih trivial _ _
  · dsimp only at hs ⊢
    split
    · exact ih trivial _ _
    · split
      · exact ends_slice_zero ..
      · exact ih trivial _ _
  · exact hs.elim
  · exact hs.elim

theorem ends_gather {input : Stage} (h : Ends input) (rule : Gathering) (ctx : Context) :
    ∀ acc, Ends (gather rule ctx input acc) := by
  refine ends_of_below h fun input ih acc => ends_of_step fun raised hs => ?_
  have ih := ih raised
  rw [step_gather] at hs ⊢
  revert ih hs
  generalize step raised input = m
  split
  · intro hs _
    exact hs.elim
  unfold Move.gather
  rcases m with ⟨_ | b | _ | e, s, t⟩ <;> intro hs ih
  · exact ih trivial _
  · exact ih trivial _
  · exact ends_gathered ..
  · exact hs.elim

/-- What compiling a waiting operator gives comes to an end. -/
def Seeded.Tame (p : Seeded) : Prop :=
  ∀ s, (compile p.ctx p.op (rows [p.seed])).result = .ok s → Ends s

theorem ends_chainOf {pending : List Seeded} (hp : Ends (chain pending)) {current : Stage}
    (h : Ends current) : Ends (chainOf pending current) := by
  refine ends_of_below h fun current ih => ends_of_step fun raised hs => ?_
  have ih := ih raised
  rw [step_chainOf] at hs ⊢
  revert ih hs
  generalize step raised current = m
  unfold Move.chainOf
  rcases m with ⟨_ | b | _ | e, s, t⟩ <;> intro hs ih
  · exact ih trivial
  · exact ih trivial
  · exact hp
  · exact hs.elim

theorem ends_chain {pending : List Seeded} (h : ∀ p ∈ pending, Seeded.Tame p) :
    Ends (chain pending) := by
  induction pending with
  | nil => exact ends_of_step fun _ h => by simp [Signal.goesOn] at h
  | cons p pending ih =>
    have ih := ih fun q hq => h q (List.mem_cons_of_mem _ hq)
    refine ends_of_step fun raised hs => ?_
    cases hc : (compile p.ctx p.op (rows [p.seed])).result with
    | ok s =>
      rw [step_chain_ok raised pending hc]
      exact ends_chainOf ih (h p List.mem_cons_self s hc)
    | error e =>
      rw [step_chain_error raised pending hc] at hs
      exact hs.elim

/-- What an expansion makes of any row comes to an end. -/
def Expansion.Tame (rule : Expansion) : Prop :=
  ∀ b s, (rule.expand b).1 = .flow s ∨ (∃ ctx, (rule.expand b).1 = .hold ctx s) → Ends s

theorem tame_procedure (p : Procedure) (earlier : List Binding) :
    Expansion.Tame (.procedure p earlier) := by
  intro b s hs
  cases ha : p.answer earlier b with
  | ok l =>
    rw [Expansion.expand_procedure_ok ha] at hs
    rcases hs with hs | ⟨_, hs⟩ <;> cases hs
    exact ends_rows _
  | error e =>
    rw [Expansion.expand_procedure_error ha] at hs
    rcases hs with hs | ⟨_, hs⟩ <;> cases hs

theorem tame_after {rule : Expansion} (h : Expansion.Tame rule) (b : Binding) :
    Expansion.Tame (rule.after b) := by
  cases rule with
  | procedure p earlier => exact tame_procedure _ _
  | _ => exact h

theorem ends_eachOf {rule : Expansion} {input current : Stage} (hi : Ends (each rule input))
    (h : Ends current) : Ends (eachOf rule input current) := by
  refine ends_of_below h fun current ih => ends_of_step fun raised hs => ?_
  have ih := ih raised
  rw [step_eachOf] at hs ⊢
  revert ih hs
  generalize step raised current = m
  unfold Move.eachOf
  rcases m with ⟨_ | b | _ | e, s, t⟩ <;> intro hs ih
  · exact ih trivial
  · exact ih trivial
  · exact hi
  · exact hs.elim

theorem ends_eachHeld {rule : Expansion} {ctx : Context} {input held : Stage} {b : Binding}
    (hi : Ends (each rule input)) (h : Ends held) :
    ∀ acc, Ends (eachHeld rule ctx input b held acc) := by
  refine ends_of_below h fun held ih acc => ends_of_step fun raised hs => ?_
  have ih := ih raised
  rw [step_eachHeld] at hs ⊢
  revert ih hs
  generalize step raised held = m
  split
  · intro hs _
    exact hs.elim
  unfold Move.eachHeld
  rcases m with ⟨_ | b | _ | e, s, t⟩ <;> intro hs ih
  · exact ih trivial _
  · exact ih trivial _
  · exact ends_eachOf hi (ends_rows _)
  · cases e with
    | cancelled => exact hs.elim
    | _ => exact ends_eachOf hi (ends_rows _)

theorem ends_each {input : Stage} (h : Ends input) :
    ∀ rule, Expansion.Tame rule → Ends (each rule input) := by
  refine ends_of_below h fun input ih rule ht => ends_of_step fun raised hs => ?_
  have ih := ih raised
  rw [step_each] at hs ⊢
  revert ih hs
  generalize step raised input = m
  unfold Move.each
  rcases m with ⟨_ | b | _ | e, s, t⟩ <;> intro hs ih
  · exact ih trivial _ ht
  · have ih := ih trivial _ (tame_after ht b)
    have ht := ht b
    dsimp only at hs ⊢
    revert ht hs
    rcases rule.expand b with ⟨f | ⟨ctx, f⟩ | e, cost⟩ <;> intro hs ht
    · exact ends_eachOf ih (ht f (.inl rfl))
    · exact ends_eachHeld ih (ht f (.inr ⟨ctx, rfl⟩)) []
    · exact hs.elim
  · exact hs.elim
  · exact hs.elim

theorem ends_pair_queue {rule : Pairing} {ctx : Context} {left right : Stage}
    {loaded : Option (List Binding)} (h : Ends (pair rule ctx left right loaded []))
    (queue : List Binding) : Ends (pair rule ctx left right loaded queue) := by
  induction queue with
  | nil => exact h
  | cons b queue ih => exact ends_of_step fun _ _ => ih

theorem ends_pair_loaded {left : Stage} (h : Ends left) (rule : Pairing) (ctx : Context)
    (right : Stage) (found queue : List Binding) :
    Ends (pair rule ctx left right (some found) queue) := by
  refine ends_pair_queue ?_ queue
  refine ends_of_below h fun left ih => ends_of_step fun raised hs => ?_
  have ih := ih raised
  rw [step_pair_nil] at hs ⊢
  revert ih hs
  generalize step raised left = m
  unfold Move.pair
  rcases m with ⟨_ | b | _ | e, s, t⟩ <;> intro hs ih
  · exact ih trivial
  · exact ends_pair_queue (ih trivial) _
  · exact hs.elim
  · exact hs.elim

theorem ends_pairLoad {left right : Stage} (hl : Ends left) (h : Ends right) (rule : Pairing)
    (ctx : Context) (b : Binding) : ∀ acc, Ends (pairLoad rule ctx left right b acc) := by
  refine ends_of_below h fun right ih acc => ends_of_step fun raised hs => ?_
  have ih := ih raised
  rw [step_pairLoad] at hs ⊢
  revert ih hs
  generalize step raised right = m
  split
  · intro hs _
    exact hs.elim
  unfold Move.pairLoad
  rcases m with ⟨_ | b | _ | e, s, t⟩ <;> intro hs ih
  · exact ih trivial _
  · exact ih trivial _
  · exact ends_pair_loaded hl ..
  · exact hs.elim

theorem ends_pair {left right : Stage} (h : Ends left) (hr : Ends right) (rule : Pairing)
    (ctx : Context) (loaded : Option (List Binding)) (queue : List Binding) :
    Ends (pair rule ctx left right loaded queue) := by
  cases loaded with
  | some found => exact ends_pair_loaded h ..
  | none =>
    refine ends_pair_queue ?_ queue
    suffices hw : Ends left ∧ Ends (pair rule ctx left right none []) from hw.2
    refine ends_of_below h (P := fun left => Ends left ∧ Ends (pair rule ctx left right none []))
      fun left ih => ⟨ends_of_step fun raised hs => (ih raised hs).1, ends_of_step fun raised hs => ?_⟩
    have ih := ih raised
    rw [step_pair_nil] at hs ⊢
    revert ih hs
    generalize step raised left = m
    unfold Move.pair
    rcases m with ⟨_ | b | _ | e, s, t⟩ <;> intro hs ih
    · exact (ih trivial).2
    · exact ends_pairLoad (ih trivial).1 hr ..
    · exact hs.elim
    · exact hs.elim

theorem ends_optionalOf {part : Op} {ctx : Context} {left current : Stage} {seed : Binding}
    (hl : Ends (optional part ctx left)) (h : Ends current) :
    ∀ found, Ends (optionalOf part ctx left seed current found) := by
  refine ends_of_below h fun current ih found => ends_of_step fun raised hs => ?_
  have ih := ih raised
  rw [step_optionalOf] at hs ⊢
  revert ih hs
  generalize step raised current = m
  unfold Move.optionalOf
  rcases m with ⟨_ | b | _ | e, s, t⟩ <;> intro hs ih
  · exact ih trivial _
  · exact ih trivial _
  · exact hl
  · exact hs.elim

theorem ends_optional {part : Op} {ctx : Context} {left : Stage}
    (ht : ∀ b s, (compile ctx part (rows [b])).result = .ok s → Ends s) (h : Ends left) :
    Ends (optional part ctx left) := by
  refine ends_of_below h fun left ih => ends_of_step fun raised hs => ?_
  have ih := ih raised
  rw [step_optional] at hs ⊢
  revert ih hs
  generalize step raised left = m
  unfold Move.optional
  rcases m with ⟨_ | b | _ | e, s, t⟩ <;> intro hs ih
  · exact ih trivial
  · have ht := ht b
    dsimp only at hs ⊢
    revert ht hs
    rcases (compile ctx part (rows [b])).result with e | f <;> intro hs ht
    · exact hs.elim
    · exact ends_optionalOf (ih trivial) (ht f rfl) _
  · exact hs.elim
  · exact hs.elim

end Stage

open Stage

namespace Compiled

theorem map_eq_ok {c : Compiled} {f : Stage → Stage} {s : Stage} (h : (c.map f).result = .ok s) :
    ∃ t, c.result = .ok t ∧ f t = s := by
  unfold map at h
  cases hc : c.result with
  | ok t => exact ⟨t, rfl, by simpa [hc, Except.map] using h⟩
  | error e => simp [hc, Except.map] at h

theorem andThen_eq_ok {c : Compiled} {f : Stage → Compiled} {s : Stage}
    (h : (c.andThen f).result = .ok s) : ∃ t, c.result = .ok t ∧ (f t).result = .ok s := by
  unfold andThen at h
  cases hc : c.result with
  | ok t => exact ⟨t, rfl, by simpa [hc] using h⟩
  | error e => simp [hc] at h

theorem counted_ok_eq_ok {s t : Stage} (h : ((ok s).counted).result = .ok t) : s = t :=
  Except.ok.inj h

theorem applying_eq_ok {c : Compiled} {p : Except PlanError Procedure} {s : Stage}
    (h : (c.applying p).result = .ok s) :
    ∃ q t, p = .ok q ∧ c.result = .ok t ∧ each (.procedure q []) t = s := by
  cases p with
  | error e => simp [applying, fail] at h
  | ok q =>
    obtain ⟨t, ht, hs⟩ := map_eq_ok h
    exact ⟨q, t, rfl, ht, hs⟩

end Compiled

namespace Op

/-- Compiled over an input that comes to an end, the operator comes to an end. -/
def Tame (op : Op) : Prop :=
  ∀ ctx input s, Ends input → (compile ctx op input).result = .ok s → Ends s

theorem Tame.seeded {op : Op} (h : op.Tame) (seed : Binding) (ctx : Context) :
    Seeded.Tame { op, seed, ctx } :=
  fun s => h ctx _ s (ends_rows _)

/-- An operator that puts a stage on the stage of another one. -/
theorem tame_of_map {op sub : Op} (h : sub.Tame) {f : Context → Stage → Stage}
    (hc : ∀ ctx input, compile ctx op input = ((compile ctx sub input).map (f ctx)).counted)
    (hf : ∀ ctx s, Ends s → Ends (f ctx s)) : op.Tame := by
  intro ctx input s hi hs
  rw [hc] at hs
  obtain ⟨t, ht, rfl⟩ := Compiled.map_eq_ok hs
  exact hf ctx t (h ctx input t hi ht)

/-- An operator that puts a stage on the input. -/
theorem tame_of_ok {op : Op} {f : Context → Stage → Stage}
    (hc : ∀ ctx input, compile ctx op input = (Compiled.ok (f ctx input)).counted)
    (hf : ∀ ctx s, Ends s → Ends (f ctx s)) : op.Tame := by
  intro ctx input s hi hs
  rw [hc] at hs
  exact Compiled.counted_ok_eq_ok hs ▸ hf ctx input hi

/-- An operator that is never compiled. -/
theorem tame_of_fail {op : Op} {e : PlanError}
    (hc : ∀ ctx input, compile ctx op input = (Compiled.fail e).counted) : op.Tame := by
  intro ctx input s _ hs
  rw [hc] at hs
  cases hs

/-- An operator that is compiled as another one. -/
theorem tame_of_same {op sub : Op} (h : sub.Tame)
    (hc : ∀ ctx input, compile ctx op input = (compile ctx sub input).counted) : op.Tame := by
  intro ctx input s hi hs
  rw [hc] at hs
  exact h ctx input s hi hs

/-- An operator that answers the rows of another one with a procedure. -/
theorem tame_of_applying {op sub : Op} (h : sub.Tame) {made : Context → Except PlanError Procedure}
    (hc : ∀ ctx input,
      compile ctx op input = ((compile ctx sub input).applying (made ctx)).counted) : op.Tame := by
  intro ctx input s hi hs
  rw [hc] at hs
  obtain ⟨q, t, -, ht, rfl⟩ := Compiled.applying_eq_ok hs
  exact ends_each (h ctx input t hi ht) _ (tame_procedure _ _)

theorem ends_foldl {α : Type} {f : Stage → α → Stage} (hf : ∀ s a, Ends s → Ends (f s a))
    (l : List α) {s : Stage} (h : Ends s) : Ends (l.foldl f s) := by
  induction l generalizing s with
  | nil => exact h
  | cons a l ih => exact ih (hf s a h)

theorem tame_triple (t : TriplePattern) (g : Graph) : Expansion.Tame (.triple t g) := by
  rintro b s (h | ⟨_, h⟩) <;> cases h
  exact ends_rows _

theorem tame_path (p : PathPattern) (g : Graph) : Expansion.Tame (.path p g) := by
  rintro b s (h | ⟨_, h⟩) <;> cases h
  exact ends_rows _

theorem tame_filter (exprs : List Expr) {sub : Op} (h : sub.Tame) : (filter exprs sub).Tame :=
  tame_of_map h (fun ctx input => compile_filter ctx input exprs sub)
    fun _ _ hs => ends_foldl (fun _ _ h => ends_via h _ _ _) exprs hs

theorem ends_basic (p : BasicPattern) (g : Graph) {input : Stage} (h : Ends input) :
    Ends (p.stage g input) :=
  ends_foldl (fun _ t hs => ends_each hs _ (tame_triple t g)) p h

theorem ends_table (t : Table) (ctx : Context) {input : Stage} (h : Ends input) :
    Ends (t.stage ctx input) := by
  rcases t.stage_cases ctx input with ⟨-, ht⟩ | ⟨-, ht⟩ | ht <;> rw [ht]
  · exact h
  · exact ends_rows _
  · exact ends_pair h (ends_rows _) ..

theorem tame_flowing {c : Compiled} (h : ∀ s, c.result = .ok s → Ends s) {s : Stage}
    (hs : (Expansion.flowing c).1 = .flow s ∨ ∃ ctx, (Expansion.flowing c).1 = .hold ctx s) :
    Ends s := by
  unfold Expansion.flowing at hs
  cases hc : c.result with
  | ok t =>
    rw [hc] at hs
    rcases hs with hs | ⟨_, hs⟩ <;> cases hs
    exact h _ hc
  | error e =>
    rw [hc] at hs
    rcases hs with hs | ⟨_, hs⟩ <;> cases hs

theorem tame_holding {ctx : Context} {b : Binding} {c : Compiled}
    (h : ∀ s, c.result = .ok s → Ends s) {s : Stage}
    (hs : (Expansion.holding ctx b c).1 = .flow s ∨
      ∃ ctx', (Expansion.holding ctx b c).1 = .hold ctx' s) : Ends s := by
  unfold Expansion.holding at hs
  cases hc : c.result with
  | ok t =>
    rw [hc] at hs
    rcases hs with hs | ⟨_, hs⟩ <;> cases hs
    exact h _ hc
  | error e =>
    rw [hc] at hs
    cases e <;> rcases hs with hs | ⟨_, hs⟩ <;> cases hs <;> exact ends_rows _

theorem tame_graph {sub : Op} (h : sub.Tame) (name : Slot) (ctx : Context) :
    Expansion.Tame (.graph name sub ctx) := by
  intro b s hs
  cases hg : Expansion.inGraphs name sub ctx b with
  | inr g =>
    rw [Expansion.expand_graph_inr hg] at hs
    exact tame_flowing (fun s => h _ _ s (ends_rows _)) hs
  | inl t =>
    rw [Expansion.expand_graph_inl hg] at hs
    rcases hs with hs | ⟨_, hs⟩ <;> cases hs
    unfold Expansion.inGraphs at hg
    split at hg
    · split at hg <;> cases hg
      exact ends_rows _
    · split at hg <;> cases hg
      · exact ends_rows _
      · refine ends_chain fun p hp => ?_
        obtain ⟨e, _, rfl⟩ := List.mem_map.1 hp
        exact h.seeded _ _

theorem tame_service {sub : Op} (h : sub.Tame) (endpoint : Slot) (silent : Bool) (ctx : Context) :
    Expansion.Tame (.service endpoint sub silent ctx) := by
  intro b s hs
  have hr : ∀ s, (Expansion.request endpoint sub ctx b).result = .ok s → Ends s := by
    intro s hs
    unfold Expansion.request at hs
    split at hs
    · cases hs
    · exact h _ _ s (ends_rows _) hs
  cases silent with
  | true => exact tame_holding hr hs
  | false => exact tame_flowing hr hs

theorem tame_union {ops : List Op} (h : ∀ op ∈ ops, op.Tame) (ctx : Context) :
    Expansion.Tame (.union ops ctx) := by
  rintro b s (hs | ⟨_, hs⟩) <;> cases hs
  refine ends_chain fun p hp => ?_
  obtain ⟨op, ho, rfl⟩ := List.mem_map.1 hp
  exact (h op ho).seeded _ _

theorem Tame.filtered {op : Op} (h : op.Tame) (exprs : Option (List Expr)) :
    (op.filtered exprs).Tame := by
  unfold Op.filtered
  split
  · exact tame_filter _ h
  · exact h

theorem tame_join {l r : Op} (hl : l.Tame) (hr : r.Tame) : (join l r).Tame := by
  intro ctx input s hi hs
  rw [compile_join] at hs
  obtain ⟨t, ht, hs⟩ := Compiled.andThen_eq_ok hs
  have ht := hl ctx input t hi ht
  split at hs
  · exact hr ctx t s ht hs
  · obtain ⟨u, hu, rfl⟩ := Compiled.map_eq_ok hs
    exact ends_pair ht (hr ctx _ u ends_root hu) ..

theorem tame_leftJoin {l r : Op} (hl : l.Tame) (hr : r.Tame) (exprs : Option (List Expr)) :
    (leftJoin l r exprs).Tame := by
  intro ctx input s hi hs
  rw [compile_leftJoin] at hs
  obtain ⟨t, ht, hs⟩ := Compiled.andThen_eq_ok hs
  have ht := hl ctx input t hi ht
  split at hs
  · cases hs
    exact ends_optional (fun b s => (hr.filtered exprs) ctx _ s (ends_rows _)) ht
  · obtain ⟨u, hu, rfl⟩ := Compiled.map_eq_ok hs
    exact ends_pair ht (hr ctx _ u ends_root hu) ..

theorem tame_diff {l r : Op} (hl : l.Tame) (hr : r.Tame) : (diff l r).Tame := by
  intro ctx input s hi hs
  rw [compile_diff] at hs
  obtain ⟨t, ht, hs⟩ := Compiled.andThen_eq_ok hs
  obtain ⟨u, hu, rfl⟩ := Compiled.map_eq_ok hs
  exact ends_pair (hl ctx input t hi ht) (hr ctx _ u ends_root hu) ..

theorem tame_extension (e : Extension) : (ext e).Tame := by
  intro ctx input s hi hs
  rw [compile_ext] at hs
  change e.stage ctx input = .ok s at hs
  unfold Extension.stage at hs
  split at hs <;> cases hs
  · exact hi
  · exact ends_rows _

def TameBranches (op : Op) : Prop := op.Tame ∧ ∀ b ∈ op.branches, b.Tame

theorem Tame.alone {op : Op} (h : op.Tame) (hb : op.branches = [op] := by rfl) :
    op.TameBranches :=
  ⟨h, fun b hm => by rw [hb] at hm; exact List.mem_singleton.1 hm ▸ h⟩

theorem tame_quad (q : QuadPattern) : (quad q).Tame := by
  obtain ⟨g, p⟩ := q
  cases g with
  | none => exact tame_of_ok (fun ctx s => compile_quad_default ctx s p) fun _ _ h => ends_basic p _ h
  | some g => exact tame_of_fail fun ctx s => compile_quad_graph ctx s g p

theorem tameBranches_union {l r : Op} (hl : l.TameBranches) (hr : r.TameBranches) :
    (union l r).TameBranches := by
  have h : ∀ b ∈ l.branches ++ r.branches, b.Tame := fun b hb =>
    (List.mem_append.1 hb).elim (hl.2 b) (hr.2 b)
  exact ⟨tame_of_ok (fun ctx s => compile_union ctx s l r)
    fun ctx _ hi => ends_each hi _ (tame_union h ctx), h⟩

theorem tame_null : null.Tame := by
  intro ctx input s _ hs
  rw [compile_null] at hs
  cases hs
  exact ends_rows _

mutual

theorem tameBranches : (op : Op) → op.TameBranches
  | bgp p => (tame_of_ok (compile_bgp · · p) fun ctx _ h => ends_basic p ctx.graph h).alone
  | triple t =>
    (tame_of_ok (compile_triple · · t) fun ctx _ h => ends_each h _ (tame_triple t ctx.graph)).alone
  | quad q => (tame_quad q).alone
  | path p =>
    (tame_of_ok (compile_path · · p) fun ctx _ h => ends_each h _ (tame_path p ctx.graph)).alone
  | join l r => (tame_join (tameBranches l).1 (tameBranches r).1).alone
  | leftJoin l r exprs => (tame_leftJoin (tameBranches l).1 (tameBranches r).1 exprs).alone
  | union l r => tameBranches_union (tameBranches l) (tameBranches r)
  | diff l r => (tame_diff (tameBranches l).1 (tameBranches r).1).alone
  | conditional l r => (tame_of_fail (compile_conditional · · l r)).alone
  | filter exprs sub => (tame_filter exprs (tameBranches sub).1).alone
  | graph name sub =>
    (tame_of_ok (compile_graph · · name sub)
      fun ctx _ h => ends_each h _ (tame_graph (tameBranches sub).1 name ctx)).alone
  | service endpoint sub silent =>
    (tame_of_ok (compile_service · · endpoint sub silent)
      fun ctx _ h => ends_each h _ (tame_service (tameBranches sub).1 endpoint silent ctx)).alone
  | procedure name args sub =>
    (tame_of_applying (tameBranches sub).1 (compile_procedure · · name args sub)).alone
  | propFunc property subject object sub =>
    (tame_of_applying (tameBranches sub).1
      (compile_propFunc · · property subject object sub)).alone
  | datasetNames g => (tame_of_fail (compile_datasetNames · · g)).alone
  | table t => (tame_of_ok (compile_table · · t) fun ctx _ h => ends_table t ctx h).alone
  | sequence steps => Tame.alone fun ctx input s hi hs => by
    rw [compile_sequence] at hs
    exact tameSteps steps ctx input s hi hs
  | marker name => (tame_of_ok (compile_marker · · name) fun _ _ h => h).alone
  | label name sub => (tame_of_same (tameBranches sub).1 (compile_label · · name sub)).alone
  | list sub => (tame_of_same (tameBranches sub).1 (compile_list · · sub)).alone
  | null => tame_null.alone
  | project vars sub =>
    (tame_of_map (tameBranches sub).1 (compile_project · · vars sub)
      fun _ _ h => ends_via h _ _ _).alone
  | order keys sub =>
    (tame_of_map (tameBranches sub).1 (compile_order · · keys sub)
      fun _ _ h => ends_gather h _ _ _).alone
  | slice offset length sub =>
    (tame_of_map (tameBranches sub).1 (compile_slice · · offset length sub)
      fun _ _ h => ends_slice h _ _).alone
  | distinct sub =>
    (tame_of_map (tameBranches sub).1 (compile_distinct · · sub)
      fun _ _ h => ends_via h _ _ _).alone
  | reduced sub =>
    (tame_of_map (tameBranches sub).1 (compile_reduced · · sub)
      fun _ _ h => ends_via h _ _ _).alone
  | group vars aggs sub =>
    (tame_of_map (tameBranches sub).1 (compile_group · · vars aggs sub)
      fun _ _ h => ends_gather h _ _ _).alone
  | assign assignments sub =>
    (tame_of_map (tameBranches sub).1 (compile_assign · · assignments sub)
      fun _ _ h => ends_via h _ _ _).alone
  | ext e => (tame_extension e).alone

theorem tameSteps : (steps : List Op) → ∀ ctx input s, Ends input →
    (compileSteps ctx steps input).result = .ok s → Ends s
  | [], ctx, input, s, hi, hs => by
    rw [compileSteps_nil] at hs
    cases hs
    exact hi
  | op :: rest, ctx, input, s, hi, hs => by
    rw [compileSteps_cons] at hs
    obtain ⟨t, ht, hs⟩ := Compiled.andThen_eq_ok hs
    exact tameSteps rest ctx t s ((tameBranches op).1 ctx input t hi ht) hs

end

theorem tame (op : Op) : op.Tame := (tameBranches op).1

end Op

namespace Stage

theorem expansion_tame (rule : Expansion) : Expansion.Tame rule := by
  cases rule with
  | triple t g => exact Op.tame_triple t g
  | path p g => exact Op.tame_path p g
  | union ops ctx => exact Op.tame_union (fun op _ => op.tame) ctx
  | graph name sub ctx => exact Op.tame_graph sub.tame name ctx
  | service endpoint sub silent ctx => exact Op.tame_service sub.tame endpoint silent ctx
  | procedure p earlier => exact tame_procedure p earlier

/-- Every stage comes to an end. -/
theorem ends (s : Stage) : Ends s := by
  induction s with
  | root => exact ends_root
  | rows l => exact ends_rows l
  | source l => exact ends_source l
  | each rule input hi => exact ends_each hi rule (expansion_tame rule)
  | eachOf rule input current hi hc => exact ends_eachOf (ends_each hi rule (expansion_tame rule)) hc
  | eachHeld rule ctx input row held acc hi hh =>
    exact ends_eachHeld (ends_each hi rule (expansion_tame rule)) hh acc
  | chain pending => exact ends_chain fun p _ => p.op.tame.seeded p.seed p.ctx
  | chainOf pending current hc =>
    exact ends_chainOf (ends_chain fun p _ => p.op.tame.seeded p.seed p.ctx) hc
  | pair rule ctx left right loaded queue hl hr => exact ends_pair hl hr ..
  | pairLoad rule ctx left right row acc hl hr => exact ends_pairLoad hl hr ..
  | optional part ctx left hl =>
    exact ends_optional (fun b s => part.tame ctx _ s (ends_rows _)) hl
  | optionalOf part ctx left seed current found hl hc =>
    exact ends_optionalOf (ends_optional (fun b s => part.tame ctx _ s (ends_rows _)) hl) hc ..
  | gather rule ctx input acc hi => exact ends_gather hi ..
  | gathered input l => exact ends_gathered input l
  | slice input skip limit hi => exact ends_slice hi ..
  | via rule fs input closed hi => exact ends_via hi ..

instance : WellFoundedRelation Stage := ⟨Progress, ⟨ends⟩⟩

end Stage

end SparqlAlgebra
