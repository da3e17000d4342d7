import SparqlAlgebra.Proofs.Op.Builds
import SparqlAlgebra.Proofs.Stage.Yields

/-!
Properties of all rows of a stage, told from the properties of the rows below it. Each kind of stage
has its own invariant, so that the rows of an input, of a part and of the result may be known by
different properties. The rows of the first steps are told from those of the first steps below,
since no step takes more than one step of another stage.
-/

namespace SparqlAlgebra

namespace Stage

/-- All rows that the stage may show in its next `n` steps have the property. -/
def WithinFirst (n : Nat) (P : Binding → Prop) (s : Stage) : Prop := ∀ b, s.YieldsIn n b → P b

/-- All rows that the stage may ever show have the property. -/
def Within (P : Binding → Prop) (s : Stage) : Prop := ∀ b, s.Yields b → P b

variable {P R : Binding → Prop} {s t u : Stage} {m n : Nat}

theorem Within.mono (h : s.Within P) (hPR : ∀ b, P b → R b) : s.Within R :=
  fun b hb => hPR b (h b hb)

theorem Within.first (h : s.Within P) (n : Nat) : s.WithinFirst n P := fun b hb => h b hb.yields

theorem within_of_first (h : ∀ n, s.WithinFirst n P) : s.Within P := by
  intro b hb
  obtain ⟨n, hn⟩ := hb.exists_in
  exact h n b hn

theorem withinFirst_zero (P : Binding → Prop) (s : Stage) : s.WithinFirst 0 P := by
  intro b hb
  generalize hn : 0 = n at hb
  induction hb with
  | here => cases hn
  | later => cases hn
  | released _ ih => exact ih hn

theorem WithinFirst.mono (h : s.WithinFirst n P) (hPR : ∀ b, P b → R b) : s.WithinFirst n R :=
  fun b hb => hPR b (h b hb)

theorem WithinFirst.le (h : s.WithinFirst n P) (hmn : m ≤ n) : s.WithinFirst m P :=
  fun b hb => h b (hb.le hmn)

theorem WithinFirst.pred (h : s.WithinFirst (n + 1) P) : s.WithinFirst n P := h.le n.le_succ

theorem WithinFirst.close (h : s.WithinFirst n P) : s.close.WithinFirst n P :=
  fun b hb => h b (.released hb)

/-- The row that a step shows has the property, and so have the rows of one step less after it. -/
theorem WithinFirst.step (h : s.WithinFirst (n + 1) P) (raised : Bool) :
    (∀ b ∈ (step raised s).signal.rows, P b) ∧ (step raised s).stage.WithinFirst n P := by
  refine ⟨fun b hb => ?_, fun b hb => h b (.later raised ⟨rfl, rfl⟩ hb)⟩
  cases hx : (Stage.step raised s).signal with
  | row c =>
    rw [hx] at hb
    rw [List.mem_singleton.1 hb]
    exact h c (.here raised ⟨hx, rfl⟩)
  | _ =>
    rw [hx] at hb
    cases hb

theorem within_rows {l : List Binding} (h : ∀ b ∈ l, P b) : (rows l).Within P :=
  fun b hb => h b (yields_rows_iff.1 hb)

theorem within_nil (P : Binding → Prop) : (rows []).Within P := within_rows (List.forall_mem_nil _)

theorem within_single {b : Binding} (h : P b) : (rows [b]).Within P :=
  within_rows (List.forall_mem_singleton.2 h)

/-- What every step keeps, with one step less to go, and every release keeps is true of all that
the stage shows in its first steps. -/
theorem withinFirst_of_invariant {Q : Nat → Stage → Prop}
    (hstep : ∀ {m s} raised, m < n → Q (m + 1) s →
      (∀ b ∈ (step raised s).signal.rows, R b) ∧ Q m (step raised s).stage)
    (hclose : ∀ {m s}, Q m s → Q m s.close) (hs : Q n s) : s.WithinFirst n R := by
  suffices ∀ {m s b}, m ≤ n → Q m s → s.YieldsIn m b → R b from
    fun b hb => this (Nat.le_refl n) hs hb
  intro m s b hm hs hb
  induction hb with
  | here raised h =>
    obtain ⟨hx, rfl⟩ := h
    refine (hstep raised hm hs).1 _ ?_
    rw [hx]
    exact List.mem_singleton.2 rfl
  | later raised h _ ih =>
    obtain ⟨-, rfl⟩ := h
    exact ih (Nat.le_of_lt hm) (hstep raised hm hs).2
  | released _ ih => exact ih hm (hclose hs)

section Each

/-- The states of a stage that expands rows with the property `P` to rows with the property `R`,
with `n` steps to go. -/
inductive Expanding (rule : Expansion) (P R : Binding → Prop) (n : Nat) : Stage → Prop where
  | idle {t : Stage} : t.WithinFirst n P → Expanding rule P R n (each rule t)
  | busy {t u : Stage} : t.WithinFirst n P → u.WithinFirst n R →
    Expanding rule P R n (eachOf rule t u)
  | held {ctx : Context} {t u : Stage} {b : Binding} {acc : List Binding} :
    t.WithinFirst n P → R b → u.WithinFirst n R → (∀ c ∈ acc, R c) →
      Expanding rule P R n (eachHeld rule ctx t b u acc)
  | spent : Expanding rule P R n (rows [])

variable {rule : Expansion}

theorem expanding_step (hr : ∀ b, rule.after b = rule)
    (hx : ∀ b u, P b → Expansion.Reaches (rule.expand b).1 u → u.WithinFirst n R)
    (hh : ∀ b ctx u, P b → (rule.expand b).1 = .hold ctx u → R b) (raised : Bool) (hm : m < n)
    (h : Expanding rule P R (m + 1) s) :
    (∀ b ∈ (step raised s).signal.rows, R b) ∧ Expanding rule P R m (step raised s).stage := by
  cases h with
  | @idle t ht =>
    obtain ⟨hb, ht⟩ := ht.step raised
    rw [step_each, Move.each]
    rcases hmove : Stage.step raised t with ⟨_ | b | _ | e, t', cost⟩ <;> rw [hmove] at hb ht
    · exact ⟨List.forall_mem_nil _, .idle ht⟩
    · have hrow : P b := hb b (List.mem_singleton.2 rfl)
      dsimp only
      rcases he : rule.expand b with ⟨u | ⟨ctx, u⟩ | e, extra⟩
      · have hu : u.WithinFirst n R := hx b u hrow (.inl (congrArg Prod.fst he))
        exact ⟨List.forall_mem_nil _, (hr b).symm ▸ .busy ht (hu.le (Nat.le_of_lt hm))⟩
      · have hu : u.WithinFirst n R := hx b u hrow (.inr ⟨ctx, congrArg Prod.fst he⟩)
        have hrow : R b := hh b ctx u hrow (congrArg Prod.fst he)
        exact ⟨List.forall_mem_nil _,
          (hr b).symm ▸ .held ht hrow (hu.le (Nat.le_of_lt hm)) (List.forall_mem_nil _)⟩
      · exact ⟨List.forall_mem_nil _, (hr b).symm ▸ .idle ht⟩
    · exact ⟨List.forall_mem_nil _, .idle ht⟩
    · exact ⟨List.forall_mem_nil _, .idle ht⟩
  | @busy t u ht hu =>
    obtain ⟨hb, hu⟩ := hu.step raised
    rw [step_eachOf, Move.eachOf]
    rcases hmove : Stage.step raised u with ⟨_ | b | _ | e, u', cost⟩ <;> rw [hmove] at hb hu
    · exact ⟨hb, .busy ht.pred hu⟩
    · exact ⟨hb, .busy ht.pred hu⟩
    · exact ⟨List.forall_mem_nil _, .idle ht.pred⟩
    · exact ⟨hb, .busy ht.pred hu⟩
  | @held ctx t u b acc ht hrow hu hacc =>
    obtain ⟨hb, hu⟩ := hu.step raised
    rw [step_eachHeld]
    split
    · exact ⟨List.forall_mem_nil _, .idle ht.pred⟩
    rw [Move.eachHeld]
    rcases hmove : Stage.step raised u with ⟨_ | c | _ | e, u', cost⟩ <;> rw [hmove] at hb hu
    · exact ⟨List.forall_mem_nil _, .held ht.pred hrow hu hacc⟩
    · have hc : R c := hb c (List.mem_singleton.2 rfl)
      exact ⟨List.forall_mem_nil _, .held ht.pred hrow hu (List.forall_mem_cons.2 ⟨hc, hacc⟩)⟩
    · have hrev : ∀ c ∈ acc.reverse, R c := fun c hc => hacc c (List.mem_reverse.1 hc)
      exact ⟨List.forall_mem_nil _, .busy ht.pred ((within_rows hrev).first m)⟩
    · cases e with
      | cancelled => exact ⟨List.forall_mem_nil _, .idle ht.pred⟩
      | _ => exact ⟨List.forall_mem_nil _, .busy ht.pred ((within_single hrow).first m)⟩
  | spent => exact ⟨List.forall_mem_nil _, .spent⟩

/-- A rule without memory, from what it makes of each row. A row itself may follow where what it was
expanded to is held back. -/
theorem withinFirst_each (hr : ∀ b, rule.after b = rule) (hi : s.WithinFirst n P)
    (hx : ∀ b u, P b → Expansion.Reaches (rule.expand b).1 u → u.WithinFirst n R)
    (hh : ∀ b ctx u, P b → (rule.expand b).1 = .hold ctx u → R b) :
    (each rule s).WithinFirst n R := by
  refine withinFirst_of_invariant (expanding_step hr hx hh) (fun h => ?_) (.idle hi)
  cases h <;> exact .spent

theorem within_each (hr : ∀ b, rule.after b = rule) (hi : s.Within P)
    (hx : ∀ b u, P b → Expansion.Reaches (rule.expand b).1 u → u.Within R)
    (hh : ∀ b ctx u, P b → (rule.expand b).1 = .hold ctx u → R b) : (each rule s).Within R :=
  within_of_first fun n =>
    withinFirst_each hr (hi.first n) (fun b u hb hu => (hx b u hb hu).first n) hh

end Each

section Chain

/-- The states of a chain of operators that show rows with the property only, with `n` steps to
go. -/
inductive Chaining (R : Binding → Prop) (n : Nat) : Stage → Prop where
  | idle {pending : List Seeded} :
    (∀ p ∈ pending, ∀ u, (compile p.ctx p.op (rows [p.seed])).result = .ok u →
      u.WithinFirst n R) → Chaining R n (chain pending)
  | busy {pending : List Seeded} {u : Stage} :
    (∀ p ∈ pending, ∀ u, (compile p.ctx p.op (rows [p.seed])).result = .ok u →
      u.WithinFirst n R) → u.WithinFirst n R → Chaining R n (chainOf pending u)
  | spent : Chaining R n (rows [])

theorem chaining_step (raised : Bool) (h : Chaining R (m + 1) s) :
    (∀ b ∈ (step raised s).signal.rows, R b) ∧ Chaining R m (step raised s).stage := by
  cases h with
  | @idle pending hp =>
    cases pending with
    | nil => exact ⟨List.forall_mem_nil _, .idle nofun⟩
    | cons p pending =>
      obtain ⟨hfirst, hrest⟩ := List.forall_mem_cons.1 hp
      cases hc : (compile p.ctx p.op (rows [p.seed])).result with
      | ok u =>
        rw [step_chain_ok raised pending hc]
        exact ⟨List.forall_mem_nil _,
          .busy (fun q hq u hu => (hrest q hq u hu).pred) (hfirst u hc).pred⟩
      | error e =>
        rw [step_chain_error raised pending hc]
        exact ⟨List.forall_mem_nil _, .idle fun q hq u hu => (hrest q hq u hu).pred⟩
  | @busy pending u hp hu =>
    obtain ⟨hb, hu⟩ := hu.step raised
    have hp : ∀ p ∈ pending, ∀ u, (compile p.ctx p.op (rows [p.seed])).result = .ok u →
        u.WithinFirst m R := fun p hm u hu => (hp p hm u hu).pred
    rw [step_chainOf, Move.chainOf]
    rcases hm : Stage.step raised u with ⟨_ | b | _ | e, u', cost⟩ <;> rw [hm] at hb hu
    · exact ⟨hb, .busy hp hu⟩
    · exact ⟨hb, .busy hp hu⟩
    · exact ⟨List.forall_mem_nil _, .idle hp⟩
    · exact ⟨hb, .busy hp hu⟩
  | spent => exact ⟨List.forall_mem_nil _, .spent⟩

theorem withinFirst_chain {pending : List Seeded}
    (hp : ∀ p ∈ pending, ∀ u, (compile p.ctx p.op (rows [p.seed])).result = .ok u →
      u.WithinFirst n R) : (chain pending).WithinFirst n R := by
  refine withinFirst_of_invariant (fun raised _ => chaining_step raised) (fun h => ?_) (.idle hp)
  cases h <;> exact .spent

theorem within_chain {pending : List Seeded}
    (hp : ∀ p ∈ pending, ∀ u, (compile p.ctx p.op (rows [p.seed])).result = .ok u → u.Within R) :
    (chain pending).Within R :=
  within_of_first fun n => withinFirst_chain fun p hm u hu => (hp p hm u hu).first n

end Chain

section Pair

/-- The states of a stage that pairs left rows with the property `P` and right rows with the
property `Q`, with `n` steps to go. -/
inductive Matching (rule : Pairing) (P Q R : Binding → Prop) (n : Nat) : Stage → Prop where
  | idle {ctx : Context} {t right : Stage} {loaded : Option (List Binding)} {queue : List Binding} :
    (∀ b r, P b → (∀ d ∈ r, Q d) → ∀ c ∈ rule.combine ctx.functions b r, R c) →
    t.WithinFirst n P → right.WithinFirst n Q → (∀ r ∈ loaded, ∀ d ∈ r, Q d) →
    (∀ c ∈ queue, R c) → Matching rule P Q R n (pair rule ctx t right loaded queue)
  | loading {ctx : Context} {t right : Stage} {b : Binding} {acc : List Binding} :
    (∀ b r, P b → (∀ d ∈ r, Q d) → ∀ c ∈ rule.combine ctx.functions b r, R c) →
    t.WithinFirst n P → right.WithinFirst n Q → P b → (∀ d ∈ acc, Q d) →
    Matching rule P Q R n (pairLoad rule ctx t right b acc)
  | spent : Matching rule P Q R n (rows [])

variable {rule : Pairing} {Q : Binding → Prop}

theorem matching_step (raised : Bool) (h : Matching rule P Q R (m + 1) s) :
    (∀ b ∈ (step raised s).signal.rows, R b) ∧ Matching rule P Q R m (step raised s).stage := by
  cases h with
  | @idle ctx t right loaded queue hc ht hright hl hq =>
    cases queue with
    | cons b queue =>
      obtain ⟨hb, hq⟩ := List.forall_mem_cons.1 hq
      exact ⟨List.forall_mem_singleton.2 hb, .idle hc ht.pred hright.pred hl hq⟩
    | nil =>
      obtain ⟨hb, ht⟩ := ht.step raised
      have hright := hright.pred
      rw [step_pair_nil]
      rcases hm : Stage.step raised t with ⟨_ | b | _ | e, t', cost⟩ <;> rw [hm] at hb ht
      · exact ⟨List.forall_mem_nil _, .idle hc ht hright hl hq⟩
      · have hrow : P b := hb b (List.mem_singleton.2 rfl)
        cases loaded with
        | some found =>
          exact ⟨List.forall_mem_nil _, .idle hc ht hright hl (hc b found hrow (hl found rfl))⟩
        | none =>
          exact ⟨List.forall_mem_nil _, .loading hc ht hright hrow (List.forall_mem_nil _)⟩
      · exact ⟨List.forall_mem_nil _, .idle hc ht hright hl hq⟩
      · exact ⟨List.forall_mem_nil _, .idle hc ht hright hl hq⟩
  | @loading ctx t right b acc hc ht hright hrow hacc =>
    have ht := ht.pred
    rw [step_pairLoad]
    split
    · exact ⟨List.forall_mem_nil _,
        .idle hc ht hright.pred.close nofun (List.forall_mem_nil _)⟩
    obtain ⟨hd, hright⟩ := hright.step raised
    rw [Move.pairLoad]
    rcases hm : Stage.step raised right with ⟨_ | d | _ | e, right', cost⟩ <;> rw [hm] at hd hright
    · exact ⟨List.forall_mem_nil _, .loading hc ht hright hrow hacc⟩
    · have hd : Q d := hd d (List.mem_singleton.2 rfl)
      exact ⟨List.forall_mem_nil _,
        .loading hc ht hright hrow (List.forall_mem_cons.2 ⟨hd, hacc⟩)⟩
    · have hrev : ∀ d ∈ acc.reverse, Q d := fun d hd => hacc d (List.mem_reverse.1 hd)
      have hloaded : ∀ r ∈ some acc.reverse, ∀ d ∈ r, Q d := by
        rintro r ⟨⟩
        exact hrev
      exact ⟨List.forall_mem_nil _, .idle hc ht hright.close hloaded (hc b _ hrow hrev)⟩
    · exact ⟨List.forall_mem_nil _, .idle hc ht hright.close nofun (List.forall_mem_nil _)⟩
  | spent => exact ⟨List.forall_mem_nil _, .spent⟩

/-- Pairings, from what they make of each left row and any right rows. -/
theorem withinFirst_pair {ctx : Context} {right : Stage} (hi : s.WithinFirst n P)
    (hright : right.WithinFirst n Q)
    (hc : ∀ b r, P b → (∀ d ∈ r, Q d) → ∀ c ∈ rule.combine ctx.functions b r, R c) :
    (pair rule ctx s right none []).WithinFirst n R := by
  refine withinFirst_of_invariant (fun raised _ => matching_step raised) (fun h => ?_)
    (.idle hc hi hright nofun (List.forall_mem_nil _))
  cases h <;> exact .spent

theorem within_pair {ctx : Context} {right : Stage} (hi : s.Within P) (hright : right.Within Q)
    (hc : ∀ b r, P b → (∀ d ∈ r, Q d) → ∀ c ∈ rule.combine ctx.functions b r, R c) :
    (pair rule ctx s right none []).Within R :=
  within_of_first fun n => withinFirst_pair (hi.first n) (hright.first n) hc

end Pair

section Optional

/-- The states of a stage with an optional part, for left rows with the property `P`, with `n`
steps to go. -/
inductive Trying (part : Op) (ctx : Context) (P R : Binding → Prop) (n : Nat) : Stage → Prop where
  | idle {t : Stage} : t.WithinFirst n P → Trying part ctx P R n (optional part ctx t)
  | busy {t u : Stage} {b : Binding} {found : Bool} : t.WithinFirst n P → R b →
    u.WithinFirst n R → Trying part ctx P R n (optionalOf part ctx t b u found)
  | spent : Trying part ctx P R n (rows [])

variable {part : Op} {ctx : Context}

theorem trying_step (hb : ∀ b, P b → R b)
    (hx : ∀ b u, P b → (compile ctx part (rows [b])).result = .ok u → u.WithinFirst n R)
    (raised : Bool) (hm : m < n) (h : Trying part ctx P R (m + 1) s) :
    (∀ b ∈ (step raised s).signal.rows, R b) ∧ Trying part ctx P R m (step raised s).stage := by
  cases h with
  | @idle t ht =>
    obtain ⟨hrow, ht⟩ := ht.step raised
    rw [step_optional, Move.optional]
    rcases hmove : Stage.step raised t with ⟨_ | b | _ | e, t', cost⟩ <;> rw [hmove] at hrow ht
    · exact ⟨List.forall_mem_nil _, .idle ht⟩
    · have hrow : P b := hrow b (List.mem_singleton.2 rfl)
      dsimp only
      cases hc : (compile ctx part (rows [b])).result with
      | ok u =>
        have hu : u.WithinFirst m R := (hx b u hrow hc).le (Nat.le_of_lt hm)
        exact ⟨List.forall_mem_nil _, .busy ht (hb b hrow) hu⟩
      | error e => exact ⟨List.forall_mem_nil _, .idle ht⟩
    · exact ⟨List.forall_mem_nil _, .idle ht⟩
    · exact ⟨List.forall_mem_nil _, .idle ht⟩
  | @busy t u b found ht hseed hu =>
    obtain ⟨hrow, hu⟩ := hu.step raised
    have ht := ht.pred
    rw [step_optionalOf, Move.optionalOf]
    rcases hmove : Stage.step raised u with ⟨_ | c | _ | e, u', cost⟩ <;> rw [hmove] at hrow hu
    · exact ⟨hrow, .busy ht hseed hu⟩
    · exact ⟨hrow, .busy ht hseed hu⟩
    · cases found with
      | true => exact ⟨List.forall_mem_nil _, .idle ht⟩
      | false => exact ⟨List.forall_mem_singleton.2 hseed, .idle ht⟩
    · exact ⟨hrow, .busy ht hseed hu⟩
  | spent => exact ⟨List.forall_mem_nil _, .spent⟩

/-- An optional part, from what it makes of each row; the row itself follows where that is
nothing. -/
theorem withinFirst_optional (hi : s.WithinFirst n P) (hb : ∀ b, P b → R b)
    (hx : ∀ b u, P b → (compile ctx part (rows [b])).result = .ok u → u.WithinFirst n R) :
    (optional part ctx s).WithinFirst n R := by
  refine withinFirst_of_invariant (trying_step hb hx) (fun h => ?_) (.idle hi)
  cases h <;> exact .spent

theorem within_optional (hi : s.Within P) (hb : ∀ b, P b → R b)
    (hx : ∀ b u, P b → (compile ctx part (rows [b])).result = .ok u → u.Within R) :
    (optional part ctx s).Within R :=
  within_of_first fun n =>
    withinFirst_optional (hi.first n) hb fun b u h hu => (hx b u h hu).first n

end Optional

section Gather

/-- The states of a stage that arranges all rows, which have the property `P`, with `m` of `n` steps
to go. Each step collects one row at most. -/
inductive Arranging (rule : Gathering) (ctx : Context) (P R : Binding → Prop) (n m : Nat) :
    Stage → Prop where
  | collecting {t : Stage} {acc : List Binding} : t.WithinFirst m P → (∀ b ∈ acc, P b) →
    acc.length + m ≤ n → Arranging rule ctx P R n m (gather rule ctx t acc)
  | arranged {t : Stage} {rest : List Binding} : (∀ c ∈ rest, R c) →
    Arranging rule ctx P R n m (gathered t rest)
  | spent : Arranging rule ctx P R n m (rows [])

variable {rule : Gathering} {ctx : Context}

theorem arranging_step
    (ha : ∀ l, l.length ≤ n → (∀ b ∈ l, P b) → ∀ c ∈ rule.arrange ctx.functions l, R c)
    (raised : Bool) (hm : m < n) (h : Arranging rule ctx P R n (m + 1) s) :
    (∀ b ∈ (step raised s).signal.rows, R b) ∧
      Arranging rule ctx P R n m (step raised s).stage := by
  have hnone : ([] : List Binding).length + m ≤ n := by
    rw [List.length_nil]
    omega
  cases h with
  | @collecting t acc ht hacc hn =>
    rw [step_gather]
    split
    · exact ⟨List.forall_mem_nil _, .collecting ht.pred.close (List.forall_mem_nil _) hnone⟩
    obtain ⟨hb, ht⟩ := ht.step raised
    have hpred : acc.length + m ≤ n := by omega
    rw [Move.gather]
    rcases hmove : Stage.step raised t with ⟨_ | b | _ | e, t', cost⟩ <;> rw [hmove] at hb ht
    · exact ⟨List.forall_mem_nil _, .collecting ht hacc hpred⟩
    · have hrow : P b := hb b (List.mem_singleton.2 rfl)
      have hlen : (b :: acc).length + m ≤ n := by
        rw [List.length_cons]
        omega
      exact ⟨List.forall_mem_nil _, .collecting ht (List.forall_mem_cons.2 ⟨hrow, hacc⟩) hlen⟩
    · have hrev : ∀ b ∈ acc.reverse, P b := fun b hb => hacc b (List.mem_reverse.1 hb)
      have hlen : acc.reverse.length ≤ n := by
        rw [List.length_reverse]
        omega
      exact ⟨List.forall_mem_nil _, .arranged (ha _ hlen hrev)⟩
    · exact ⟨List.forall_mem_nil _, .collecting ht.close (List.forall_mem_nil _) hnone⟩
  | @arranged t rest h =>
    cases rest with
    | nil => exact ⟨List.forall_mem_nil _, .arranged h⟩
    | cons b rest =>
      obtain ⟨hb, hrest⟩ := List.forall_mem_cons.1 h
      exact ⟨List.forall_mem_singleton.2 hb, .arranged hrest⟩
  | spent => exact ⟨List.forall_mem_nil _, .spent⟩

/-- An arrangement, from what it makes of as many rows as there are steps to collect them. -/
theorem withinFirst_gather (hi : s.WithinFirst n P)
    (ha : ∀ l, l.length ≤ n → (∀ b ∈ l, P b) → ∀ c ∈ rule.arrange ctx.functions l, R c) :
    (gather rule ctx s []).WithinFirst n R := by
  refine withinFirst_of_invariant (arranging_step ha) (fun h => ?_)
    (.collecting hi (List.forall_mem_nil _) (Nat.le_of_eq (Nat.zero_add n)))
  cases h <;> exact .spent

theorem within_gather (hi : s.Within P)
    (ha : ∀ l, (∀ b ∈ l, P b) → ∀ c ∈ rule.arrange ctx.functions l, R c) :
    (gather rule ctx s []).Within R :=
  within_of_first fun n => withinFirst_gather (hi.first n) fun l _ => ha l

end Gather

section Slice

/-- The states of a slice, with `n` steps to go. -/
inductive Slicing (P : Binding → Prop) (n : Nat) : Stage → Prop where
  | running {t : Stage} {skip : Nat} {limit : Option Nat} :
    t.WithinFirst n P → Slicing P n (slice t skip limit)
  | spent : Slicing P n (rows [])

theorem slicing_step (raised : Bool) (h : Slicing P (m + 1) s) :
    (∀ b ∈ (step raised s).signal.rows, P b) ∧ Slicing P m (step raised s).stage := by
  cases h with
  | @running t skip limit ht =>
    rw [step_slice]
    split
    · exact ⟨List.forall_mem_nil _, .spent⟩
    obtain ⟨hb, ht⟩ := ht.step raised
    rw [Move.slice]
    rcases hm : Stage.step raised t with ⟨_ | b | _ | e, t', cost⟩ <;> rw [hm] at hb ht
    · exact ⟨hb, .running ht⟩
    · dsimp only
      split
      · exact ⟨List.forall_mem_nil _, .running ht⟩
      · split
        · exact ⟨hb, .running ht.close⟩
        · exact ⟨hb, .running ht⟩
    · exact ⟨hb, .running ht⟩
    · exact ⟨hb, .running ht⟩
  | spent => exact ⟨List.forall_mem_nil _, .spent⟩

theorem withinFirst_slice (hi : s.WithinFirst n P) (skip : Nat) (limit : Option Nat) :
    (slice s skip limit).WithinFirst n P := by
  refine withinFirst_of_invariant (fun raised _ => slicing_step raised) (fun h => ?_) (.running hi)
  cases h <;> exact .spent

theorem within_slice (hi : s.Within P) (skip : Nat) (limit : Option Nat) :
    (slice s skip limit).Within P :=
  within_of_first fun n => withinFirst_slice (hi.first n) skip limit

end Slice

section Via

/-- The states of a stage that treats rows with the property `P` one by one, with `n` steps to
go. -/
inductive Treating (K : RowRule → Prop) (fs : Functions) (P : Binding → Prop) (n : Nat) :
    Stage → Prop where
  | intro {rule : RowRule} {t : Stage} {closed : Bool} : K rule → t.WithinFirst n P →
    Treating K fs P n (via rule fs t closed)

variable {K : RowRule → Prop} {fs : Functions}

theorem treating_step
    (hf : ∀ r b, K r → P b → K (r.feed fs b).1 ∧ ∀ c, (r.feed fs b).2 = some c → R c)
    (raised : Bool) (h : Treating K fs P (m + 1) s) :
    (∀ b ∈ (step raised s).signal.rows, R b) ∧ Treating K fs P m (step raised s).stage := by
  obtain @⟨rule, t, closed, hk, ht⟩ := h
  obtain ⟨hb, ht⟩ := ht.step raised
  rw [step_via, Move.via]
  rcases hm : Stage.step raised t with ⟨_ | b | _ | e, t', cost⟩ <;> rw [hm] at hb ht
  · exact ⟨List.forall_mem_nil _, .intro hk ht⟩
  · have hrow : P b := hb b (List.mem_singleton.2 rfl)
    obtain ⟨hafter, hout⟩ := hf rule b hk hrow
    dsimp only
    cases hc : (rule.feed fs b).2 with
    | none => exact ⟨List.forall_mem_nil _, .intro hafter ht⟩
    | some c => exact ⟨List.forall_mem_singleton.2 (hout c hc), .intro hafter ht⟩
  · exact ⟨List.forall_mem_nil _, .intro hk ht⟩
  · exact ⟨List.forall_mem_nil _, .intro hk ht⟩

/-- A rule among rules `K` that treat rows one by one, from what they make of each row. -/
theorem withinFirst_via {rule : RowRule} {closed : Bool} (hi : s.WithinFirst n P) (hk : K rule)
    (hreset : ∀ r, K r → K r.reset)
    (hf : ∀ r b, K r → P b → K (r.feed fs b).1 ∧ ∀ c, (r.feed fs b).2 = some c → R c) :
    (via rule fs s closed).WithinFirst n R := by
  refine withinFirst_of_invariant (fun raised _ => treating_step hf raised) (fun h => ?_)
    (.intro hk hi)
  obtain @⟨rule, t, closed, hk, ht⟩ := h
  cases closed with
  | false => exact .intro (hreset rule hk) ht.close
  | true => exact .intro hk ht

end Via

end Stage

end SparqlAlgebra
