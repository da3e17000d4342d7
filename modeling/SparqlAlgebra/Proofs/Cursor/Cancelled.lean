import SparqlAlgebra.Proofs.Stage.Schedule
import SparqlAlgebra.Proofs.Stage.Usage
import SparqlAlgebra.Proofs.Stage.Yields

/-!
Cursors under a cancel token that goes up and down. The token is looked at before the plan is asked
for a row, so the plan is only ever pulled with the token down: its rows are those of an undisturbed
run, up to the answer that ends the cursor.
-/

namespace SparqlAlgebra

open Stage

/-- Where the token is after some acts. -/
def Act.token (raised : Bool) : List Act → Bool
  | [] => raised
  | .next :: acts => token raised acts
  | .cancel :: acts => token true acts
  | .resume :: acts => token false acts

namespace Cursor

/-- The cursor after some acts, the token being up or down before them. -/
def after (raised : Bool) (c : Cursor) : List Act → Cursor
  | [] => c
  | .next :: acts => after raised (c.next raised).2.1 acts
  | .cancel :: acts => after true c acts
  | .resume :: acts => after false c acts

/-- What the caller gets for each row that is asked for. -/
def answers (raised : Bool) (c : Cursor) : List Act → List (Except PlanError (Option Binding))
  | [] => []
  | .next :: acts => (c.next raised).1 :: answers raised (c.next raised).2.1 acts
  | .cancel :: acts => answers true c acts
  | .resume :: acts => answers false c acts

/-- The row of an answer, if it is one. -/
def row? : Except PlanError (Option Binding) → Option Binding
  | .ok b => b
  | .error _ => none

/-- The rows that the caller gets. -/
def rows (raised : Bool) (c : Cursor) (acts : List Act) : List Binding :=
  (c.answers raised acts).filterMap row?

theorem row?_eq_none {x : Except PlanError (Option Binding)} (h : ∀ b, x ≠ .ok (some b)) :
    row? x = none := by
  rcases x with e | _ | b
  · rfl
  · rfl
  · exact absurd rfl (h b)

/-- The cursor once its plan, now in the stage `s`, is released. -/
def stopped (c : Cursor) (s : Stage) : Cursor :=
  { c with stage := s.close, done := true, releases := c.releases + 1 }

section Next

variable {c : Cursor}

theorem next_of_done (h : c.done = true) (raised : Bool) : c.next raised = (.ok none, c, {}) := by
  rw [next, if_pos h]

theorem finish_of_running (h : c.done = false) : c.finish.1 = c.stopped c.stage := by
  rw [finish, h]
  rfl

/-- What asking for a row comes to while a watching cursor is running. -/
theorem next_cases (hd : c.done = false) (hw : c.watching = true) (raised : Bool) :
    (∃ b, raised = false ∧ (c.stage.pull false).outcome = .ok (some b) ∧
        (c.next raised).1 = .ok (some b) ∧
        (c.next raised).2.1 = { c with stage := (c.stage.pull false).stage }) ∨
      (raised = false ∧ (∀ b, (c.stage.pull false).outcome ≠ .ok (some b)) ∧
        (c.next raised).1 = (c.stage.pull false).outcome ∧
        (c.next raised).2.1 = c.stopped (c.stage.pull false).stage) ∨
      (raised = true ∧ (c.next raised).1 = .error .cancelled ∧
        (c.next raised).2.1 = c.stopped c.stage) := by
  obtain ⟨s, watching, done, releases⟩ := c
  subst hd hw
  cases raised with
  | true => exact .inr (.inr ⟨rfl, rfl, rfl⟩)
  | false =>
    dsimp only [next]
    rcases (s.pull false).outcome with e | _ | b
    · exact .inr (.inl ⟨rfl, nofun, rfl, rfl⟩)
    · exact .inr (.inl ⟨rfl, nofun, rfl, rfl⟩)
    · exact .inl ⟨b, rfl, rfl, rfl, rfl⟩

theorem watching_next (hw : c.watching = true) (raised : Bool) :
    (c.next raised).2.1.watching = true := by
  rcases Bool.eq_false_or_eq_true c.done with hd | hd
  · rw [next_of_done hd]
    exact hw
  · rcases next_cases hd hw raised with ⟨_, -, -, -, hn⟩ | ⟨-, -, -, hn⟩ | ⟨-, -, hn⟩
    all_goals
      rw [hn]
      exact hw

/-- A cursor goes on after a row, and after nothing else. -/
theorem next_running_or_done (hw : c.watching = true) (raised : Bool) :
    (∃ b, (c.next raised).1 = .ok (some b) ∧ (c.stage.pull false).outcome = .ok (some b) ∧
        (c.next raised).2.1 = { c with stage := (c.stage.pull false).stage }) ∨
      ((∀ b, (c.next raised).1 ≠ .ok (some b)) ∧ (c.next raised).2.1.done = true) := by
  rcases Bool.eq_false_or_eq_true c.done with hd | hd
  · rw [next_of_done hd]
    exact .inr ⟨nofun, hd⟩
  · rcases next_cases hd hw raised with ⟨b, -, hp, hb, hn⟩ | ⟨-, hp, hx, hn⟩ | ⟨-, hx, hn⟩
    · exact .inl ⟨b, hb, hp, hn⟩
    · exact .inr ⟨by rw [hx]; exact hp, by rw [hn]; rfl⟩
    · exact .inr ⟨by rw [hx]; exact nofun, by rw [hn]; rfl⟩

end Next

section Acts

variable {c : Cursor}

theorem answers_append (raised : Bool) (c : Cursor) (before acts : List Act) :
    c.answers raised (before ++ acts) =
      c.answers raised before ++
        (c.after raised before).answers (Act.token raised before) acts := by
  induction before generalizing raised c with
  | nil => rfl
  | cons a before ih =>
    cases a with
    | next => exact congrArg ((c.next raised).1 :: ·) (ih raised _)
    | cancel => exact ih true c
    | resume => exact ih false c

theorem after_of_done (h : c.done = true) (raised : Bool) (acts : List Act) :
    c.after raised acts = c := by
  induction acts generalizing raised with
  | nil => rfl
  | cons a acts ih =>
    cases a with
    | next =>
      rw [after, next_of_done h]
      exact ih raised
    | cancel => exact ih true
    | resume => exact ih false

/-- Nothing comes after the end. -/
theorem answers_of_done (h : c.done = true) (raised : Bool) (acts : List Act) :
    c.answers raised acts = List.replicate (acts.count .next) (.ok none) := by
  induction acts generalizing raised with
  | nil => rfl
  | cons a acts ih =>
    cases a with
    | next =>
      rw [answers, next_of_done h, List.count_cons_self]
      exact congrArg (.ok none :: ·) (ih raised)
    | cancel => exact ih true
    | resume => exact ih false

variable (hw : c.watching = true)

include hw

theorem watching_after (raised : Bool) (acts : List Act) :
    (c.after raised acts).watching = true := by
  induction acts generalizing raised c with
  | nil => exact hw
  | cons a acts ih =>
    cases a with
    | next => exact ih (watching_next hw raised) raised
    | cancel => exact ih hw true
    | resume => exact ih hw false

/-- A running cursor that finds the token up ends with the cancellation. -/
theorem answers_raised (hd : c.done = false) (acts : List Act) :
    c.answers true (.next :: acts) =
      .error .cancelled :: List.replicate (acts.count .next) (.ok none) := by
  rcases next_cases hd hw true with ⟨_, h, -⟩ | ⟨h, -⟩ | ⟨-, hx, hn⟩
  · cases h
  · cases h
  · rw [answers, hx, hn, answers_of_done rfl]

/-- As long as a cursor is running it has answered with rows alone. -/
theorem answers_of_running (raised : Bool) (acts : List Act)
    (h : (c.after raised acts).done = false) :
    c.answers raised acts = (c.rows raised acts).map fun b => .ok (some b) := by
  induction acts generalizing raised c with
  | nil => rfl
  | cons a acts ih =>
    cases a with
    | next =>
      rcases next_running_or_done hw raised with ⟨b, hb, -, hn⟩ | ⟨-, hn⟩
      · have hrest := ih (watching_next hw raised) raised h
        rw [rows, answers, hb]
        exact congrArg (.ok (some b) :: ·) hrest
      · rw [after, after_of_done hn, hn] at h
        cases h
    | cancel => exact ih hw true h
    | resume => exact ih hw false h

/-- After an answer that is no row there are no more rows and no more failures. -/
theorem answers_final {raised : Bool} {acts : List Act}
    {before later : List (Except PlanError (Option Binding))} {x : Except PlanError (Option Binding)}
    (h : c.answers raised acts = before ++ x :: later) (hx : ∀ b, x ≠ .ok (some b)) :
    ∀ y ∈ later, y = .ok none := by
  induction acts generalizing raised c before with
  | nil => exact absurd h.symm (List.append_ne_nil_of_right_ne_nil _ (List.cons_ne_nil x later))
  | cons a acts ih =>
    cases a with
    | next =>
      rcases next_running_or_done hw raised with ⟨b, hb, -, hn⟩ | ⟨-, hn⟩
      · rcases List.cons_eq_append_iff.1 h with ⟨-, hxs⟩ | ⟨before', -, hrest⟩
        · cases hxs
          exact absurd hb (hx b)
        · exact ih (watching_next hw raised) hrest
      · -- All that is answered after this act is nothing, so `x` may stand here or later.
        have hnone : ∀ y ∈ (c.next raised).2.1.answers raised acts, y = .ok none := by
          rw [answers_of_done hn]
          exact fun y => List.eq_of_mem_replicate
        rcases List.cons_eq_append_iff.1 h with ⟨-, hxs⟩ | ⟨before', -, hrest⟩
        · cases hxs
          exact hnone
        · rw [hrest] at hnone
          exact fun y hy => hnone y (List.mem_append_right _ (List.mem_cons_of_mem x hy))
    | cancel => exact ih hw h
    | resume => exact ih hw h

/-- The rows of a schedule are the first ones of the undisturbed run. -/
theorem rows_prefix {l : List Binding} {o : Option PlanError} (h : Emits false c.stage l o)
    (raised : Bool) (acts : List Act) : c.rows raised acts <+: l := by
  -- What carries the induction is that the plan still emits the rest of the undisturbed run.
  induction acts generalizing raised c l with
  | nil => exact List.nil_prefix
  | cons a acts ih =>
    cases a with
    | next =>
      rcases next_running_or_done hw raised with ⟨b, hb, hp, hn⟩ | ⟨hx, hn⟩
      · rcases h.pull with ⟨b', rest, rfl, hb', hrest⟩ | ⟨-, hend⟩
        · obtain rfl : b = b' := Option.some.inj (Except.ok.inj (hp.symm.trans hb'))
          have hl := ih (watching_next hw raised) (l := rest) (by rw [hn]; exact hrest) raised
          rw [rows, answers, hb]
          exact List.cons_prefix_cons.2 ⟨rfl, hl⟩
        · exact absurd hp (hend b)
      · have hnil : (c.rows raised (.next :: acts)) = [] := by
          rw [rows, answers, answers_of_done hn, List.filterMap_cons_none (row?_eq_none hx)]
          exact List.filterMap_replicate_of_none rfl
        rw [hnil]
        exact List.nil_prefix
    | cancel => exact ih hw h true
    | resume => exact ih hw h false

/-- The plan is only ever pulled with the token down, and it is released once, at the end. -/
theorem finish_after (hd : c.done = false) (raised : Bool) (acts : List Act) :
    (c.after raised acts).releases = c.releases + (c.after raised acts).done.toNat ∧
      (c.after raised acts).finish.1.releases = c.releases + 1 ∧
      ∃ n, (c.after raised acts).finish.1.stage =
        c.stage.after (List.replicate n (.pull false) ++ [.close]) := by
  induction acts generalizing raised c with
  | nil =>
    rw [after, finish_of_running hd, hd]
    exact ⟨rfl, rfl, 0, rfl⟩
  | cons a acts ih =>
    cases a with
    | next =>
      rw [after]
      rcases next_cases hd hw raised with ⟨b, -, -, -, hn⟩ | ⟨-, -, -, hn⟩ | ⟨-, -, hn⟩
      · -- A row costs one more pull; at an end, or under a raised token, the release comes last.
        obtain ⟨hr, hf, n, hs⟩ := ih (watching_next hw raised) (by rw [hn]; exact hd) raised
        rw [hn] at hr hf hs ⊢
        exact ⟨hr, hf, n + 1, hs⟩
      · rw [hn, after_of_done rfl]
        exact ⟨rfl, rfl, 1, rfl⟩
      · rw [hn, after_of_done rfl]
        exact ⟨rfl, rfl, 0, rfl⟩
    | cancel => exact ih hw hd true
    | resume => exact ih hw hd false

end Acts

theorem start_watched {ctx : Context} {op : Op} {c : Cursor} {cost : Tally}
    (h : start ctx op (some false) = (.ok c, cost)) :
    c.watching = true ∧ c.done = false ∧ c.releases = 0 := by
  have hfst := congrArg Prod.fst h
  have hrun : ({ ctx with cancellable := true } : Context).stopped false = false := rfl
  simp only [start, Option.isSome_some, if_true, Option.getD_some, hrun, Bool.false_eq_true,
    if_false] at hfst
  cases hc : (compile { ctx with cancellable := true } op .root).result with
  | error e =>
    rw [hc] at hfst
    cases hfst
  | ok s =>
    rw [hc] at hfst
    cases hfst
    exact ⟨rfl, rfl, rfl⟩

/-- Under every schedule a query gives the first rows of its undisturbed run. The first row that is
asked for with the token up gives the cancellation, unless the query has ended before; from then on,
as after every end and every failure, there is nothing, be the token down again or not. The plan is
pulled with the token down alone and released once, when the query ends or else when it is
dropped. -/
theorem answers_cancelled {ctx : Context} {op : Op} {c : Cursor} {cost : Tally}
    (h : start ctx op (some false) = (.ok c, cost)) (acts : List Act) :
    c.rows false acts <+: (c.stage.run false).rows ∧
      (∀ before later, acts = before ++ .next :: later → Act.token false before = true →
        (c.after false before).done = false →
        c.answers false acts = ((c.rows false before).map fun b => .ok (some b)) ++
          .error .cancelled :: List.replicate (later.count .next) (.ok none)) ∧
      (∀ before x later, c.answers false acts = before ++ x :: later →
        (∀ b, x ≠ .ok (some b)) → ∀ y ∈ later, y = .ok none) ∧
      (c.after false acts).releases = (c.after false acts).done.toNat ∧
      (c.after false acts).finish.1.releases = 1 ∧
      ∃ n, (c.after false acts).finish.1.stage =
        c.stage.after (List.replicate n (.pull false) ++ [.close]) := by
  obtain ⟨hw, hd, hz⟩ := start_watched h
  obtain ⟨l, o, hl⟩ := exists_emits false c.stage
  obtain ⟨hr, hf, hs⟩ := finish_after hw hd false acts
  rw [hz, Nat.zero_add] at hr hf
  have hrows : c.rows false acts <+: (c.stage.run false).rows := by
    rw [(hl.run [] {}).1]
    exact rows_prefix hw hl false acts
  refine ⟨hrows, ?_, fun before x later => answers_final hw, hr, hf, hs⟩
  rintro before later rfl hup hrun
  have hbefore := answers_of_running hw false before hrun
  have hlater := answers_raised (watching_after hw false before) hrun later
  rw [answers_append, hup, hbefore, hlater]

/-- The second branch of the union is never asked: the token is up when its row is due, and down
again when it is too late. -/
theorem answers_cancelled_union :
    let op : Op := .union (.distinct (.bgp [])) (.bgp [])
    let acts : List Act := [.next, .cancel, .next, .resume, .next]
    ∃ c cost, start (.ofDataset {}) op (some false) = (.ok c, cost) ∧
      c.answers false acts = [.ok (some ∅), .error .cancelled, .ok none] ∧
      c.rows false acts <+: (c.stage.run false).rows ∧
      (c.after false acts).releases = (c.after false acts).done.toNat ∧
      (c.after false acts).finish.1.releases = 1 := by
  intro op acts
  let ctx : Context := { Context.ofDataset {} with cancellable := true }
  let rule : Expansion := .union [.distinct (.bgp []), .bgp []] ctx
  let c : Cursor := { stage := .each rule .root, watching := true }
  have hstart : start (.ofDataset {}) op (some false) =
      (.ok c, (compile ctx op .root).tally) := rfl
  have hpull : ∃ s cost, c.stage.pull false = ⟨.ok (some ∅), s, cost⟩ := by
    apply Exists.intro
    apply Exists.intro
    refine Eq.trans (@pull_of_silent false (.each rule .root) rfl _) ?_
    refine Eq.trans (pull_of_silent rfl _) ?_
    exact pull_of_row rfl _
  obtain ⟨s, cost, hpull⟩ := hpull
  obtain ⟨hrows, hraised, -, hr, hf, -⟩ := answers_cancelled hstart acts
  have hnext : c.next false = (.ok (some ∅), { c with stage := s }, cost) := by
    simp [next, hpull, c]
  have hrun : (c.after false [.next, .cancel]).done = false := by
    rw [after, hnext]
    rfl
  have hfirst : c.rows false [.next, .cancel] = [∅] := by
    rw [rows, answers, hnext]
    rfl
  have hanswers := hraised [.next, .cancel] [.resume, .next] rfl rfl hrun
  rw [hfirst] at hanswers
  exact ⟨c, _, hstart, hanswers, hrows, hr, hf⟩

end Cursor

end SparqlAlgebra
