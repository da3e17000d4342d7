import SparqlAlgebra.Proofs.Stage.Sealed
import SparqlAlgebra.Proofs.Stage.Transcript

/-!
Pulls in a row: what they give, the stage that they leave, and how often they pull outer sources. A
stage that expands rows passes a pull on to its input, and then answers from what the row was
expanded to.
-/

namespace SparqlAlgebra

open Transcript

namespace Stage

/-- How often some uses pull outer sources. -/
def pullings (s : Stage) : List Use → Nat
  | [] => 0
  | .pull raised :: uses => (s.pull raised).tally.pulls + pullings (s.pull raised).stage uses
  | .close :: uses => pullings s.close uses

/-- A number of pulls in a row. -/
def pullsOf (raised : Bool) (n : Nat) : List Use := List.replicate n (.pull raised)

variable {raised : Bool} {s t u : Stage} {m n : Nat}

theorem answers_append (s : Stage) (uses more : List Use) :
    s.answers (uses ++ more) = s.answers uses ++ (s.after uses).answers more := by
  induction uses generalizing s with
  | nil => rfl
  | cons u uses ih =>
    cases u with
    | pull raised => exact congrArg (_ :: ·) (ih _)
    | close => exact ih _

theorem pullings_append (s : Stage) (uses more : List Use) :
    s.pullings (uses ++ more) = s.pullings uses + (s.after uses).pullings more := by
  induction uses generalizing s with
  | nil => exact (Nat.zero_add _).symm
  | cons u uses ih =>
    cases u with
    | pull raised => exact (congrArg (_ + ·) (ih _)).trans (Nat.add_assoc _ _ _).symm
    | close => exact ih _

theorem pullsOf_add (raised : Bool) (m n : Nat) :
    pullsOf raised (m + n) = pullsOf raised m ++ pullsOf raised n :=
  List.replicate_add m n _

theorem pullsOf_succ (raised : Bool) (n : Nat) :
    pullsOf raised (n + 1) = .pull raised :: pullsOf raised n := rfl

theorem answers_pullsOf_succ (raised : Bool) (s : Stage) (n : Nat) :
    s.answers (pullsOf raised (n + 1)) =
      (s.pull raised).outcome :: (s.pull raised).stage.answers (pullsOf raised n) := rfl

theorem pullings_pullsOf_succ (raised : Bool) (s : Stage) (n : Nat) :
    s.pullings (pullsOf raised (n + 1)) =
      (s.pull raised).tally.pulls + (s.pull raised).stage.pullings (pullsOf raised n) := rfl

/-- A pull of `s` comes to a pull of `t`, after `n` pulls of outer sources. -/
structure Leads (raised : Bool) (s : Stage) (n : Nat) (t : Stage) : Prop where
  outcome : (s.pull raised).outcome = (t.pull raised).outcome
  stage : (s.pull raised).stage = (t.pull raised).stage
  pulls : (s.pull raised).tally.pulls = n + (t.pull raised).tally.pulls

theorem Leads.trans (h : Leads raised s m t) (h' : Leads raised t n u) :
    Leads raised s (m + n) u :=
  ⟨h.outcome.trans h'.outcome, h.stage.trans h'.stage, by rw [h.pulls, h'.pulls, Nat.add_assoc]⟩

theorem Shows.leads (h : Shows raised s .silent t) :
    Leads raised s (step raised s).tally.pulls t := by
  refine ⟨h.pull_silent.1, h.pull_silent.2, ?_⟩
  rw [pull_of_silent h.1, h.2, tally_spent, Tally.pulls_add, Tally.pulls_add]
  exact congrArg (· + _) (Nat.zero_add _)

theorem Leads.answers (h : Leads raised s n t) (k : Nat) :
    s.answers (pullsOf raised k) = t.answers (pullsOf raised k) := by
  cases k with
  | zero => rfl
  | succ k => rw [answers_pullsOf_succ, answers_pullsOf_succ, h.outcome, h.stage]

theorem Leads.pullings (h : Leads raised s n t) (k : Nat) :
    s.pullings (pullsOf raised (k + 1)) = n + t.pullings (pullsOf raised (k + 1)) := by
  rw [pullings_pullsOf_succ, pullings_pullsOf_succ, h.pulls, h.stage, Nat.add_assoc]

section Transcript

variable {b : Binding} {x : Transcript}

/-- A pull gives the first row of the transcript and leaves the rest of it. -/
theorem pull_of_transcript_cons (h : s.transcript raised = x.cons b) :
    (s.pull raised).outcome = .ok (some b) ∧ (s.pull raised).stage.transcript raised = x := by
  induction s using run_induction raised with
  | finished hs =>
    rw [transcript_of_finished hs] at h
    cases congrArg Transcript.rows h
  | failed hs =>
    rw [transcript_of_failed hs] at h
    cases congrArg Transcript.rows h
  | silent hs ih =>
    rw [hs.pull_silent.1, hs.pull_silent.2]
    exact ih ((transcript_of_silent hs).symm.trans h)
  | @row s t c hs _ =>
    rw [transcript_of_row hs] at h
    obtain ⟨hrows, herror⟩ := Transcript.mk.inj h
    obtain ⟨rfl, htail⟩ := List.cons.inj hrows
    rw [hs.pull_row.1, hs.pull_row.2]
    exact ⟨rfl, congrArg₂ Transcript.mk htail herror⟩

theorem pull_of_transcript_nil (h : s.transcript raised = { rows := [] }) :
    (s.pull raised).outcome = .ok none := by
  induction s using run_induction raised with
  | finished hs => exact hs.pull_finished.1
  | failed hs =>
    rw [transcript_of_failed hs] at h
    cases congrArg Transcript.error h
  | silent hs ih =>
    rw [hs.pull_silent.1]
    exact ih ((transcript_of_silent hs).symm.trans h)
  | row hs _ =>
    rw [transcript_of_row hs] at h
    cases congrArg Transcript.rows h

end Transcript

/-- A step that shows something is all of a pull. -/
theorem Shows.pulls {x : Signal} (h : Shows raised s x t) (hx : x ≠ .silent) :
    (s.pull raised).tally.pulls = (step raised s).tally.pulls := by
  have hstep := h.1
  cases x with
  | silent => exact (hx rfl).elim
  | row b => rw [pull_of_row hstep, Tally.pulls_add, Nat.zero_add]
  | finished => rw [pull_of_finished hstep, Tally.pulls_add, Nat.zero_add]
  | failed e => rw [pull_of_failed hstep, Tally.pulls_add, Nat.zero_add]

/-- A pull of a stage without outer source pulls none. -/
theorem sealed_pull (raised : Bool) (h : s.isSealed = true) :
    (s.pull raised).tally.pulls = 0 ∧ (s.pull raised).stage.isSealed = true := by
  induction s using run_induction raised with
  | finished hs =>
    rw [hs.pulls nofun, hs.pull_finished.2, ← hs.2]
    exact ⟨(sealed_step h raised).pulls, (sealed_step h raised).isSealed⟩
  | failed hs =>
    rw [hs.pulls nofun, hs.pull_failed.2, ← hs.2]
    exact ⟨(sealed_step h raised).pulls, (sealed_step h raised).isSealed⟩
  | row hs _ =>
    rw [hs.pulls nofun, hs.pull_row.2, ← hs.2]
    exact ⟨(sealed_step h raised).pulls, (sealed_step h raised).isSealed⟩
  | silent hs ih =>
    obtain ⟨hpulls, hsealed⟩ := ih (hs.2 ▸ (sealed_step h raised).isSealed)
    rw [hs.leads.pulls, hs.leads.stage, (sealed_step h raised).pulls, hpulls]
    exact ⟨rfl, hsealed⟩

section Each

variable (rule : Expansion) {b : Binding}

theorem step_each_silent (h : Shows raised s .silent t) :
    Shows raised (each rule s) .silent (each rule t) ∧
      (step raised (each rule s)).tally = (step raised s).tally := by
  simp [Shows, step_each, Move.each, Move.within, h.1, h.2]

/-- The row of a pull is expanded, and the pull goes on in what it is expanded to. -/
theorem leads_each {v : Stage → Stage}
    (hv : ∀ {s t}, Shows raised s (.row b) t → Shows raised (each rule s) .silent (v t) ∧
      (step raised (each rule s)).tally.pulls = (step raised s).tally.pulls + n)
    (hb : (s.pull raised).outcome = .ok (some b)) :
    Leads raised (each rule s) ((s.pull raised).tally.pulls + n) (v (s.pull raised).stage) := by
  -- The silent steps of the input are silent steps here, up to its row, which turns the stage to
  -- `v`.
  induction s using run_induction raised with
  | finished h => cases h.pull_finished.1.symm.trans hb
  | failed h => cases h.pull_failed.1.symm.trans hb
  | silent h ih =>
    obtain ⟨hs, hcost⟩ := step_each_silent rule h
    have hall := hs.leads.trans (ih (h.leads.outcome.symm.trans hb))
    rw [hcost, ← Nat.add_assoc, ← h.leads.pulls, ← h.leads.stage] at hall
    exact hall
  | @row s t c h _ =>
    obtain rfl : c = b := by simpa [h.pull_row.1] using hb
    obtain ⟨hs, hcost⟩ := hv h
    rw [h.pulls nofun, h.pull_row.2, ← hcost]
    exact hs.leads

/-- Nothing but a row is expanded. -/
theorem pull_each_passed (hb : ∀ b, (s.pull raised).outcome ≠ .ok (some b)) :
    ((each rule s).pull raised).outcome = (s.pull raised).outcome ∧
      ((each rule s).pull raised).stage = each rule (s.pull raised).stage := by
  induction s using run_induction raised with
  | finished h =>
    have hs := passes_each rule (fun _ => Signal.noConfusion) h
    rw [hs.pull_finished.1, hs.pull_finished.2, h.pull_finished.1, h.pull_finished.2]
    exact ⟨rfl, rfl⟩
  | failed h =>
    have hs := passes_each rule (fun _ => Signal.noConfusion) h
    rw [hs.pull_failed.1, hs.pull_failed.2, h.pull_failed.1, h.pull_failed.2]
    exact ⟨rfl, rfl⟩
  | silent h ih =>
    obtain ⟨hs, -⟩ := step_each_silent rule h
    rw [hs.pull_silent.1, hs.pull_silent.2, h.pull_silent.1, h.pull_silent.2]
    exact ih fun b => h.pull_silent.1 ▸ hb b
  | row h _ => exact (hb _ h.pull_row.1).elim

theorem answers_each_passed (hb : ∀ b, (s.pull raised).outcome ≠ .ok (some b)) (n : Nat) :
    (each rule s).answers (pullsOf raised (n + 1)) =
      (s.pull raised).outcome :: (each rule (s.pull raised).stage).answers (pullsOf raised n) := by
  obtain ⟨ho, hstage⟩ := pull_each_passed rule hb
  rw [answers_pullsOf_succ, ho, hstage]

theorem step_eachOf_passed (t : Stage) {x : Signal} (h : Shows raised u x s)
    (hx : x ≠ .finished) :
    Shows raised (eachOf rule t u) x (eachOf rule t s) ∧
      (step raised (eachOf rule t u)).tally = (step raised u).tally := by
  cases x with
  | finished => exact (hx rfl).elim
  | _ => simp [Shows, step_eachOf, Move.eachOf, Move.within, h.1, h.2]

/-- A row of what is in the works is passed on. -/
theorem pull_eachOf_row (t : Stage) (hb : (u.pull raised).outcome = .ok (some b)) :
    ((eachOf rule t u).pull raised).outcome = .ok (some b) ∧
      ((eachOf rule t u).pull raised).stage = eachOf rule t (u.pull raised).stage ∧
      ((eachOf rule t u).pull raised).tally.pulls = (u.pull raised).tally.pulls := by
  induction u using run_induction raised with
  | finished h => cases h.pull_finished.1.symm.trans hb
  | failed h => cases h.pull_failed.1.symm.trans hb
  | silent h ih =>
    obtain ⟨hs, hcost⟩ := step_eachOf_passed rule t h nofun
    obtain ⟨ho, hstage, hpulls⟩ := ih (h.leads.outcome.symm.trans hb)
    rw [hs.leads.outcome, hs.leads.stage, hs.leads.pulls, h.leads.stage, h.leads.pulls, hcost,
      hpulls]
    exact ⟨ho, hstage, rfl⟩
  | @row u v c h _ =>
    obtain rfl : c = b := by simpa [h.pull_row.1] using hb
    obtain ⟨hs, hcost⟩ := step_eachOf_passed rule t h nofun
    rw [hs.pulls nofun, h.pulls nofun, hs.pull_row.1, hs.pull_row.2, h.pull_row.2, hcost]
    exact ⟨rfl, rfl, rfl⟩

/-- At the end of what is in the works, a pull goes back to the input. -/
theorem leads_eachOf (t : Stage) (hend : (u.pull raised).outcome = .ok none) :
    Leads raised (eachOf rule t u) (u.pull raised).tally.pulls (each rule t) := by
  -- The end of the works does not show: it is one more silent step of the pull.
  induction u using run_induction raised with
  | @finished u v h =>
    have hs : Shows raised (eachOf rule t u) .silent (each rule t) := by
      simp [Shows, step_eachOf, Move.eachOf, Move.turn, h.1]
    have hcost : (step raised (eachOf rule t u)).tally.pulls = (step raised u).tally.pulls := by
      simp [step_eachOf, Move.eachOf, Move.turn, h.1]
    rw [h.pulls (by simp), ← hcost]
    exact hs.leads
  | failed h => cases h.pull_failed.1.symm.trans hend
  | silent h ih =>
    obtain ⟨hs, hcost⟩ := step_eachOf_passed rule t h (by simp)
    have hall := hs.leads.trans (ih (h.leads.outcome.symm.trans hend))
    rw [hcost, ← h.leads.pulls] at hall
    exact hall
  | row h _ => cases h.pull_row.1.symm.trans hend

/-- The rows of what is in the works come pull by pull, and no outer source is pulled for them if
there is none below. -/
theorem pulls_eachOf (t : Stage) {l rest : List Binding} {o : Option PlanError}
    (hu : u.isSealed = true) (h : u.transcript raised = ⟨l ++ rest, o⟩) :
    ∃ v, v.isSealed = true ∧ v.transcript raised = ⟨rest, o⟩ ∧
      (eachOf rule t u).answers (pullsOf raised l.length) = l.map (fun b => .ok (some b)) ∧
      (eachOf rule t u).after (pullsOf raised l.length) = eachOf rule t v ∧
      (eachOf rule t u).pullings (pullsOf raised l.length) = 0 := by
  -- One pull for each row: what is left of the works has no outer source either.
  induction l generalizing u with
  | nil => exact ⟨u, hu, h, rfl, rfl, rfl⟩
  | cons b l ih =>
    obtain ⟨hb, hrest⟩ := pull_of_transcript_cons (x := ⟨l ++ rest, o⟩) h
    obtain ⟨hcost, hsealed⟩ := sealed_pull raised hu
    obtain ⟨v, hv, htail, hanswers, hafter, hpullings⟩ := ih hsealed hrest
    obtain ⟨ho, hstage, hpulls⟩ := pull_eachOf_row rule t hb
    refine ⟨v, hv, htail, ?_, ?_, ?_⟩
    · rw [List.length_cons, answers_pullsOf_succ, ho, hstage, hanswers]
      rfl
    · rw [List.length_cons, pullsOf_succ, after, hstage, hafter]
    · rw [List.length_cons, pullings_pullsOf_succ, hstage, hpullings, hpulls, hcost]

/-- When the works have come to their end, the next pull goes back to the input. -/
theorem pulls_eachOf_all (t : Stage) {l : List Binding} (hu : u.isSealed = true)
    (h : u.transcript raised = { rows := l }) (n : Nat) :
    (eachOf rule t u).answers (pullsOf raised (l.length + n)) =
        l.map (fun b => .ok (some b)) ++ (each rule t).answers (pullsOf raised n) ∧
      (eachOf rule t u).pullings (pullsOf raised (l.length + (n + 1))) =
        (each rule t).pullings (pullsOf raised (n + 1)) := by
  have hl : u.transcript raised = ⟨l ++ [], none⟩ := by rw [List.append_nil, h]
  obtain ⟨v, hv, hend, hanswers, hafter, hpullings⟩ := pulls_eachOf rule t hu hl
  have hback := leads_eachOf rule t (pull_of_transcript_nil hend)
  rw [(sealed_pull raised hv).1] at hback
  constructor
  · rw [pullsOf_add, answers_append, hanswers, hafter, hback.answers]
  · rw [pullsOf_add, pullings_append, hpullings, hafter, hback.pullings, Nat.zero_add, Nat.zero_add]

/-- What is held back is passed on as a whole, or the row is instead. -/
theorem leads_eachHeld {ctx : Context} (hw : ctx.stopped raised = false) (t : Stage)
    {l : List Binding} (hu : u.isSealed = true) {acc : List Binding}
    (h : ((u.transcript raised).settled (fun k => { rows := acc.reverse ++ k }) fun
      | .cancelled => failure .cancelled
      | _ => { rows := [b] }) = { rows := l }) :
    Leads raised (eachHeld rule ctx t b u acc) 0 (eachOf rule t (rows l)) := by
  -- Along the run of `u` the rows collected and those to come make up `l`, until `u` ends or fails.
  induction u using run_induction raised generalizing acc with
  | @finished u v hs =>
    rw [transcript_of_finished hs, settled, List.append_nil] at h
    have hl : acc.reverse = l := congrArg Transcript.rows h
    have hmove : Shows raised (eachHeld rule ctx t b u acc) .silent (eachOf rule t (rows l)) := by
      simp [Shows, step_eachHeld, hw, Move.eachHeld, Move.turn, hs.1, hl]
    have hcost : (step raised (eachHeld rule ctx t b u acc)).tally.pulls = 0 := by
      simp [step_eachHeld, hw, Move.eachHeld, Move.turn, hs.1, (sealed_step hu raised).pulls]
    exact hcost ▸ hmove.leads
  | @failed u v e hs =>
    rw [transcript_of_failed hs] at h
    have hcase : e ≠ .cancelled ∧ l = [b] := by
      cases e with
      | cancelled => cases congrArg Transcript.error h
      | _ => exact ⟨by simp, (congrArg Transcript.rows h).symm⟩
    obtain ⟨he, rfl⟩ := hcase
    have hmove : Shows raised (eachHeld rule ctx t b u acc) .silent (eachOf rule t (rows [b])) ∧
        (step raised (eachHeld rule ctx t b u acc)).tally.pulls = 0 := by
      cases e with
      | cancelled => exact (he rfl).elim
      | _ =>
        simp [Shows, step_eachHeld, hw, Move.eachHeld, Move.turn, hs.1,
          (sealed_step hu raised).pulls]
    exact hmove.2 ▸ hmove.1.leads
  | @silent u v hs ih =>
    rw [transcript_of_silent hs] at h
    have hv : v.isSealed = true := hs.2 ▸ (sealed_step hu raised).isSealed
    have hmove : Shows raised (eachHeld rule ctx t b u acc) .silent
        (eachHeld rule ctx t b v acc) := by
      simp [Shows, step_eachHeld, hw, Move.eachHeld, Move.within, hs.1, hs.2]
    have hcost : (step raised (eachHeld rule ctx t b u acc)).tally.pulls = 0 := by
      simp [step_eachHeld, hw, Move.eachHeld, Move.within, hs.1, (sealed_step hu raised).pulls]
    have hall := hmove.leads.trans (ih hv h)
    rw [hcost] at hall
    exact hall
  | @row u v c hs ih =>
    rw [transcript_of_row hs] at h
    have hv : v.isSealed = true := hs.2 ▸ (sealed_step hu raised).isSealed
    have hmove : Shows raised (eachHeld rule ctx t b u acc) .silent
        (eachHeld rule ctx t b v (c :: acc)) := by
      simp [Shows, step_eachHeld, hw, Move.eachHeld, Move.turn, hs.1, hs.2]
    have hcost : (step raised (eachHeld rule ctx t b u acc)).tally.pulls = 0 := by
      simp [step_eachHeld, hw, Move.eachHeld, Move.turn, hs.1, (sealed_step hu raised).pulls]
    have hacc (k : List Binding) : (c :: acc).reverse ++ k = acc.reverse ++ c :: k := by
      rw [List.reverse_cons, List.append_assoc, List.singleton_append]
    have hall := hmove.leads.trans (ih hv (by simp only [hacc]; exact h))
    rw [hcost] at hall
    exact hall

/-- What a row is expanded to is given as a whole, if it comes to its end, before the input is
pulled again. -/
theorem pulls_each_row {l : List Binding} (hb : (s.pull raised).outcome = .ok (some b))
    (hx : (rule.expand b).1.Unstopped raised)
    (hl : (rule.expand b).1.transcript raised b = { rows := l }) (n : Nat) :
    (each rule s).answers (pullsOf raised (l.length + n)) =
        l.map (fun c => .ok (some c)) ++
          (each (rule.after b) (s.pull raised).stage).answers (pullsOf raised n) ∧
      (each rule s).pullings (pullsOf raised (l.length + (n + 1))) =
        (s.pull raised).tally.pulls +
          (each (rule.after b) (s.pull raised).stage).pullings (pullsOf raised (n + 1)) := by
  obtain ⟨hsealed, hcost⟩ := rule.sealed_expand b
  -- Whatever the row is expanded to, the pull goes on in a stage without outer source.
  have hworks : ∃ u, u.isSealed = true ∧ u.transcript raised = { rows := l } ∧
      Leads raised (each rule s) (s.pull raised).tally.pulls
        (eachOf (rule.after b) (s.pull raised).stage u) := by
    rcases he : rule.expand b with ⟨x, cost⟩
    rw [he] at hx hl hsealed hcost
    have hnone : cost.pulls = 0 := hcost
    cases x with
    | flow u =>
      refine ⟨u, hsealed, hl, leads_each (n := 0) (v := fun t => eachOf (rule.after b) t u) rule
        (fun h => ?_) hb⟩
      simp [Shows, step_each, Move.each, Move.turn, h.1, h.2, he, hnone]
    | hold ctx u =>
      have henter := leads_each (n := 0) (v := fun t => eachHeld (rule.after b) ctx t b u []) rule
        (fun h => by simp [Shows, step_each, Move.each, Move.turn, h.1, h.2, he, hnone]) hb
      exact ⟨rows l, rfl, transcript_rows raised l,
        henter.trans (leads_eachHeld (rule.after b) hx _ hsealed hl)⟩
    | failed e => cases congrArg Transcript.error hl
  obtain ⟨u, hu, htranscript, hlead⟩ := hworks
  have hall := pulls_eachOf_all (rule.after b) (s.pull raised).stage hu htranscript
  constructor
  · rw [hlead.answers, (hall n).1]
  · rw [← Nat.add_assoc, hlead.pullings, Nat.add_assoc, (hall n).2]

end Each

theorem answers_source_cons (raised : Bool) (x : Except PlanError Binding)
    (rest : List (Except PlanError Binding)) (n : Nat) :
    (source (x :: rest)).answers (pullsOf raised (n + 1)) =
      x.map some :: (source rest).answers (pullsOf raised n) := by
  rw [answers_pullsOf_succ]
  cases x with
  | ok b =>
    rw [pull_of_row rfl]
    rfl
  | error e =>
    rw [pull_of_failed rfl]
    rfl

/-- Every pull of a source counts, also after its end. -/
theorem pullings_source (raised : Bool) (items : List (Except PlanError Binding)) (n : Nat) :
    (source items).pullings (pullsOf raised n) = n := by
  induction n generalizing items with
  | zero => rfl
  | succ n ih =>
    have hpull : ∃ rest, ((source items).pull raised).stage = source rest ∧
        ((source items).pull raised).tally.pulls = 1 := by
      rcases items with _ | ⟨e | b, rest⟩
      · exact ⟨[], by rw [pull_of_finished rfl]; exact ⟨rfl, rfl⟩⟩
      · exact ⟨rest, by rw [pull_of_failed rfl]; exact ⟨rfl, rfl⟩⟩
      · exact ⟨rest, by rw [pull_of_row rfl]; exact ⟨rfl, rfl⟩⟩
    obtain ⟨rest, hstage, hone⟩ := hpull
    rw [pullings_pullsOf_succ, hstage, hone, ih, Nat.add_comm]

end Stage

end SparqlAlgebra
