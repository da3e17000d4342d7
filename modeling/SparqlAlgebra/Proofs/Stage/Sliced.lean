import SparqlAlgebra.Proofs.Rows.Slices
import SparqlAlgebra.Proofs.Stage.Pulls

/-!
Slices pull by pull, over an input that may fail on the way. A failure is passed on and counts
neither as a row left out nor as a row shown, so that only the rows of the input decide when the
slice is complete.
-/

namespace SparqlAlgebra

namespace Stage

open Rows

variable {raised : Bool} {s : Stage} {items : List (Except PlanError Binding)}

/-- Pulled without end, the stage gives these rows and failures and then its end. -/
def Serves (raised : Bool) (s : Stage) (items : List (Except PlanError Binding)) : Prop :=
  s.answers (pullsOf raised (items.length + 1)) = items.map (·.map some) ++ [.ok none]

theorem serves_nil : s.Serves raised [] ↔ (s.pull raised).outcome = .ok none := by
  rw [Serves, List.length_nil, answers_pullsOf_succ]
  exact ⟨fun h => (List.cons.inj h).1, fun h => congrArg ([·]) h⟩

theorem serves_cons {x : Except PlanError Binding} : s.Serves raised (x :: items) ↔
    (s.pull raised).outcome = x.map some ∧ (s.pull raised).stage.Serves raised items := by
  rw [Serves, List.length_cons, answers_pullsOf_succ, List.map_cons, List.cons_append]
  exact List.cons_eq_cons

theorem serves_source (raised : Bool) (items : List (Except PlanError Binding)) :
    (source items).Serves raised items := by
  induction items with
  | nil => exact serves_nil.2 (by rw [pull_of_finished rfl])
  | cons x items ih =>
    have hpull : ((source (x :: items)).pull raised).outcome = x.map some ∧
        ((source (x :: items)).pull raised).stage = source items := by
      cases x with
      | ok b => rw [pull_of_row rfl]; exact ⟨rfl, rfl⟩
      | error e => rw [pull_of_failed rfl]; exact ⟨rfl, rfl⟩
    exact serves_cons.2 ⟨hpull.1, hpull.2 ▸ ih⟩

end Stage

/-- A pull goes by the first step, and goes on after a silent one. -/
theorem Stage.pull_eq (raised : Bool) (s : Stage) (spent : Tally) : s.pull raised spent =
    match (step raised s).signal with
    | .silent => (step raised s).stage.pull raised (spent + (step raised s).tally)
    | .row b => ⟨.ok (some b), (step raised s).stage, spent + (step raised s).tally⟩
    | .finished => ⟨.ok none, (step raised s).stage, spent + (step raised s).tally⟩
    | .failed e => ⟨.error e, (step raised s).stage, spent + (step raised s).tally⟩ := by
  cases hx : (step raised s).signal with
  | silent => exact pull_of_silent hx spent
  | row b => exact pull_of_row hx spent
  | finished => exact pull_of_finished hx spent
  | failed e => exact pull_of_failed hx spent

/-- What a slice makes of a pull of its input, the limit not yet reached. -/
def Pull.sliced (raised : Bool) (skip : Nat) (limit : Option Nat) (p : Pull) : Pull :=
  match p.outcome with
  | .ok (some _) =>
    if 0 < skip then (Stage.slice p.stage (skip - 1) limit).pull raised p.tally
    else if limit = some 1 then
      { p with
        stage := .slice p.stage.close 0 (some 0)
        tally := p.tally + p.stage.closeTally }
    else { p with stage := .slice p.stage 0 (limit.map (· - 1)) }
  | _ => { p with stage := .slice p.stage skip limit }

namespace Stage

open Rows

variable {raised : Bool} {s : Stage} {items : List (Except PlanError Binding)} {e : PlanError}
  {b : Binding} {skip : Nat} {limit : Option Nat}

theorem pull_slice (hz : limit ≠ some 0) (s : Stage) (spent : Tally) :
    (slice s skip limit).pull raised spent = (s.pull raised spent).sliced raised skip limit := by
  -- Silent steps of the input are silent steps of the slice, up to the one that the input shows.
  induction s.ends generalizing spent with
  | intro s _ ih =>
    rw [pull_eq raised (slice s skip limit), step_slice, if_neg hz, Move.slice]
    cases hx : (step raised s).signal with
    | silent =>
      rw [pull_of_silent hx, ← ih _ (progress_silent hx)]
      simp only [Move.within, hx]
    | row b =>
      rw [pull_of_row hx, Pull.sliced]
      by_cases hskip : 0 < skip
      · simp only [if_pos hskip, Move.turn]
        rfl
      · by_cases hone : limit = some 1
        · simp only [if_neg hskip, if_pos hone, Move.turn, Tally.add_assoc]
        · simp only [if_neg hskip, if_neg hone, Move.turn]
          rfl
    | finished =>
      rw [pull_of_finished hx, Pull.sliced]
      simp only [Move.within, hx]
    | failed e =>
      rw [pull_of_failed hx, Pull.sliced]
      simp only [Move.within, hx]

theorem pull_slice_zero (raised : Bool) (s : Stage) (skip : Nat) :
    (slice s skip (some 0)).pull raised = ⟨.ok none, rows [], s.closeTally⟩ := by
  rw [pull_of_finished (by rw [step_slice, if_pos rfl]), step_slice, if_pos rfl, Tally.zero_add]

theorem pull_slice_finished (skip : Nat) (hz : limit ≠ some 0)
    (hx : (s.pull raised).outcome = .ok none) :
    (slice s skip limit).pull raised =
      ⟨.ok none, slice (s.pull raised).stage skip limit, (s.pull raised).tally⟩ := by
  rw [pull_slice hz, Pull.sliced, hx]

theorem pull_slice_failed (skip : Nat) (hz : limit ≠ some 0)
    (hx : (s.pull raised).outcome = .error e) :
    (slice s skip limit).pull raised =
      ⟨.error e, slice (s.pull raised).stage skip limit, (s.pull raised).tally⟩ := by
  rw [pull_slice hz, Pull.sliced, hx]

theorem pull_slice_skipped (hz : limit ≠ some 0) (hx : (s.pull raised).outcome = .ok (some b)) :
    (slice s (skip + 1) limit).pull raised =
      (slice (s.pull raised).stage skip limit).pull raised (s.pull raised).tally := by
  rw [pull_slice hz, Pull.sliced, hx]
  exact if_pos (Nat.succ_pos skip)

theorem pull_slice_last (hx : (s.pull raised).outcome = .ok (some b)) :
    (slice s 0 (some 1)).pull raised =
      ⟨.ok (some b), slice (s.pull raised).stage.close 0 (some 0),
        (s.pull raised).tally + (s.pull raised).stage.closeTally⟩ := by
  rw [pull_slice (by decide), Pull.sliced, hx]
  rfl

theorem pull_slice_shown (hz : limit ≠ some 0) (ho : limit ≠ some 1)
    (hx : (s.pull raised).outcome = .ok (some b)) :
    (slice s 0 limit).pull raised =
      ⟨.ok (some b), slice (s.pull raised).stage 0 (limit.map (· - 1)), (s.pull raised).tally⟩ := by
  rw [pull_slice hz, Pull.sliced, hx]
  simp [ho]

/-- What a slice gives before its end, and how often it pulls its input for that. -/
structure Tracks (raised : Bool) (u s : Stage) (shown : List (Except PlanError Binding))
    (asked : Nat) : Prop where
  serves : u.Serves raised shown
  pullings : u.pullings (pullsOf raised (shown.length + 1)) = s.pullings (pullsOf raised asked)

section Tracks

variable {u v : Stage} {x : Except PlanError Binding} {shown : List (Except PlanError Binding)}
  {n : Nat}

theorem Tracks.ended (ho : (u.pull raised).outcome = .ok none)
    (hpulls : (u.pull raised).tally.pulls = s.pullings (pullsOf raised n)) :
    Tracks raised u s [] n :=
  ⟨serves_nil.2 ho, hpulls⟩

theorem Tracks.passed (ho : (u.pull raised).outcome = x.map some)
    (hpulls : (u.pull raised).tally.pulls = (s.pull raised).tally.pulls)
    (h : Tracks raised (u.pull raised).stage (s.pull raised).stage shown n) :
    Tracks raised u s (x :: shown) (n + 1) := by
  refine ⟨serves_cons.2 ⟨ho, h.serves⟩, ?_⟩
  rw [List.length_cons, pullings_pullsOf_succ, pullings_pullsOf_succ raised s, hpulls,
    h.pullings]

theorem Tracks.skipped (hu : u.pull raised = v.pull raised (s.pull raised).tally)
    (h : Tracks raised v (s.pull raised).stage shown n) : Tracks raised u s shown (n + 1) := by
  obtain ⟨ho, hstage⟩ := pull_spent raised v (s.pull raised).tally
  have hlead : Leads raised u (s.pull raised).tally.pulls v := by
    refine ⟨by rw [hu, ho], by rw [hu, hstage], ?_⟩
    rw [hu, tally_spent, Tally.pulls_add]
  refine ⟨(hlead.answers _).trans h.serves, ?_⟩
  rw [hlead.pullings, h.pullings, pullings_pullsOf_succ]

end Tracks

/-- What a slice gives and how often it asks for it. -/
theorem tracks_slice (h : s.Serves raised items) (skip : Nat) (limit : Option Nat) :
    Tracks raised (slice s skip limit) s (passed skip limit items) (asked skip limit items) := by
  induction skip, limit, items using slice_induction generalizing s with
  | zero =>
    rw [passed_zero, asked_zero]
    exact .ended (by rw [pull_slice_zero]) (by rw [pull_slice_zero]; rfl)
  | @nil skip limit hz =>
    have hpull := pull_slice_finished skip hz (serves_nil.1 h)
    rw [passed_nil, asked_nil hz]
    exact .ended (by rw [hpull]) (by rw [hpull]; rfl)
  | @error skip limit e items hz ih =>
    obtain ⟨hx, hrest⟩ := serves_cons.1 h
    have hpull := pull_slice_failed skip hz hx
    rw [passed_error hz, asked_error hz]
    refine .passed (by rw [hpull]; rfl) (by rw [hpull]) ?_
    rw [hpull]
    exact ih hrest
  | skipped hz ih =>
    obtain ⟨hx, hrest⟩ := serves_cons.1 h
    rw [passed_skipped hz, asked_skipped hz]
    exact (ih hrest).skipped (pull_slice_skipped hz hx)
  | last =>
    obtain ⟨hx, -⟩ := serves_cons.1 h
    have hpull := pull_slice_last hx
    rw [passed_last, asked_last]
    refine .passed (by rw [hpull]; rfl) (by rw [hpull]; rfl) ?_
    rw [hpull]
    exact .ended (by rw [pull_slice_zero]) (by rw [pull_slice_zero]; rfl)
  | shown hz ho ih =>
    obtain ⟨hx, hrest⟩ := serves_cons.1 h
    have hpull := pull_slice_shown hz ho hx
    rw [passed_shown hz ho, asked_shown hz ho]
    refine .passed (by rw [hpull]; rfl) (by rw [hpull]) ?_
    rw [hpull]
    exact ih hrest

/-- A complete slice releases its input in the pull that shows the last row. -/
structure Releases (raised : Bool) (u s : Stage) (shown met : List (Except PlanError Binding)) :
    Prop where
  after : u.after (pullsOf raised shown.length) =
    slice (s.after (pullsOf raised met.length)).close 0 (some 0)
  closings : u.closings (pullsOf raised shown.length) =
    s.closings (pullsOf raised met.length) + (s.after (pullsOf raised met.length)).closes

section Releases

variable {u v : Stage} {x y : Except PlanError Binding}
  {shown met : List (Except PlanError Binding)}

theorem Releases.passed (hcloses : (u.pull raised).tally.closes = (s.pull raised).tally.closes)
    (h : Releases raised (u.pull raised).stage (s.pull raised).stage shown met) :
    Releases raised u s (x :: shown) (y :: met) := by
  refine ⟨h.after, ?_⟩
  calc u.closings (pullsOf raised (shown.length + 1))
      = (u.pull raised).tally.closes +
          (u.pull raised).stage.closings (pullsOf raised shown.length) := rfl
    _ = (s.pull raised).tally.closes +
          ((s.pull raised).stage.closings (pullsOf raised met.length) +
            ((s.pull raised).stage.after (pullsOf raised met.length)).closes) := by
        rw [hcloses, h.closings]
    _ = s.closings (pullsOf raised (met.length + 1)) +
          (s.after (pullsOf raised (met.length + 1))).closes := (Nat.add_assoc _ _ _).symm

theorem Releases.skipped (hu : u.pull raised = v.pull raised (s.pull raised).tally)
    (hshown : shown ≠ []) (h : Releases raised v (s.pull raised).stage shown met) :
    Releases raised u s shown (y :: met) := by
  obtain ⟨x, shown, rfl⟩ := List.exists_cons_of_ne_nil hshown
  obtain ⟨-, hstage⟩ := pull_spent raised v (s.pull raised).tally
  constructor
  · refine Eq.trans ?_ h.after
    show (u.pull raised).stage.after _ = (v.pull raised).stage.after _
    rw [hu, hstage]
  · calc u.closings (pullsOf raised (shown.length + 1))
        = (u.pull raised).tally.closes +
            (u.pull raised).stage.closings (pullsOf raised shown.length) := rfl
      _ = (s.pull raised).tally.closes + v.closings (pullsOf raised (shown.length + 1)) := by
          rw [hu, hstage, tally_spent, Tally.closes_add, Nat.add_assoc]
          rfl
      _ = (s.pull raised).tally.closes +
            ((s.pull raised).stage.closings (pullsOf raised met.length) +
              ((s.pull raised).stage.after (pullsOf raised met.length)).closes) :=
          congrArg (_ + ·) h.closings
      _ = s.closings (pullsOf raised (met.length + 1)) +
            (s.after (pullsOf raised (met.length + 1))).closes := (Nat.add_assoc _ _ _).symm

end Releases

theorem releases_slice (h : s.Serves raised items) (hz : limit ≠ some 0)
    (hc : completes skip limit items = true) :
    Releases raised (slice s skip limit) s (passed skip limit items) (met skip limit items) := by
  induction skip, limit, items using slice_induction generalizing s with
  | zero => exact absurd rfl hz
  | nil hz => rw [completes_nil hz] at hc; cases hc
  | @error skip limit e items _ ih =>
    obtain ⟨hx, hrest⟩ := serves_cons.1 h
    have hpull := pull_slice_failed skip hz hx
    rw [passed_error hz, met_error hz]
    refine .passed (by rw [hpull]) ?_
    rw [hpull]
    exact ih hrest hz hc
  | skipped _ ih =>
    obtain ⟨hx, hrest⟩ := serves_cons.1 h
    rw [completes_skipped hz] at hc
    rw [passed_skipped hz, met_skipped hz]
    exact (ih hrest hz hc).skipped (pull_slice_skipped hz hx) (passed_ne_nil hz hc)
  | last =>
    obtain ⟨hx, -⟩ := serves_cons.1 h
    have hpull := pull_slice_last hx
    rw [passed_last, met_last]
    constructor
    · show ((slice s 0 (some 1)).pull raised).stage = slice (s.pull raised).stage.close 0 (some 0)
      rw [hpull]
    · show ((slice s 0 (some 1)).pull raised).tally.closes + 0 =
        (s.pull raised).tally.closes + 0 + (s.pull raised).stage.closes
      rw [hpull]
      rfl
  | @shown limit b items _ ho ih =>
    obtain ⟨hx, hrest⟩ := serves_cons.1 h
    have hpull := pull_slice_shown hz ho hx
    rw [completes_shown hz ho] at hc
    rw [passed_shown hz ho, met_shown hz ho]
    refine .passed (by rw [hpull]) ?_
    rw [hpull]
    exact ih hrest (by rcases limit with _ | _ | _ | n <;> simp_all) hc

/-- A source is not released by pulls, and can be released after them. -/
theorem closings_source (raised : Bool) (items : List (Except PlanError Binding)) (n : Nat) :
    (source items).closings (pullsOf raised n) = 0 ∧
      ((source items).after (pullsOf raised n)).closes = 1 := by
  induction n generalizing items with
  | zero => exact ⟨rfl, rfl⟩
  | succ n ih =>
    have hpull : ∃ rest, ((source items).pull raised).stage = source rest ∧
        ((source items).pull raised).tally.closes = 0 := by
      rcases items with _ | ⟨e | b, rest⟩
      · exact ⟨[], by rw [pull_of_finished rfl]; exact ⟨rfl, rfl⟩⟩
      · exact ⟨rest, by rw [pull_of_failed rfl]; exact ⟨rfl, rfl⟩⟩
      · exact ⟨rest, by rw [pull_of_row rfl]; exact ⟨rfl, rfl⟩⟩
    obtain ⟨rest, hstage, hzero⟩ := hpull
    show (_ + _) = 0 ∧ (((source items).pull raised).stage.after (pullsOf raised n)).closes = 1
    rw [hstage, hzero, Nat.zero_add]
    exact ih rest

/-- A slice shows the rows in its range and no others. Failures are passed on where they come, up to
the row that makes the slice complete, and do not count. The input is pulled no more often than is
needed to know this, and is released in the pull that shows the last row; over a source, which
counts all its pulls and its release, these are the numbers. -/
theorem slice_exact (h : s.Serves raised items) (skip : Nat) (limit : Option Nat) :
    (slice s skip limit).Serves raised (passed skip limit items) ∧
    okRows (passed skip limit items) = Rows.slice skip limit (okRows items) ∧
    (∀ before rest, items = before ++ rest → completes skip limit before = true →
      passed skip limit items = passed skip limit before) ∧
    (∀ before e rest, items = before ++ .error e :: rest → completes skip limit before = false →
      ∃ tail, passed skip limit items = passed skip limit before ++ .error e :: tail) ∧
    (slice s skip limit).pullings (pullsOf raised ((passed skip limit items).length + 1)) =
      s.pullings (pullsOf raised (asked skip limit items)) ∧
    (∀ l : List Binding, items = l.map .ok → asked skip limit items =
      match limit with
      | some 0 => 0
      | some n => if skip + n ≤ l.length then skip + n else l.length + 1
      | none => l.length + 1) ∧
    (limit ≠ some 0 → completes skip limit items = true →
      (slice s skip limit).after (pullsOf raised (passed skip limit items).length) =
        slice (s.after (pullsOf raised (met skip limit items).length)).close 0 (some 0) ∧
      (slice s skip limit).closings (pullsOf raised (passed skip limit items).length) =
        s.closings (pullsOf raised (met skip limit items).length) +
          (s.after (pullsOf raised (met skip limit items).length)).closes) ∧
    (s = source items →
      (slice s skip limit).pullings (pullsOf raised ((passed skip limit items).length + 1)) =
        asked skip limit items ∧
      (limit ≠ some 0 → completes skip limit items = true →
        (slice s skip limit).closings (pullsOf raised (passed skip limit items).length) = 1)) := by
  have htracks := tracks_slice h skip limit
  refine ⟨htracks.serves, okRows_passed skip limit items, ?_, ?_, htracks.pullings, ?_,
    fun hz hc => ?_, ?_⟩
  · rintro before rest rfl hc
    exact passed_append_of_completes hc rest
  · rintro before e rest rfl hc
    exact passed_append_error hc e rest
  · rintro l rfl
    exact asked_rows skip limit l
  · have hreleases := releases_slice h hz hc
    exact ⟨hreleases.after, hreleases.closings⟩
  · rintro rfl
    refine ⟨htracks.pullings.trans (pullings_source ..), fun hz hc => ?_⟩
    obtain ⟨hnone, hone⟩ := closings_source raised items (met skip limit items).length
    rw [(releases_slice h hz hc).closings, hnone, hone]

/-- A failure among the rows left out and one behind the last row. -/
theorem slice_exact_source :
    let row (s : String) : Except PlanError Binding := .ok (.single ⟨"x"⟩ (.iri s))
    let items := [row "a", .error .cancelled, row "b", row "c", .error .cancelled, row "d"]
    (source items).Serves false items ∧
      (slice (source items) 1 (some 2)).answers (pullsOf false 4) =
        [.error .cancelled, (row "b").map some, (row "c").map some, .ok none] ∧
      (slice (source items) 1 (some 2)).pullings (pullsOf false 4) = 4 ∧
      (slice (source items) 1 (some 2)).closings (pullsOf false 3) = 1 := by
  intro row items
  have hserves := serves_source false items
  have hpassed : passed 1 (some 2) items = [.error .cancelled, row "b", row "c"] := rfl
  obtain ⟨hslice, -, -, -, -, -, -, hsource⟩ := slice_exact hserves 1 (some 2)
  obtain ⟨hpullings, hclosings⟩ := hsource rfl
  have hclosings := hclosings (by decide) (by decide)
  rw [hpassed] at hslice hpullings hclosings
  exact ⟨hserves, hslice, hpullings, hclosings⟩

end Stage

end SparqlAlgebra
