import SparqlAlgebra.Proofs.Stage.Build
import SparqlAlgebra.Proofs.Stage.Yields

/-!
The transcript of a run: the rows that it shows, and the failure that it stops at unless it comes to
its end. For each kind of stage the transcript is computed from the transcripts of the stages below
it. A plan is read from the leaves up in this way, and also where it breaks off.
-/

namespace SparqlAlgebra

/-- The rows that a run shows before its end, or before the failure that it stops at. -/
structure Transcript where
  rows : List Binding
  error : Option PlanError := none

namespace Transcript

def failure (e : PlanError) : Transcript := { rows := [], error := some e }

def cons (b : Binding) (x : Transcript) : Transcript := { x with rows := b :: x.rows }

/-- One run after another; nothing follows a failure. -/
def andThen (x y : Transcript) : Transcript :=
  match x.error with
  | none => { y with rows := x.rows ++ y.rows }
  | some _ => x

/-- All runs one after the other. -/
def concat (l : List Transcript) : Transcript := l.foldr andThen { rows := [] }

/-- A run for each row, one after the other, and what comes behind the rows. -/
def forEach (f : Binding → Transcript) (x : Transcript) : Transcript :=
  x.rows.foldr (fun b rest => (f b).andThen rest) { rows := [], error := x.error }

/-- What becomes of a run that is read as a whole, from its rows or from its failure. -/
def settled (f : List Binding → Transcript) (g : PlanError → Transcript) (x : Transcript) :
    Transcript :=
  match x.error with
  | none => f x.rows
  | some e => g e

/-- The same run with other rows. -/
def through (f : List Binding → List Binding) (x : Transcript) : Transcript :=
  { x with rows := f x.rows }

/-- The rows in another arrangement, which takes all of them. -/
def arranged (f : List Binding → List Binding) (x : Transcript) : Transcript :=
  x.settled (fun l => { rows := f l }) failure

/-- The rows of a left side against all rows of a right side, which is read when the first left row
has come. -/
def paired (f : Binding → List Binding → List Binding) (x y : Transcript) : Transcript :=
  if x.rows = [] then x else y.settled (fun r => x.through (·.flatMap (f · r))) failure

/-- A run that is given up for the row itself when it has no rows. -/
def orElse (b : Binding) (x : Transcript) : Transcript :=
  if x.rows = [] ∧ x.error = none then { rows := [b] } else x

/-- A run whose rows count only if it comes to its end; any failure but a cancellation leaves the
row itself. -/
def silenced (b : Binding) (x : Transcript) : Transcript :=
  x.settled (fun l => { rows := l }) fun
    | .cancelled => failure .cancelled
    | _ => { rows := [b] }

/-- The rows of a run that came to its end, or why it did not. -/
def result (x : Transcript) : Except PlanError (List Binding) :=
  match x.error with
  | none => .ok x.rows
  | some e => .error e

/-- The run of a plan, if it gets compiled. -/
def ofPlan : Except PlanError Transcript → Transcript
  | .ok x => x
  | .error e => failure e

/-- What a procedure replies to the rows after those that it was asked earlier. -/
def replies (p : Procedure) (o : Option PlanError) : List Binding → List Binding → Transcript
  | _, [] => { rows := [], error := o }
  | earlier, b :: rest =>
    (ofPlan ((p.answer earlier b).map fun l => { rows := l })).andThen
      (replies p o (earlier ++ [b]) rest)

def replied (p : Procedure) (earlier : List Binding) (x : Transcript) : Transcript :=
  replies p x.error earlier x.rows

/-- A part of the rows. What comes behind the last of them does not show. -/
def sliced (skip : Nat) (limit : Option Nat) (x : Transcript) : Transcript where
  rows := Rows.slice skip limit x.rows
  error := if limit.any fun n => n = 0 || skip + n ≤ x.rows.length then none else x.error

@[simp] theorem cons_rows (b : Binding) (x : Transcript) : (x.cons b).rows = b :: x.rows := rfl

@[simp] theorem cons_error (b : Binding) (x : Transcript) : (x.cons b).error = x.error := rfl

@[simp] theorem nil_andThen (x : Transcript) : andThen { rows := [] } x = x := rfl

@[simp] theorem failure_andThen (e : PlanError) (x : Transcript) :
    (failure e).andThen x = failure e := rfl

theorem cons_andThen (b : Binding) (x y : Transcript) :
    (x.cons b).andThen y = (x.andThen y).cons b := by
  obtain ⟨l, o⟩ := x
  cases o <;> rfl

theorem andThen_nil (x : Transcript) : x.andThen { rows := [] } = x := by
  obtain ⟨l, o⟩ := x
  cases o with
  | none => exact congrArg (Transcript.mk · none) (List.append_nil l)
  | some e => rfl

theorem andThen_assoc (x y z : Transcript) :
    (x.andThen y).andThen z = x.andThen (y.andThen z) := by
  obtain ⟨l, o⟩ := x
  obtain ⟨k, p⟩ := y
  cases o with
  | none =>
    cases p with
    | none => exact congrArg (Transcript.mk · z.error) (List.append_assoc l k z.rows)
    | some e => rfl
  | some e => rfl

theorem concat_cons (x : Transcript) (l : List Transcript) :
    concat (x :: l) = x.andThen (concat l) := rfl

theorem concat_append (k l : List Transcript) :
    concat (k ++ l) = (concat k).andThen (concat l) := by
  induction k with
  | nil => rfl
  | cons x k ih =>
    rw [List.cons_append, concat, List.foldr_cons, ← concat, ih, ← andThen_assoc]
    rfl

theorem forEach_cons (f : Binding → Transcript) (b : Binding) (x : Transcript) :
    (x.cons b).forEach f = (f b).andThen (x.forEach f) := rfl

theorem forEach_singleton (f : Binding → Transcript) (b : Binding) :
    forEach f { rows := [b] } = f b := andThen_nil (f b)

theorem forEach_rows (f : Binding → List Binding) (x : Transcript) :
    (x.forEach fun b => { rows := f b }) = x.through (·.flatMap f) := by
  obtain ⟨l, o⟩ := x
  induction l with
  | nil => rfl
  | cons b l ih =>
    have hrest : forEach (fun b => { rows := f b }) (cons b ⟨l, o⟩) =
        andThen { rows := f b } (through (·.flatMap f) ⟨l, o⟩) := by
      rw [forEach_cons, ih]
    exact hrest

theorem replied_cons (p : Procedure) (earlier : List Binding) (b : Binding) (x : Transcript) :
    (x.cons b).replied p earlier =
      (ofPlan ((p.answer earlier b).map fun l => { rows := l })).andThen
        (x.replied p (earlier ++ [b])) := rfl

theorem silenced_andThen (b : Binding) (x y : Transcript) :
    (x.silenced b).andThen y = x.settled (fun l => andThen { rows := l } y) fun
      | .cancelled => failure .cancelled
      | _ => andThen { rows := [b] } y := by
  obtain ⟨l, o⟩ := x
  cases o with
  | none => rfl
  | some e => cases e <;> rfl

theorem orElse_cons (b c : Binding) (x : Transcript) : (x.cons c).orElse b = x.cons c :=
  if_neg fun h => List.cons_ne_nil c x.rows h.1

theorem orElse_failure (b : Binding) (e : PlanError) : (failure e).orElse b = failure e :=
  if_neg fun h => nomatch h.2

theorem paired_cons (f : Binding → List Binding → List Binding) (b : Binding) (x y : Transcript) :
    (x.cons b).paired f y =
      y.settled (fun r => andThen { rows := f b r } (x.through (·.flatMap (f · r)))) failure :=
  if_neg (List.cons_ne_nil b x.rows)

/-- Pairing with rows that are there is joining with them. -/
theorem paired_inner (fs : Functions) (x : Transcript) (r : List Binding) :
    x.paired (Pairing.inner.combine fs) { rows := r } = x.through (Rows.join · r) := by
  unfold paired
  split
  · rename_i hrows
    obtain ⟨rows, error⟩ := x
    cases hrows
    rfl
  · rfl

theorem sliced_zero (skip : Nat) (x : Transcript) : x.sliced skip (some 0) = { rows := [] } := by
  simp [sliced, Rows.slice]

theorem sliced_nil (skip : Nat) (limit : Option Nat) :
    sliced skip limit { rows := [] } = { rows := [] } := by
  cases limit <;> simp [sliced, Rows.slice]

theorem sliced_failure (skip : Nat) {limit : Option Nat} (hz : limit ≠ some 0) (e : PlanError) :
    (failure e).sliced skip limit = failure e := by
  cases limit with
  | none => simp [sliced, Rows.slice, failure]
  | some n =>
    have hn : n ≠ 0 := fun h => hz (congrArg some h)
    simp [sliced, Rows.slice, failure, hn]

theorem sliced_succ (skip : Nat) (limit : Option Nat) (b : Binding) (x : Transcript) :
    (x.cons b).sliced (skip + 1) limit = x.sliced skip limit := by
  cases limit with
  | none => rfl
  | some n =>
    have hn : skip + 1 + n ≤ x.rows.length + 1 ↔ skip + n ≤ x.rows.length := by omega
    simp [sliced, Rows.slice, hn]

theorem sliced_unlimited (b : Binding) (x : Transcript) :
    (x.cons b).sliced 0 none = (x.sliced 0 none).cons b := rfl

theorem sliced_limited (n : Nat) (b : Binding) (x : Transcript) :
    (x.cons b).sliced 0 (some (n + 1)) = (x.sliced 0 (some n)).cons b := by
  have hn : n + 1 ≤ x.rows.length + 1 ↔ n = 0 ∨ n ≤ x.rows.length := by omega
  simp [sliced, Rows.slice, cons, hn]

end Transcript

open Transcript

namespace Stage

/-- What running the stage shows. -/
def transcript (raised : Bool) (s : Stage) : Transcript where
  rows := (s.run raised).rows
  error := (s.run raised).error

variable {raised : Bool} {s t : Stage}

theorem emits_transcript (raised : Bool) (s : Stage) :
    Emits raised s (s.transcript raised).rows (s.transcript raised).error := by
  obtain ⟨l, o, h⟩ := exists_emits raised s
  obtain ⟨hl, ho⟩ := h.run [] {}
  unfold transcript
  rw [hl, ho]
  exact h

theorem Emits.transcript {l : List Binding} {o : Option PlanError} (h : Emits raised s l o) :
    s.transcript raised = ⟨l, o⟩ := by
  obtain ⟨hl, ho⟩ := h.run [] {}
  rw [Stage.transcript, hl, ho]
  rfl

theorem transcript_of_finished (h : Shows raised s .finished t) :
    s.transcript raised = { rows := [] } := (Emits.finished h).transcript

theorem transcript_of_failed {e : PlanError} (h : Shows raised s (.failed e) t) :
    s.transcript raised = failure e := (Emits.failed h).transcript

theorem transcript_of_silent (h : Shows raised s .silent t) :
    s.transcript raised = t.transcript raised :=
  (Emits.silent h (emits_transcript raised t)).transcript

theorem transcript_of_row {b : Binding} (h : Shows raised s (.row b) t) :
    s.transcript raised = (t.transcript raised).cons b :=
  (Emits.row h (emits_transcript raised t)).transcript

@[simp] theorem transcript_rows (raised : Bool) (l : List Binding) :
    (rows l).transcript raised = { rows := l } := (emits_rows l).transcript

@[simp] theorem transcript_root (raised : Bool) : root.transcript raised = { rows := [∅] } :=
  emits_root.transcript

theorem transcript_gathered (input : Stage) (l : List Binding) :
    (gathered input l).transcript raised = { rows := l } := (emits_gathered input l).transcript

/-- Induction along a run, from what the stage shows next. -/
@[elab_as_elim] theorem run_induction {P : Stage → Prop} (raised : Bool)
    (finished : ∀ {s t}, Shows raised s .finished t → P s)
    (failed : ∀ {s t e}, Shows raised s (.failed e) t → P s)
    (silent : ∀ {s t}, Shows raised s .silent t → P t → P s)
    (row : ∀ {s t b}, Shows raised s (.row b) t → P t → P s) (s : Stage) : P s := by
  obtain ⟨l, o, h⟩ := exists_emits raised s
  induction h with
  | finished h => exact finished h
  | failed h => exact failed h
  | silent h _ ih => exact silent h ih
  | row h _ ih => exact row h ih

section Around

variable {w : Stage → Stage}

/-- What passes on all that an input shows, and goes on elsewhere when the input has ended. -/
theorem transcript_followed {rest : Stage}
    (hw : ∀ {s t x}, x ≠ .finished → Shows raised s x t → Shows raised (w s) x (w t))
    (hend : ∀ {s t}, Shows raised s .finished t → Shows raised (w s) .silent rest) (s : Stage) :
    (w s).transcript raised = (s.transcript raised).andThen (rest.transcript raised) := by
  induction s using run_induction raised with
  | finished h => rw [transcript_of_silent (hend h), transcript_of_finished h, nil_andThen]
  | failed h => rw [transcript_of_failed (hw nofun h), transcript_of_failed h, failure_andThen]
  | silent h ih => rw [transcript_of_silent (hw nofun h), transcript_of_silent h, ih]
  | row h ih => rw [transcript_of_row (hw nofun h), transcript_of_row h, ih, cons_andThen]

/-- What collects the rows of an input, the last one first, and shows nothing before it has all. -/
theorem transcript_collected {w : List Binding → Stage → Stage} {f : List Binding → Transcript}
    {g : PlanError → Transcript}
    (hsilent : ∀ {acc s t}, Shows raised s .silent t → Shows raised (w acc s) .silent (w acc t))
    (hrow : ∀ {acc s t b}, Shows raised s (.row b) t →
      Shows raised (w acc s) .silent (w (b :: acc) t))
    (hend : ∀ {acc s t}, Shows raised s .finished t → (w acc s).transcript raised = f acc.reverse)
    (hfailed : ∀ {acc s t e}, Shows raised s (.failed e) t → (w acc s).transcript raised = g e)
    (acc : List Binding) (s : Stage) :
    (w acc s).transcript raised =
      (s.transcript raised).settled (fun l => f (acc.reverse ++ l)) g := by
  induction s using run_induction raised generalizing acc with
  | finished h =>
    rw [hend h, transcript_of_finished h, settled]
    exact congrArg f (List.append_nil _).symm
  | failed h =>
    rw [hfailed h, transcript_of_failed h]
    rfl
  | silent h ih => rw [transcript_of_silent (hsilent h), transcript_of_silent h, ih]
  | @row s t b h ih =>
    have hacc (l : List Binding) : (b :: acc).reverse ++ l = acc.reverse ++ b :: l := by
      rw [List.reverse_cons, List.append_assoc, List.singleton_append]
    rw [transcript_of_silent (hrow h), transcript_of_row h, ih]
    simp only [hacc]
    rfl

/-- What stands around an input and makes a run of each of its rows. -/
theorem transcript_around (hw : Passes raised w) {f : Binding → Transcript}
    (hrow : ∀ {s t b}, Shows raised s (.row b) t →
      (w s).transcript raised = (f b).andThen ((w t).transcript raised)) (s : Stage) :
    (w s).transcript raised = (s.transcript raised).forEach f := by
  induction s using run_induction raised with
  | finished h =>
    rw [transcript_of_finished (hw nofun h), transcript_of_finished h]
    rfl
  | failed h =>
    rw [transcript_of_failed (hw nofun h), transcript_of_failed h]
    rfl
  | silent h ih => rw [transcript_of_silent (hw nofun h), transcript_of_silent h, ih]
  | row h ih => rw [hrow h, transcript_of_row h, ih, forEach_cons]

end Around

end Stage

/-- What the run of a compiled stage shows, unless the compilation fails. -/
def Compiled.transcript (raised : Bool) (c : Compiled) : Except PlanError Transcript :=
  c.result.map (·.transcript raised)

/-- What an operator shows that waited to be compiled. -/
def Seeded.transcript (raised : Bool) (p : Seeded) : Transcript :=
  ofPlan ((compile p.ctx p.op (.rows [p.seed])).transcript raised)

namespace Expanded

/-- Whether a stage that is held back is not stopped while it is. -/
def Unstopped (raised : Bool) : Expanded → Prop
  | hold ctx _ => ctx.stopped raised = false
  | _ => True

/-- What the row `b` adds to a run, expanded to this. -/
def transcript (raised : Bool) (b : Binding) : Expanded → Transcript
  | flow s => s.transcript raised
  | hold _ s => (s.transcript raised).silenced b
  | failed e => failure e

end Expanded

namespace Stage

variable {raised : Bool} {s t : Stage}

section Each

variable {rule : Expansion} {input : Stage}

theorem transcript_eachOf (rule : Expansion) (input s : Stage) :
    (eachOf rule input s).transcript raised =
      (s.transcript raised).andThen ((each rule input).transcript raised) := by
  apply transcript_followed (w := eachOf rule input)
  · intro s t x hx h
    cases x with
    | finished => exact (hx rfl).elim
    | _ => simp [Shows, step_eachOf, Move.eachOf, Move.within, h.1, h.2]
  · intro s t h
    simp [Shows, step_eachOf, Move.eachOf, Move.turn, h.1]

theorem transcript_eachHeld {ctx : Context} (hw : ctx.stopped raised = false) (b : Binding)
    (s : Stage) :
    (eachHeld rule ctx input b s []).transcript raised =
      ((s.transcript raised).silenced b).andThen ((each rule input).transcript raised) := by
  rw [silenced_andThen]
  apply transcript_collected (w := fun acc s => eachHeld rule ctx input b s acc)
    (f := fun l => andThen { rows := l } ((each rule input).transcript raised)) _ _ _ _ [] s
  · intro acc s t h
    simp [Shows, step_eachHeld, hw, Move.eachHeld, Move.within, h.1, h.2]
  · intro acc s t c h
    simp [Shows, step_eachHeld, hw, Move.eachHeld, Move.turn, h.1, h.2]
  · intro acc s t h
    have hs : Shows raised (eachHeld rule ctx input b s acc) .silent
        (eachOf rule input (rows acc.reverse)) := by
      simp [Shows, step_eachHeld, hw, Move.eachHeld, Move.turn, h.1]
    rw [transcript_of_silent hs, transcript_eachOf, transcript_rows]
  · intro acc s t e h
    cases e with
    | cancelled =>
      have hs : Shows raised (eachHeld rule ctx input b s acc) (.failed .cancelled)
          (each rule input) := by
        simp [Shows, step_eachHeld, hw, Move.eachHeld, Move.turn, h.1]
      exact transcript_of_failed hs
    | _ =>
      have hs : Shows raised (eachHeld rule ctx input b s acc) .silent
          (eachOf rule input (rows [b])) := by
        simp [Shows, step_eachHeld, hw, Move.eachHeld, Move.turn, h.1]
      rw [transcript_of_silent hs, transcript_eachOf, transcript_rows]

theorem transcript_each_row {s t : Stage} {b : Binding}
    (hx : ((rule.expand b).1).Unstopped raised) (h : Shows raised s (.row b) t) :
    (each rule s).transcript raised =
      ((rule.expand b).1.transcript raised b).andThen
        ((each (rule.after b) t).transcript raised) := by
  rcases he : rule.expand b with ⟨x, cost⟩
  rw [he] at hx
  cases x with
  | flow u =>
    have hs : Shows raised (each rule s) .silent (eachOf (rule.after b) t u) := by
      simp [Shows, step_each, Move.each, Move.turn, h.1, h.2, he]
    rw [transcript_of_silent hs, transcript_eachOf, Expanded.transcript]
  | hold c u =>
    have hs : Shows raised (each rule s) .silent (eachHeld (rule.after b) c t b u []) := by
      simp [Shows, step_each, Move.each, Move.turn, h.1, h.2, he]
    rw [transcript_of_silent hs, transcript_eachHeld hx, Expanded.transcript]
  | failed e =>
    have hs : Shows raised (each rule s) (.failed e) (each (rule.after b) t) := by
      simp [Shows, step_each, Move.each, Move.turn, h.1, h.2, he]
    rw [transcript_of_failed hs, Expanded.transcript, failure_andThen]

/-- A rule without memory makes a run of each row. -/
theorem transcript_each (hr : ∀ b, rule.after b = rule)
    (hx : ∀ b, ((rule.expand b).1).Unstopped raised) (s : Stage) :
    (each rule s).transcript raised =
      (s.transcript raised).forEach fun b => (rule.expand b).1.transcript raised b := by
  apply transcript_around (passes_each rule) _ s
  intro s t b h
  rw [transcript_each_row (hx b) h, hr]

theorem transcript_procedure (p : Procedure) (earlier : List Binding) (s : Stage) :
    (each (.procedure p earlier) s).transcript raised =
      (s.transcript raised).replied p earlier := by
  induction s using run_induction raised generalizing earlier with
  | finished h =>
    rw [transcript_of_finished (passes_each _ nofun h), transcript_of_finished h]
    rfl
  | failed h =>
    rw [transcript_of_failed (passes_each _ nofun h), transcript_of_failed h]
    rfl
  | silent h ih => rw [transcript_of_silent (passes_each _ nofun h), transcript_of_silent h, ih]
  | @row s t b h ih =>
    rw [transcript_of_row h, replied_cons, ← ih]
    cases ha : p.answer earlier b with
    | ok l =>
      have hx : (Expansion.procedure p earlier).expand b = (.flow (rows l), {}) :=
        Expansion.expand_procedure_ok ha
      have hu : ((Expansion.procedure p earlier).expand b).1.Unstopped raised := by
        rw [hx]
        trivial
      rw [transcript_each_row hu h, hx, Expanded.transcript, transcript_rows]
      rfl
    | error e =>
      have hx : (Expansion.procedure p earlier).expand b = (.failed e, {}) :=
        Expansion.expand_procedure_error ha
      have hu : ((Expansion.procedure p earlier).expand b).1.Unstopped raised := by
        rw [hx]
        trivial
      rw [transcript_each_row hu h, hx, Expanded.transcript]
      rfl

end Each

section Chain

variable {pending : List Seeded}

theorem transcript_chainOf (pending : List Seeded) (s : Stage) :
    (chainOf pending s).transcript raised =
      (s.transcript raised).andThen ((chain pending).transcript raised) := by
  apply transcript_followed (w := chainOf pending)
  · intro s t x hx h
    cases x with
    | finished => exact (hx rfl).elim
    | _ => simp [Shows, step_chainOf, Move.chainOf, Move.within, h.1, h.2]
  · intro s t h
    simp [Shows, step_chainOf, Move.chainOf, Move.turn, h.1]

/-- Waiting operators are run one after the other. -/
theorem transcript_chain (raised : Bool) (pending : List Seeded) :
    (chain pending).transcript raised = concat (pending.map (·.transcript raised)) := by
  induction pending with
  | nil => exact transcript_of_finished ⟨rfl, rfl⟩
  | cons p pending ih =>
    rw [List.map_cons, concat_cons, ← ih, Seeded.transcript]
    cases hc : (compile p.ctx p.op (rows [p.seed])).result with
    | ok s =>
      have hs : Shows raised (chain (p :: pending)) .silent (chainOf pending s) := by
        simp [Shows, step_chain_ok raised pending hc]
      rw [transcript_of_silent hs, transcript_chainOf, Compiled.transcript, hc]
      rfl
    | error e =>
      have hs : Shows raised (chain (p :: pending)) (.failed e) (chain pending) := by
        simp [Shows, step_chain_error raised pending hc]
      rw [transcript_of_failed hs, Compiled.transcript, hc]
      rfl

end Chain

section Pair

variable {rule : Pairing} {ctx : Context} {left right : Stage}

theorem transcript_pair_queue (loaded : Option (List Binding)) (queue : List Binding) :
    (pair rule ctx left right loaded queue).transcript raised =
      andThen { rows := queue } ((pair rule ctx left right loaded []).transcript raised) := by
  induction queue with
  | nil => rfl
  | cons b queue ih =>
    have hs : Shows raised (pair rule ctx left right loaded (b :: queue)) (.row b)
        (pair rule ctx left right loaded queue) := ⟨rfl, rfl⟩
    rw [transcript_of_row hs, ih]
    rfl

theorem transcript_pair_loaded (right : Stage) (r : List Binding) (s : Stage) :
    (pair rule ctx s right (some r) []).transcript raised =
      (s.transcript raised).through (·.flatMap (rule.combine ctx.functions · r)) := by
  rw [← forEach_rows]
  apply transcript_around (passes_pair right (some r)) _ s
  intro s t b h
  have hs : Shows raised (pair rule ctx s right (some r) []) .silent
      (pair rule ctx t right (some r) (rule.combine ctx.functions b r)) := by
    simp [Shows, step_pair_nil, Move.pair, Move.turn, h.1, h.2]
  rw [transcript_of_silent hs, transcript_pair_queue]

theorem transcript_pairLoad (hw : ctx.stopped raised = false) (b : Binding) (s : Stage) :
    (pairLoad rule ctx left s b []).transcript raised =
      (s.transcript raised).settled (fun r => andThen { rows := rule.combine ctx.functions b r }
        ((left.transcript raised).through (·.flatMap (rule.combine ctx.functions · r)))) failure := by
  apply transcript_collected (w := fun acc s => pairLoad rule ctx left s b acc)
    (f := fun r => andThen { rows := rule.combine ctx.functions b r }
      ((left.transcript raised).through (·.flatMap (rule.combine ctx.functions · r)))) _ _ _ _ [] s
  · intro acc s t h
    simp [Shows, step_pairLoad, hw, Move.pairLoad, Move.within, h.1, h.2]
  · intro acc s t c h
    simp [Shows, step_pairLoad, hw, Move.pairLoad, Move.turn, h.1, h.2]
  · intro acc s t h
    have hs : Shows raised (pairLoad rule ctx left s b acc) .silent
        (pair rule ctx left t.close (some acc.reverse)
          (rule.combine ctx.functions b acc.reverse)) := by
      simp [Shows, step_pairLoad, hw, Move.pairLoad, Move.turn, h.1, h.2]
    rw [transcript_of_silent hs, transcript_pair_queue, transcript_pair_loaded]
  · intro acc s t e h
    have hs : Shows raised (pairLoad rule ctx left s b acc) (.failed e)
        (pair rule ctx left t.close none []) := by
      simp [Shows, step_pairLoad, hw, Move.pairLoad, Move.turn, h.1, h.2]
    exact transcript_of_failed hs

theorem transcript_pair (hw : ctx.stopped raised = false) (right s : Stage) :
    (pair rule ctx s right none []).transcript raised =
      (s.transcript raised).paired (rule.combine ctx.functions) (right.transcript raised) := by
  induction s using run_induction raised with
  | finished h =>
    rw [transcript_of_finished (passes_pair right none nofun h), transcript_of_finished h]
    rfl
  | failed h =>
    rw [transcript_of_failed (passes_pair right none nofun h), transcript_of_failed h]
    rfl
  | silent h ih =>
    rw [transcript_of_silent (passes_pair right none nofun h), transcript_of_silent h, ih]
  | @row s t b h _ =>
    have hs : Shows raised (pair rule ctx s right none []) .silent
        (pairLoad rule ctx t right b []) := by
      simp [Shows, step_pair_nil, Move.pair, Move.turn, h.1, h.2]
    rw [transcript_of_silent hs, transcript_pairLoad hw, transcript_of_row h, paired_cons]

end Pair

section Optional

variable {part : Op} {ctx : Context} {left : Stage}

/-- Once a row of the optional part has been passed on, the seed no longer follows. -/
theorem transcript_optionalOf_found (seed : Binding) (s : Stage) :
    (optionalOf part ctx left seed s true).transcript raised =
      (s.transcript raised).andThen ((optional part ctx left).transcript raised) := by
  apply transcript_followed (w := fun s => optionalOf part ctx left seed s true)
  · intro s t x hx h
    cases x with
    | finished => exact (hx rfl).elim
    | _ => simp [Shows, step_optionalOf, Move.optionalOf, Move.within, h.1, h.2]
  · intro s t h
    simp [Shows, step_optionalOf, Move.optionalOf, Move.turn, h.1]

theorem transcript_optionalOf (seed : Binding) (s : Stage) :
    (optionalOf part ctx left seed s false).transcript raised =
      ((s.transcript raised).orElse seed).andThen ((optional part ctx left).transcript raised) := by
  induction s using run_induction raised with
  | @finished s t h =>
    have hs : Shows raised (optionalOf part ctx left seed s false) (.row seed)
        (optional part ctx left) := by
      simp [Shows, step_optionalOf, Move.optionalOf, Move.turn, h.1]
    rw [transcript_of_row hs, transcript_of_finished h]
    rfl
  | @failed s t e h =>
    have hs : Shows raised (optionalOf part ctx left seed s false) (.failed e)
        (optionalOf part ctx left seed t false) := by
      simp [Shows, step_optionalOf, Move.optionalOf, Move.within, h.1, h.2]
    rw [transcript_of_failed hs, transcript_of_failed h, orElse_failure, failure_andThen]
  | @silent s t h ih =>
    have hs : Shows raised (optionalOf part ctx left seed s false) .silent
        (optionalOf part ctx left seed t false) := by
      simp [Shows, step_optionalOf, Move.optionalOf, Move.within, h.1, h.2]
    rw [transcript_of_silent hs, transcript_of_silent h, ih]
  | @row s t b h _ =>
    have hs : Shows raised (optionalOf part ctx left seed s false) (.row b)
        (optionalOf part ctx left seed t true) := by
      simp [Shows, step_optionalOf, Move.optionalOf, Move.within, h.1, h.2]
    rw [transcript_of_row hs, transcript_of_row h, transcript_optionalOf_found, orElse_cons,
      cons_andThen]

theorem transcript_optional (part : Op) (ctx : Context) (s : Stage) :
    (optional part ctx s).transcript raised =
      (s.transcript raised).forEach fun b =>
        (ofPlan ((compile ctx part (rows [b])).transcript raised)).orElse b := by
  apply transcript_around (passes_optional part ctx) _ s
  intro s t b h
  cases hc : (compile ctx part (rows [b])).result with
  | ok u =>
    have hs : Shows raised (optional part ctx s) .silent (optionalOf part ctx t b u false) := by
      simp [Shows, step_optional, Move.optional, Move.turn, h.1, h.2, hc]
    rw [transcript_of_silent hs, transcript_optionalOf, Compiled.transcript, hc]
    rfl
  | error e =>
    have hs : Shows raised (optional part ctx s) (.failed e) (optional part ctx t) := by
      simp [Shows, step_optional, Move.optional, Move.turn, h.1, h.2, hc]
    rw [transcript_of_failed hs, Compiled.transcript, hc]
    exact (orElse_failure b e).symm ▸ rfl

end Optional

theorem transcript_gather {ctx : Context} (hw : ctx.stopped raised = false) (rule : Gathering)
    (s : Stage) :
    (gather rule ctx s []).transcript raised =
      (s.transcript raised).arranged fun l => rule.arrange ctx.functions l := by
  apply transcript_collected (w := fun acc s => gather rule ctx s acc)
    (f := fun l => { rows := rule.arrange ctx.functions l }) _ _ _ _ [] s
  · intro acc s t h
    simp [Shows, step_gather, hw, Move.gather, Move.within, h.1, h.2]
  · intro acc s t b h
    simp [Shows, step_gather, hw, Move.gather, Move.turn, h.1, h.2]
  · intro acc s t h
    have hs : Shows raised (gather rule ctx s acc) .silent
        (gathered t.close (rule.arrange ctx.functions acc.reverse)) := by
      simp [Shows, step_gather, hw, Move.gather, Move.turn, h.1, h.2]
    rw [transcript_of_silent hs, transcript_gathered]
  · intro acc s t e h
    have hs : Shows raised (gather rule ctx s acc) (.failed e) (gather rule ctx t.close []) := by
      simp [Shows, step_gather, hw, Move.gather, Move.turn, h.1, h.2]
    exact transcript_of_failed hs

theorem transcript_slice (skip : Nat) (limit : Option Nat) (s : Stage) :
    (slice s skip limit).transcript raised = (s.transcript raised).sliced skip limit := by
  -- A slice of no rows ends without a look at its input.
  have hzero (skip : Nat) (s : Stage) :
      (slice s skip (some 0)).transcript raised = (s.transcript raised).sliced skip (some 0) := by
    rw [sliced_zero]
    exact (emits_slice_zero s skip).transcript
  by_cases hz : limit = some 0
  · exact hz ▸ hzero skip s
  induction s using run_induction raised generalizing skip limit with
  | @finished s t h =>
    have hs : Shows raised (slice s skip limit) .finished (slice t skip limit) := by
      simp [Shows, step_slice, hz, Move.slice, Move.within, h.1, h.2]
    rw [transcript_of_finished hs, transcript_of_finished h, sliced_nil]
  | @failed s t e h =>
    have hs : Shows raised (slice s skip limit) (.failed e) (slice t skip limit) := by
      simp [Shows, step_slice, hz, Move.slice, Move.within, h.1, h.2]
    rw [transcript_of_failed hs, transcript_of_failed h, sliced_failure skip hz]
  | @silent s t h ih =>
    have hs : Shows raised (slice s skip limit) .silent (slice t skip limit) := by
      simp [Shows, step_slice, hz, Move.slice, Move.within, h.1, h.2]
    rw [transcript_of_silent hs, transcript_of_silent h, ih _ _ hz]
  | @row s t b h ih =>
    rw [transcript_of_row h]
    cases skip with
    | succ skip =>
      -- The row is dropped.
      have hs : Shows raised (slice s (skip + 1) limit) .silent (slice t skip limit) := by
        simp [Shows, step_slice, hz, Move.slice, Move.turn, h.1, h.2]
      rw [transcript_of_silent hs, ih _ _ hz, sliced_succ]
    | zero =>
      rcases limit with _ | _ | _ | limit
      · have hs : Shows raised (slice s 0 none) (.row b) (slice t 0 none) := by
          simp [Shows, step_slice, Move.slice, Move.turn, h.1, h.2]
        rw [transcript_of_row hs, ih _ _ hz, sliced_unlimited]
      · exact (hz rfl).elim
      · -- The last row closes the input.
        have hs : Shows raised (slice s 0 (some 1)) (.row b) (slice t.close 0 (some 0)) := by
          simp [Shows, step_slice, Move.slice, Move.turn, h.1, h.2]
        rw [transcript_of_row hs, hzero, sliced_zero, sliced_limited, sliced_zero]
      · have hs : Shows raised (slice s 0 (some (limit + 2))) (.row b)
            (slice t 0 (some (limit + 1))) := by
          simp [Shows, step_slice, Move.slice, Move.turn, h.1, h.2]
        rw [transcript_of_row hs, ih _ _ (by simp), sliced_limited]

theorem transcript_via (rule : RowRule) (fs : Functions) (s : Stage) (closed : Bool) :
    (via rule fs s closed).transcript raised = (s.transcript raised).through (rule.treat fs) :=
  (emits_via (emits_transcript raised s)).transcript

theorem transcript_filters (fs : Functions) (exprs : List Expr) (s : Stage) :
    (exprs.foldl (fun s e => via (.filter e) fs s false) s).transcript raised =
      (s.transcript raised).through (·.filter (Expr.allHold fs exprs)) :=
  (emits_filters fs exprs (emits_transcript raised s)).transcript

theorem transcript_triple (t : TriplePattern) (g : Graph) (s : Stage) :
    (each (.triple t g) s).transcript raised =
      (s.transcript raised).through (·.flatMap (t.extend g)) :=
  (emits_triple t g (emits_transcript raised s)).transcript

theorem transcript_path (p : PathPattern) (g : Graph) (s : Stage) :
    (each (.path p g) s).transcript raised =
      (s.transcript raised).through (·.flatMap (p.extend g)) :=
  (emits_path p g (emits_transcript raised s)).transcript

theorem transcript_pattern (p : BasicPattern) (g : Graph) (s : Stage) :
    (p.stage g s).transcript raised = (s.transcript raised).through (p.extend g) :=
  (emits_pattern p g (emits_transcript raised s)).transcript

theorem transcript_table (t : Table) {ctx : Context} (hw : ctx.stopped raised = false) (s : Stage) :
    (t.stage ctx s).transcript raised = (s.transcript raised).through (Rows.join · t.rows) :=
  (emits_table t hw (emits_transcript raised s)).transcript

end Stage

end SparqlAlgebra
