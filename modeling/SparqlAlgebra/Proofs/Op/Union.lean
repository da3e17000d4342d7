import SparqlAlgebra.Proofs.Op.Transcript
import SparqlAlgebra.Proofs.Stage.Pulls

/-!
A nest of unions is a lazy concatenation: for each row of the input in order, its branches in order,
each of them compiled when its turn comes. The next row of the input is pulled only when the rows
that the branches make of the row before have been given.
-/

namespace SparqlAlgebra

open Transcript Stage

namespace Context

/-- What one sees who compiles and drains the branches of a nest of unions one after the other, each
over the same single row. -/
def fan (ctx : Context) (raised : Bool) (op : Op) (b : Binding) : Transcript :=
  concat (op.branches.map fun o => ofPlan (ctx.shown raised o (.rows [b])))

variable {ctx : Context} {raised : Bool}

theorem fan_eq (hw : ctx.stopped raised = false) (op : Op) (b : Binding) :
    ctx.fan raised op b = ofPlan (op.transcript ctx { rows := [b] }) := by
  have hshown (o : Op) : ctx.shown raised o (.rows [b]) = o.transcript ctx { rows := [b] } := by
    rw [shown_eq hw, transcript_rows]
  simp only [fan, hshown]
  exact Op.concat_branches ctx b op

/-- The branches in waiting show the same. -/
theorem transcript_branches (hw : ctx.stopped raised = false) (op : Op) (b : Binding) :
    (chain (op.branches.map fun o => { op := o, seed := b, ctx })).transcript raised =
      ctx.fan raised op b := by
  have hseeded (o : Op) : Seeded.transcript raised { op := o, seed := b, ctx } =
      ofPlan (ctx.shown raised o (.rows [b])) := by
    rw [Seeded.transcript, o.transcribed ctx _ hw, shown_eq hw]
  rw [transcript_chain, List.map_map, fan]
  exact congrArg concat (List.map_congr_left fun o _ => hseeded o)

theorem shown_union (hw : ctx.stopped raised = false) (l r : Op) (input : Stage) :
    ctx.shown raised (.union l r) input =
      .ok ((input.transcript raised).forEach (ctx.fan raised (.union l r))) := by
  have hfan (b : Binding) : ctx.fan raised (.union l r) b =
      (ofPlan (l.transcript ctx { rows := [b] })).andThen
        (ofPlan (r.transcript ctx { rows := [b] })) := by
    rw [fan_eq hw, Op.transcript]
    exact forEach_singleton _ b
  rw [shown_eq hw, Op.transcript, funext hfan]

end Context

namespace Stage

section Branches

variable {ctx : Context} {raised : Bool} {op : Op} {input : Stage} {b : Binding}

/-- The stage of a nest of unions. -/
def branching (ctx : Context) (op : Op) (input : Stage) : Stage :=
  each (.union op.branches ctx) input

/-- A pull pulls the input once and goes on in the branches for the row. -/
theorem leads_branching (hb : (input.pull raised).outcome = .ok (some b)) :
    Leads raised (branching ctx op input) (input.pull raised).tally.pulls
      (eachOf (.union op.branches ctx) (input.pull raised).stage
        (chain (op.branches.map fun o => { op := o, seed := b, ctx }))) := by
  refine leads_each (n := 0) (v := fun t => eachOf (.union op.branches ctx) t
    (chain (op.branches.map fun o => { op := o, seed := b, ctx }))) _ (fun h => ?_) hb
  simp [Shows, step_each, Move.each, Move.turn, h.1, h.2, Expansion.expand, Expansion.after]

/-- All rows of the branches for the first row of the input, and then the rest. -/
theorem pulls_branching_row (op : Op) (hw : ctx.stopped raised = false)
    (hb : (input.pull raised).outcome = .ok (some b))
    (hfan : (ctx.fan raised op b).error = none) (n : Nat) :
    (branching ctx op input).answers
          (pullsOf raised ((ctx.fan raised op b).rows.length + (n + 1))) =
        (ctx.fan raised op b).rows.map (fun c => .ok (some c)) ++
          (branching ctx op (input.pull raised).stage).answers (pullsOf raised (n + 1)) ∧
      (branching ctx op input).pullings
          (pullsOf raised ((ctx.fan raised op b).rows.length + (n + 1))) =
        (input.pull raised).tally.pulls +
          (branching ctx op (input.pull raised).stage).pullings (pullsOf raised (n + 1)) := by
  have hrows : ctx.fan raised op b = { rows := (ctx.fan raised op b).rows } := by rw [← hfan]
  have hchain := (Context.transcript_branches hw op b).trans hrows
  have hall := pulls_each_row (.union op.branches ctx) hb trivial hchain
  exact ⟨(hall (n + 1)).1, (hall n).2⟩

/-- The first rows of the branches for the first row of the input. -/
theorem pulls_branching_first (op : Op) (hw : ctx.stopped raised = false)
    (hb : (input.pull raised).outcome = .ok (some b)) {k rest : List Binding} {c : Binding}
    (hfan : (ctx.fan raised op b).rows = k ++ c :: rest) :
    (branching ctx op input).answers (pullsOf raised (k.length + 1)) =
        (k ++ [c]).map (fun c => .ok (some c)) ∧
      (branching ctx op input).pullings (pullsOf raised (k.length + 1)) =
        (input.pull raised).tally.pulls := by
  have hlead : Leads raised (branching ctx op input) _ _ := leads_branching hb
  have hchain := Context.transcript_branches hw op b
  have hrows : ctx.fan raised op b = ⟨(k ++ [c]) ++ rest, (ctx.fan raised op b).error⟩ := by
    rw [List.append_assoc, List.singleton_append, ← hfan]
  obtain ⟨v, -, -, hanswers, -, hpullings⟩ :=
    pulls_eachOf (.union op.branches ctx) (input.pull raised).stage rfl (hchain.trans hrows)
  have hlength : (k ++ [c]).length = k.length + 1 := List.length_append
  rw [hlength] at hanswers hpullings
  exact ⟨(hlead.answers _).trans hanswers, by rw [hlead.pullings, hpullings]; rfl⟩

/-- Up to a row that the branches make of the row `b` of the input, the rows come in order, and the
input has been pulled up to `b` and no further. -/
theorem pulls_branching (hw : ctx.stopped raised = false) {before later k rest : List Binding}
    {c : Binding} {o : Option PlanError} (hi : input.transcript raised = ⟨before ++ b :: later, o⟩)
    (hbefore : ∀ d ∈ before, (ctx.fan raised op d).error = none)
    (hfan : (ctx.fan raised op b).rows = k ++ c :: rest) :
    let earlier := before.flatMap fun d => (ctx.fan raised op d).rows
    let uses := pullsOf raised (earlier.length + (k.length + 1))
    (branching ctx op input).answers uses = (earlier ++ (k ++ [c])).map (fun c => .ok (some c)) ∧
      (branching ctx op input).pullings uses =
        input.pullings (pullsOf raised (before.length + 1)) := by
  -- Row by row of the input: the branches for an earlier row come to their end, and the pull that
  -- finds it goes on to the next row.
  induction before generalizing input with
  | nil =>
    obtain ⟨hb, -⟩ := pull_of_transcript_cons (x := ⟨later, o⟩) hi
    obtain ⟨hanswers, hpullings⟩ := pulls_branching_first op hw hb hfan
    refine ⟨?_, ?_⟩
    · rw [List.flatMap_nil, List.length_nil, Nat.zero_add]
      exact hanswers
    · rw [List.flatMap_nil, List.length_nil, Nat.zero_add, hpullings]
      rfl
  | cons d before ih =>
    obtain ⟨hd, hbefore⟩ := List.forall_mem_cons.1 hbefore
    obtain ⟨hb, hrest⟩ := pull_of_transcript_cons (x := ⟨before ++ b :: later, o⟩) hi
    obtain ⟨hanswers, hpullings⟩ := ih hrest hbefore
    obtain ⟨hrow, hcost⟩ := pulls_branching_row op hw hb hd
      ((before.flatMap fun d => (ctx.fan raised op d).rows).length + k.length)
    have hlength : ((d :: before).flatMap fun d => (ctx.fan raised op d).rows).length +
        (k.length + 1) = (ctx.fan raised op d).rows.length +
          ((before.flatMap fun d => (ctx.fan raised op d).rows).length + k.length + 1) := by
      rw [List.flatMap_cons, List.length_append]
      omega
    dsimp only
    rw [hlength, hrow, hcost]
    refine ⟨?_, ?_⟩
    · rw [← Nat.add_assoc] at hanswers
      rw [hanswers, ← List.map_append, List.flatMap_cons, List.append_assoc]
    · rw [← Nat.add_assoc] at hpullings
      rw [hpullings]
      rfl

end Branches

end Stage

/-- Over any input, a nest of unions shows for each row in order what its branches show in order, up
to the first failure of the input, of a compilation or of a run. It does so lazily: with a row that
a branch has made of the row `b`, the input has been pulled up to `b` and no further. Branches may
be extensions, which are assumed to pass the row on, to give rows of their own or to refuse. -/
theorem Context.shown_union_lazily {ctx : Context} {raised : Bool}
    (hw : ctx.stopped raised = false) (l r : Op) (input : Stage) :
    ctx.shown raised (.union l r) input =
        .ok ((input.transcript raised).forEach (ctx.fan raised (.union l r))) ∧
      ∃ s, (compile ctx (.union l r) input).result = .ok s ∧
        ∀ (before later k rest : List Binding) (b c : Binding),
          (input.transcript raised).rows = before ++ b :: later →
          (∀ d ∈ before, (ctx.fan raised (.union l r) d).error = none) →
          (ctx.fan raised (.union l r) b).rows = k ++ c :: rest →
          let earlier := before.flatMap fun d => (ctx.fan raised (.union l r) d).rows
          let uses := pullsOf raised (earlier.length + (k.length + 1))
          s.answers uses = (earlier ++ (k ++ [c])).map (fun c => .ok (some c)) ∧
            s.pullings uses = input.pullings (pullsOf raised (before.length + 1)) ∧
            ∀ items, input = .source items → s.pullings uses = before.length + 1 := by
  refine ⟨shown_union hw l r input, branching ctx (.union l r) input, rfl, ?_⟩
  intro before later k rest b c hi hbefore hfan earlier uses
  have hi : input.transcript raised = ⟨before ++ b :: later, (input.transcript raised).error⟩ := by
    rw [← hi]
  obtain ⟨hanswers, hpullings⟩ := pulls_branching hw hi hbefore hfan
  refine ⟨hanswers, hpullings, ?_⟩
  rintro items rfl
  rw [hpullings, pullings_source]

/-- The second row of the input is pulled for the third row of the union, and the failure behind it
is not. -/
theorem Context.shown_union_lazily_source :
    let ctx := ofDataset {}
    let bind (t : String) : Op := .assign [(⟨"y"⟩, .const (.iri t))] (.marker "m")
    let op : Op := .union (.union (bind "a") .null) (bind "c")
    let x (t : String) : Binding := .single ⟨"x"⟩ (.iri t)
    let input : Stage := .source [.ok (x "1"), .ok (x "2"), .error (.invalid "broken")]
    let row (s t : String) : Binding := (x s).insert ⟨"y"⟩ (.iri t)
    ctx.stopped false = false ∧
      (input.transcript false).rows = [x "1"] ++ x "2" :: [] ∧
      (∀ d ∈ [x "1"], (ctx.fan false op d).error = none) ∧
      (ctx.fan false op (x "2")).rows = [] ++ row "2" "a" :: [row "2" "c"] ∧
      ctx.shown false op input =
        .ok ⟨[row "1" "a", row "1" "c", row "2" "a", row "2" "c"], some (.invalid "broken")⟩ ∧
      ∃ s, (compile ctx op input).result = .ok s ∧
        s.answers (pullsOf false 3) =
          [.ok (some (row "1" "a")), .ok (some (row "1" "c")), .ok (some (row "2" "a"))] ∧
        s.pullings (pullsOf false 3) = 2 := by
  intro ctx bind op x input row
  have hw : ctx.stopped false = false := rfl
  have hi : input.transcript false = ⟨[x "1", x "2"], some (.invalid "broken")⟩ :=
    (Emits.row ⟨rfl, rfl⟩ (.row ⟨rfl, rfl⟩ (.failed ⟨rfl, rfl⟩))).transcript
  have hfan (t : String) (h : t = "1" ∨ t = "2") :
      ctx.fan false op (x t) = { rows := [row t "a", row t "c"] } := by
    rw [fan_eq hw]
    rcases h with rfl | rfl <;> rfl
  have hfirst : ∀ d ∈ [x "1"], (ctx.fan false op d).error = none := by
    intro d hd
    rw [List.mem_singleton.1 hd, hfan "1" (.inl rfl)]
  have hsecond : (ctx.fan false op (x "2")).rows = [] ++ row "2" "a" :: [row "2" "c"] := by
    rw [hfan "2" (.inr rfl)]
    rfl
  have hrows : (input.transcript false).rows = [x "1"] ++ x "2" :: [] := by
    rw [hi]
    rfl
  obtain ⟨hshown, s, hs, hlazy⟩ := shown_union_lazily hw (.union (bind "a") .null) (bind "c") input
  obtain ⟨hanswers, -, hpullings⟩ := hlazy _ _ _ _ _ _ hrows hfirst hsecond
  have hearlier : ([x "1"].flatMap fun d => (ctx.fan false op d).rows) =
      [row "1" "a", row "1" "c"] := by
    simp only [List.flatMap_cons, List.flatMap_nil, List.append_nil]
    rw [hfan "1" (.inl rfl)]
  have hall : ctx.shown false op input =
      .ok ⟨[row "1" "a", row "1" "c", row "2" "a", row "2" "c"], some (.invalid "broken")⟩ := by
    refine hshown.trans (congrArg Except.ok ?_)
    rw [hi]
    show (ctx.fan false op (x "1")).andThen
      ((ctx.fan false op (x "2")).andThen ⟨[], some (.invalid "broken")⟩) = _
    rw [hfan "1" (.inl rfl), hfan "2" (.inr rfl)]
    rfl
  rw [hearlier] at hanswers hpullings
  exact ⟨hw, hrows, hfirst, hsecond, hall, s, hs, hanswers, hpullings _ rfl⟩

end SparqlAlgebra
