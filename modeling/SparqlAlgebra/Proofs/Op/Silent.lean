import SparqlAlgebra.Proofs.Op.Transcript
import SparqlAlgebra.Proofs.Stage.Pulls

/-!
Silent services are all or nothing. For each row of the input they give all rows that the endpoint
yields, if its plan is built and comes to its end, and otherwise the row itself. What a service runs
is never cancelled, so no failure of it gets out.
-/

namespace SparqlAlgebra

namespace Transcript

/-- The run is not cancelled. -/
def Calm (x : Transcript) : Prop := x.error ≠ some .cancelled

variable {x y : Transcript} {f : Binding → Transcript}

theorem calm_rows (l : List Binding) : Calm { rows := l } := nofun

theorem calm_failure {e : PlanError} (h : e ≠ .cancelled) : (failure e).Calm :=
  fun he => h (Option.some.inj he)

theorem Calm.andThen (hx : x.Calm) (hy : y.Calm) : (x.andThen y).Calm := by
  unfold Transcript.andThen
  split
  · exact hy
  · exact hx

theorem calm_concat {l : List Transcript} (h : ∀ x ∈ l, x.Calm) : (concat l).Calm := by
  induction l with
  | nil => exact calm_rows []
  | cons x l ih =>
    obtain ⟨hx, hl⟩ := List.forall_mem_cons.1 h
    exact hx.andThen (ih hl)

theorem Calm.forEach (hx : x.Calm) (hf : ∀ b, (f b).Calm) : (x.forEach f).Calm := by
  obtain ⟨l, o⟩ := x
  induction l with
  | nil => exact hx
  | cons b l ih => exact (hf b).andThen (ih hx)

theorem Calm.through (hx : x.Calm) (f : List Binding → List Binding) : (x.through f).Calm := hx

theorem Calm.settled (hx : x.Calm) {f : List Binding → Transcript} {g : PlanError → Transcript}
    (hf : ∀ l, (f l).Calm) (hg : ∀ e, e ≠ .cancelled → (g e).Calm) : (x.settled f g).Calm := by
  obtain ⟨l, o⟩ := x
  cases o with
  | none => exact hf l
  | some e => exact hg e fun he => hx (congrArg some he)

theorem Calm.arranged (hx : x.Calm) (f : List Binding → List Binding) : (x.arranged f).Calm :=
  hx.settled (fun l => calm_rows (f l)) fun _ => calm_failure

theorem Calm.paired (hx : x.Calm) (hy : y.Calm) (f : Binding → List Binding → List Binding) :
    (x.paired f y).Calm := by
  unfold Transcript.paired
  split
  · exact hx
  · exact hy.settled (fun r => hx.through (·.flatMap (f · r))) fun _ => calm_failure

theorem Calm.orElse (hx : x.Calm) (b : Binding) : (x.orElse b).Calm := by
  unfold Transcript.orElse
  split
  · exact calm_rows [b]
  · exact hx

theorem Calm.sliced (hx : x.Calm) (skip : Nat) (limit : Option Nat) :
    (x.sliced skip limit).Calm := by
  unfold Transcript.sliced
  split
  · exact calm_rows _
  · exact hx

/-- The rows of a run that came to its end, or the row `b`. -/
def kept (b : Binding) (x : Transcript) : List Binding :=
  match x.error with
  | none => x.rows
  | some _ => [b]

theorem silenced_eq (hx : x.Calm) (b : Binding) : x.silenced b = { rows := x.kept b } := by
  obtain ⟨l, o⟩ := x
  cases o with
  | none => rfl
  | some e =>
    cases e with
    | cancelled => exact (hx rfl).elim
    | _ => rfl

theorem calm_bind {p : Except PlanError Transcript} {g : Transcript → Except PlanError Transcript}
    (hp : (ofPlan p).Calm) (hg : ∀ y, y.Calm → (ofPlan (g y)).Calm) : (ofPlan (p.bind g)).Calm := by
  cases p with
  | ok y => exact hg y hp
  | error e => exact hp

theorem calm_map {p : Except PlanError Transcript} {g : Transcript → Transcript}
    (hp : (ofPlan p).Calm) (hg : ∀ y, y.Calm → (g y).Calm) : (ofPlan (p.map g)).Calm := by
  cases p with
  | ok y => exact hg y hp
  | error e => exact hp

end Transcript

/-- An endpoint without data is a fault of the service. -/
theorem Expansion.endpointData_ne_cancelled {endpoint : Slot} {ctx : Context} {b : Binding}
    {e : PlanError} (h : endpointData endpoint ctx b = .error e) : e ≠ .cancelled := by
  rintro rfl
  unfold endpointData at h
  split at h
  · cases h
  · split at h
    · cases h
    · split at h
      · cases h
      · split at h <;> cases h
      · cases h

open Transcript Stage

namespace Op

/-- Where no procedures are known, nothing but the input has the operator cancelled. -/
def StaysCalm (op : Op) : Prop :=
  ∀ ⦃ctx : Context⦄, ctx.procedures = .none → ∀ ⦃x : Transcript⦄, x.Calm →
    (ofPlan (op.transcript ctx x)).Calm

variable {l r sub : Op}

theorem staysCalm_join (hl : l.StaysCalm) (hr : r.StaysCalm) : (join l r).StaysCalm := by
  intro ctx hp x hx
  refine calm_bind (hl hp hx) fun y hy => ?_
  split
  · exact hr hp hy
  · exact calm_map (hr hp (calm_rows _)) fun z hz => hy.paired hz _

theorem staysCalm_leftJoin (hl : l.StaysCalm) (hr : r.StaysCalm) (exprs : Option (List Expr)) :
    (leftJoin l r exprs).StaysCalm := by
  intro ctx hp x hx
  refine calm_bind (hl hp hx) fun y hy => ?_
  split
  · refine hy.forEach fun b => Calm.orElse ?_ b
    exact calm_map (hr hp (calm_rows _)) fun z hz => hz.through _
  · exact calm_map (hr hp (calm_rows _)) fun z hz => hy.paired hz _

theorem staysCalm_service (h : sub.StaysCalm) (endpoint : Slot) (silent : Bool) :
    (service endpoint sub silent).StaysCalm := by
  intro ctx hp x hx
  refine hx.forEach fun b => ?_
  have hreply : (ofPlan ((Expansion.endpointData endpoint ctx b).bind fun d =>
      sub.transcript (ctx.remote d) { rows := [b] })).Calm := by
    cases hd : Expansion.endpointData endpoint ctx b with
    | ok d => exact h rfl (calm_rows [b])
    | error e => exact calm_failure (Expansion.endpointData_ne_cancelled hd)
  cases silent with
  | true =>
    show (Transcript.silenced b _).Calm
    rw [silenced_eq hreply]
    exact calm_rows _
  | false => exact hreply

theorem staysCalm_sequence {steps : List Op} (h : ∀ op ∈ steps, op.StaysCalm) :
    (sequence steps).StaysCalm := by
  intro ctx hp x hx
  rw [transcript]
  induction steps generalizing x with
  | nil => exact hx
  | cons op rest ih =>
    exact calm_bind (h op List.mem_cons_self hp hx) fun y hy =>
      ih (fun o ho => h o (List.mem_cons_of_mem op ho)) hy

theorem staysCalm {op : Op} (h : op.native = true) : op.StaysCalm := by
  -- A procedure may fail as if it were cancelled, and so may an extension. There are none of the
  -- former in the context and none of the latter in the operator.
  induction op using operands_induction with
  | step op ih =>
    have ih (sub : Op) (hs : sub ∈ op.operands) : sub.StaysCalm :=
      ih sub hs (everywhere_of_mem_operands h hs)
    cases op with
    | join l r => exact staysCalm_join (ih l (by simp [operands])) (ih r (by simp [operands]))
    | leftJoin l r exprs =>
      exact staysCalm_leftJoin (ih l (by simp [operands])) (ih r (by simp [operands])) exprs
    | union l r =>
      intro ctx hp x hx
      refine hx.forEach fun b => ?_
      exact (ih l (by simp [operands]) hp (calm_rows [b])).andThen
        (ih r (by simp [operands]) hp (calm_rows [b]))
    | diff l r =>
      intro ctx hp x hx
      refine calm_bind (ih l (by simp [operands]) hp hx) fun y hy => ?_
      exact calm_map (ih r (by simp [operands]) hp (calm_rows _)) fun z hz => hy.paired hz _
    | graph name sub =>
      intro ctx hp x hx
      refine hx.forEach fun b => calm_concat fun y hy => ?_
      obtain ⟨p, -, rfl⟩ := List.mem_map.1 hy
      have hg : ({ ctx with graph := p.2 } : Context).procedures = .none := hp
      exact ih sub (by simp [operands]) hg (calm_rows _)
    | service endpoint sub silent =>
      exact staysCalm_service (ih sub (by simp [operands])) endpoint silent
    | procedure name args sub =>
      intro ctx hp x _
      rw [transcript, hp]
      exact calm_failure (by simp)
    | propFunc property subject object sub =>
      intro ctx hp x _
      rw [transcript, hp]
      exact calm_failure (by simp)
    | sequence steps => exact staysCalm_sequence ih
    | quad q =>
      obtain ⟨g, p⟩ := q
      intro ctx _ x hx
      cases g with
      | some g => exact calm_failure (by simp)
      | none => exact hx
    | conditional l r => exact fun _ _ _ _ => calm_failure (by simp)
    | datasetNames g => exact fun _ _ _ _ => calm_failure (by simp)
    | ext e => cases everywhere_self h
    | null => exact fun _ _ _ _ => calm_rows []
    | bgp p => exact fun _ _ _ hx => hx
    | triple t => exact fun _ _ _ hx => hx
    | path p => exact fun _ _ _ hx => hx
    | table t => exact fun _ _ _ hx => hx
    | marker name => exact fun _ _ _ hx => hx
    | label name sub => exact ih sub (by simp [operands])
    | list sub => exact ih sub (by simp [operands])
    | filter exprs sub =>
      exact fun _ hp _ hx => calm_map (ih sub (by simp [operands]) hp hx) fun _ hy => hy
    | project vars sub =>
      exact fun _ hp _ hx => calm_map (ih sub (by simp [operands]) hp hx) fun _ hy => hy
    | distinct sub =>
      exact fun _ hp _ hx => calm_map (ih sub (by simp [operands]) hp hx) fun _ hy => hy
    | reduced sub =>
      exact fun _ hp _ hx => calm_map (ih sub (by simp [operands]) hp hx) fun _ hy => hy
    | assign assignments sub =>
      exact fun _ hp _ hx => calm_map (ih sub (by simp [operands]) hp hx) fun _ hy => hy
    | slice offset length sub =>
      exact fun _ hp _ hx => calm_map (ih sub (by simp [operands]) hp hx) fun _ hy => hy.sliced _ _
    | order keys sub =>
      exact fun _ hp _ hx => calm_map (ih sub (by simp [operands]) hp hx) fun _ hy => hy.arranged _
    | group vars aggs sub =>
      exact fun _ hp _ hx => calm_map (ih sub (by simp [operands]) hp hx) fun _ hy => hy.arranged _

end Op

namespace Context

variable {ctx : Context} {raised : Bool} {endpoint : Slot} {sub : Op} {b : Binding}

/-- The rows that an endpoint yields for a row, or why it does not. -/
def asked (ctx : Context) (endpoint : Slot) (sub : Op) (b : Binding) :
    Except PlanError (List Binding) :=
  (Expansion.endpointData endpoint ctx b).bind fun d => (ctx.remote d).solutions sub (.rows [b])

/-- What a silent service makes of a row: all that the endpoint yields, or the row itself. -/
def served (ctx : Context) (endpoint : Slot) (sub : Op) (b : Binding) : List Binding :=
  match ctx.asked endpoint sub b with
  | .ok l => l
  | .error _ => [b]

/-- What a silent service makes of an answer of its input: nothing but a row is sent on. -/
def servings (ctx : Context) (endpoint : Slot) (sub : Op) :
    Except PlanError (Option Binding) → List (Except PlanError (Option Binding))
  | .ok (some b) => (ctx.served endpoint sub b).map fun c => .ok (some c)
  | a => [a]

/-- What is asked of an endpoint is run to its end, and the outcome is looked at then. -/
theorem asked_eq : ctx.asked endpoint sub b =
    ((Expansion.endpointData endpoint ctx b).bind fun d =>
      sub.transcript (ctx.remote d) { rows := [b] }).bind Transcript.result := by
  rw [asked]
  cases Expansion.endpointData endpoint ctx b with
  | ok d => exact (solutions_eq_transcript sub _).trans (by rw [transcript_rows]; rfl)
  | error e => rfl

/-- What a row is expanded to below a silent service comes to its end. -/
theorem transcript_served (h : sub.native = true) (endpoint : Slot) (b : Binding) :
    ((Expansion.service endpoint sub true ctx).expand b).1.transcript raised b =
      { rows := ctx.served endpoint sub b } := by
  have hcalm : (ofPlan ((Expansion.endpointData endpoint ctx b).bind fun d =>
      sub.transcript (ctx.remote d) { rows := [b] })).Calm := by
    cases hd : Expansion.endpointData endpoint ctx b with
    | ok d => exact Op.staysCalm h rfl (calm_rows [b])
    | error e => exact calm_failure (Expansion.endpointData_ne_cancelled hd)
  have hexpand : (Expansion.service endpoint sub true ctx).expand b =
      Expansion.holding ctx b (Expansion.request endpoint sub ctx b) := rfl
  rw [hexpand, Op.transcript_holding, Op.transcript_request sub.transcribed, silenced_eq hcalm,
    served, asked_eq]
  rcases (Expansion.endpointData endpoint ctx b).bind _ with e | ⟨l, _ | e⟩ <;> rfl

theorem servings_of_ne {a : Except PlanError (Option Binding)} (h : ∀ b, a ≠ .ok (some b)) :
    ctx.servings endpoint sub a = [a] := by
  rcases a with e | _ | b
  · rfl
  · rfl
  · exact (h b rfl).elim

/-- The answers of a silent service, one after the other, are what it makes of the answers of its
input. -/
theorem answers_servings (hw : ctx.stopped raised = false) (h : sub.native = true)
    (endpoint : Slot) (m : Nat) (input : Stage) :
    let given := (input.answers (pullsOf raised m)).flatMap (ctx.servings endpoint sub)
    (each (.service endpoint sub true ctx) input).answers (pullsOf raised given.length) =
      given := by
  -- Answer by answer of the input. The rows for one of its rows take a pull each, and none is taken
  -- to find that there are no more.
  induction m generalizing input with
  | zero => rfl
  | succ m ih =>
    have hrest := ih (input.pull raised).stage
    dsimp only
    rw [answers_pullsOf_succ, List.flatMap_cons]
    by_cases hb : ∃ b, (input.pull raised).outcome = .ok (some b)
    · obtain ⟨b, hb⟩ := hb
      have hx : ((Expansion.service endpoint sub true ctx).expand b).1.Unstopped raised :=
        Op.unstopped_holding hw b _
      rw [hb, servings, List.length_append, List.length_map]
      generalize ((input.pull raised).stage.answers (pullsOf raised m)).flatMap
        (ctx.servings endpoint sub) = given at hrest ⊢
      have hrow := pulls_each_row _ hb hx (transcript_served h endpoint b) given.length
      exact hrow.1.trans (congrArg (_ ++ ·) hrest)
    · have hne (b : Binding) : (input.pull raised).outcome ≠ .ok (some b) := fun he => hb ⟨b, he⟩
      rw [servings_of_ne hne, List.singleton_append, List.length_cons, answers_each_passed _ hne]
      exact congrArg (_ :: ·) hrest

/-- Enough pulls of the input make as many answers as one likes, since every input comes to an end
and then gives its end again and again. -/
theorem exists_le_servings (ctx : Context) (raised : Bool) (endpoint : Slot) (sub : Op) (n : Nat)
    (input : Stage) :
    ∃ m, n ≤ ((input.answers (pullsOf raised m)).flatMap (ctx.servings endpoint sub)).length := by
  induction n generalizing input with
  | zero => exact ⟨0, Nat.zero_le _⟩
  | succ n ih =>
    -- Rows may have no answers, so the pulls go on to the next answer that is no row.
    induction input using run_induction raised with
    | @finished s t h =>
      obtain ⟨m, hm⟩ := ih t
      refine ⟨m + 1, ?_⟩
      rw [answers_pullsOf_succ, h.pull_finished.1, h.pull_finished.2, List.flatMap_cons,
        servings_of_ne (a := .ok none) (fun _ => nofun), List.singleton_append, List.length_cons]
      exact Nat.succ_le_succ hm
    | @failed s t e h =>
      obtain ⟨m, hm⟩ := ih t
      refine ⟨m + 1, ?_⟩
      rw [answers_pullsOf_succ, h.pull_failed.1, h.pull_failed.2, List.flatMap_cons,
        servings_of_ne (a := .error e) (fun _ => nofun), List.singleton_append, List.length_cons]
      exact Nat.succ_le_succ hm
    | silent h ihs =>
      obtain ⟨m, hm⟩ := ihs
      exact ⟨m, h.leads.answers m ▸ hm⟩
    | @row s t b h ihs =>
      obtain ⟨m, hm⟩ := ihs
      refine ⟨m + 1, ?_⟩
      rw [answers_pullsOf_succ, h.pull_row.1, h.pull_row.2, List.flatMap_cons, List.length_append]
      exact Nat.le_trans hm (Nat.le_add_left _ _)

/-- A silent service gives, for each row of its input in order, all rows that the endpoint yields
for it or else the row itself, and it fails where its input fails and nowhere else. However often it
is pulled, there is nothing in between. -/
theorem answers_silent (hw : ctx.stopped raised = false) (h : sub.native = true)
    (endpoint : Slot) (input : Stage) :
    ∃ s, (compile ctx (.service endpoint sub true) input).result = .ok s ∧
      (∀ m, let given := (input.answers (pullsOf raised m)).flatMap (ctx.servings endpoint sub)
        s.answers (pullsOf raised given.length) = given) ∧
      ∀ n, ∃ m, s.answers (pullsOf raised n) <+:
        (input.answers (pullsOf raised m)).flatMap (ctx.servings endpoint sub) := by
  refine ⟨each (.service endpoint sub true ctx) input, rfl,
    fun m => answers_servings hw h endpoint m input, fun n => ?_⟩
  obtain ⟨m, hm⟩ := exists_le_servings ctx raised endpoint sub n input
  obtain ⟨k, hk⟩ := Nat.exists_eq_add_of_le hm
  have hall := answers_servings hw h endpoint m input
  dsimp only at hall
  rw [hk, pullsOf_add, answers_append] at hall
  exact ⟨m, _, hall⟩

/-- The first row gets its remote row. The last row gets one too, before the remote plan fails in
the named graph, and is given itself instead. The failure of the input stands in between. -/
theorem answers_silent_graph :
    let remote : Dataset := ({} : Dataset).addNamedTriple (.iri "n") ⟨.iri "a", .iri "p", .iri "b"⟩
    let ctx : Context := { ofDataset {} with services := some (.ofList [("s", remote)]) }
    let endpoint : Slot := .term (.iri "s")
    let sub : Op := .union (.assign [(⟨"y"⟩, .const (.iri "c"))] (.marker "m"))
      (.graph (.var ⟨"x"⟩) (.conditional .null .null))
    let b (t : String) : Binding := .single ⟨"x"⟩ (.iri t)
    let input : Stage := .source [.ok (b "z"), .error (.invalid "broken"), .ok (b "n")]
    ctx.stopped false = false ∧ sub.native = true ∧
      ctx.asked endpoint sub (b "z") = .ok [(b "z").insert ⟨"y"⟩ (.iri "c")] ∧
      ctx.asked endpoint sub (b "n") = .error (.notImplemented "conditional") ∧
      ∃ s, (compile ctx (.service endpoint sub true) input).result = .ok s ∧
        s.answers (pullsOf false 3) = [.ok (some ((b "z").insert ⟨"y"⟩ (.iri "c"))),
          .error (.invalid "broken"), .ok (some (b "n"))] := by
  intro remote ctx endpoint sub b input
  have hd (t : String) : Expansion.endpointData endpoint ctx (b t) = .ok remote := by
    simp [Expansion.endpointData, endpoint, Slot.resolve, ctx, SortedMap.ofList, ofDataset]
  have hz : ctx.asked endpoint sub (b "z") = .ok [(b "z").insert ⟨"y"⟩ (.iri "c")] := by
    rw [asked_eq, hd]
    rfl
  have hn : ctx.asked endpoint sub (b "n") = .error (.notImplemented "conditional") := by
    rw [asked_eq, hd]
    rfl
  have hgiven : (input.answers (pullsOf false 3)).flatMap (ctx.servings endpoint sub) =
      [.ok (some ((b "z").insert ⟨"y"⟩ (.iri "c"))), .error (.invalid "broken"),
        .ok (some (b "n"))] := by
    rw [answers_source_cons, answers_source_cons, answers_source_cons]
    simp only [Except.map, List.flatMap_cons, servings, served, hz, hn]
    rfl
  have hw : ctx.stopped false = false := rfl
  have hnative : sub.native = true := rfl
  obtain ⟨s, hs, hanswers, -⟩ := answers_silent hw hnative endpoint input
  have hall := hanswers 3
  rw [hgiven] at hall
  exact ⟨hw, hnative, hz, hn, s, hs, hall⟩

end Context

end SparqlAlgebra
