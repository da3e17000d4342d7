import SparqlAlgebra.Proofs.Op.Everywhere
import SparqlAlgebra.Proofs.Stage.Transcript

/-!
The transcripts of plans, told from the operators alone. What the run of a plan shows depends on what
its input shows, and on nothing else about the input; a nest of unions is no different from unions of
unions.
-/

namespace SparqlAlgebra

open Transcript

/-- The rows over which a graph clause runs its part for `b`, each with the graph that it runs in. -/
def Dataset.seeds (d : Dataset) (name : Slot) (b : Binding) : List (Binding × Graph) :=
  match name.resolve b with
  | some t => (d.named.get? t).toList.map (b, ·)
  | none =>
    match name with
    | .term _ => []
    | .var v => d.named.entries.map fun e => (b.insert v e.1, e.2)

/-- The transcript that an extension makes of the one before it. -/
def Extension.transcript (e : Extension) (ctx : Context) (x : Transcript) :
    Except PlanError Transcript :=
  match e.eval ctx with
  | .ok .input => .ok x
  | .ok (.rows l) => .ok { rows := l }
  | .ok .declined => .error (.unsupportedExtension e.name)
  | .error (.notImplemented _) => .error (.unsupportedExtension e.name)
  | .error err => .error err

namespace Op

mutual

/-- What an operator shows, compiled over an input that shows `x`, or why it is not compiled. -/
@[simp]
def transcript : Op → Context → Transcript → Except PlanError Transcript
  | bgp p, ctx, x => .ok (x.through (p.extend ctx.graph))
  | triple t, ctx, x => .ok (x.through (·.flatMap (t.extend ctx.graph)))
  | quad q, ctx, x =>
    match q.graph with
    | some _ => .error (.notImplemented "quad pattern over a named graph")
    | none => .ok (x.through (q.pattern.extend ctx.graph))
  | path p, ctx, x => .ok (x.through (·.flatMap (p.extend ctx.graph)))
  | join l r, ctx, x =>
    (transcript l ctx x).bind fun y =>
      if ctx.config.streamedJoins && joinStreams l r then transcript r ctx y
      else (transcript r ctx { rows := [∅] }).map (y.paired (Pairing.inner.combine ctx.functions))
  | leftJoin l r exprs, ctx, x =>
    (transcript l ctx x).bind fun y =>
      if ctx.config.streamedLeftJoins && leftJoinStreams l r then
        .ok (y.forEach fun b => (ofPlan ((transcript r ctx { rows := [b] }).map
          (·.through (·.filter (Expr.allHold ctx.functions (exprs.getD [])))))).orElse b)
      else
        (transcript r ctx { rows := [∅] }).map
          (y.paired ((Pairing.optional (exprs.getD [])).combine ctx.functions))
  | union l r, ctx, x =>
    .ok (x.forEach fun b => (ofPlan (transcript l ctx { rows := [b] })).andThen
      (ofPlan (transcript r ctx { rows := [b] })))
  | diff l r, ctx, x =>
    (transcript l ctx x).bind fun y =>
      (transcript r ctx { rows := [∅] }).map (y.paired (Pairing.minus.combine ctx.functions))
  | conditional _ _, _, _ => .error (.notImplemented "conditional")
  | datasetNames _, _, _ => .error (.notImplemented "dataset names")
  | filter exprs sub, ctx, x =>
    (transcript sub ctx x).map (·.through (·.filter (Expr.allHold ctx.functions exprs)))
  | graph name sub, ctx, x =>
    .ok (x.forEach fun b => concat ((ctx.dataset.seeds name b).map fun p =>
      ofPlan (transcript sub { ctx with graph := p.2 } { rows := [p.1] })))
  | service endpoint sub silent, ctx, x =>
    .ok (x.forEach fun b =>
      let reply := ofPlan ((Expansion.endpointData endpoint ctx b).bind fun d =>
        transcript sub (ctx.remote d) { rows := [b] })
      if silent then reply.silenced b else reply)
  | procedure name args sub, ctx, x =>
    (ctx.procedures.build name (.args args)).bind fun p =>
      (transcript sub ctx x).map (·.replied p [])
  | propFunc property subject object sub, ctx, x =>
    (ctx.procedures.build property (.property subject object)).bind fun p =>
      (transcript sub ctx x).map (·.replied p [])
  | table t, _, x => .ok (x.through (Rows.join · t.rows))
  | sequence steps, ctx, x => transcriptSteps steps ctx x
  | marker _, _, x => .ok x
  | label _ sub, ctx, x => transcript sub ctx x
  | list sub, ctx, x => transcript sub ctx x
  | null, _, _ => .ok { rows := [] }
  | project vars sub, ctx, x =>
    (transcript sub ctx x).map (·.through ((RowRule.project vars).treat ctx.functions))
  | order keys sub, ctx, x =>
    (transcript sub ctx x).map (·.arranged ((Gathering.sort keys).arrange ctx.functions ·))
  | slice offset length sub, ctx, x =>
    (transcript sub ctx x).map
      (·.sliced (offset.elim 0 UInt64.toNat) (length.map UInt64.toNat))
  | distinct sub, ctx, x =>
    (transcript sub ctx x).map (·.through ((RowRule.distinct []).treat ctx.functions))
  | reduced sub, ctx, x =>
    (transcript sub ctx x).map (·.through
      ((RowRule.reduced (max ctx.config.reducedWindow.toNat 1) []).treat ctx.functions))
  | group vars aggs sub, ctx, x =>
    (transcript sub ctx x).map (·.arranged ((Gathering.group vars aggs).arrange ctx.functions ·))
  | assign assignments sub, ctx, x =>
    (transcript sub ctx x).map (·.through ((RowRule.assign assignments).treat ctx.functions))
  | ext e, ctx, x => e.transcript ctx x

/-- Steps, each over the one before. -/
def transcriptSteps : List Op → Context → Transcript → Except PlanError Transcript
  | [], _, x => .ok x
  | op :: rest, ctx, x => (transcript op ctx x).bind fun y => transcriptSteps rest ctx y

end

/-- Steps that are changed one by one, each without effect on what it makes of any rows. -/
theorem transcript_sequence_map {f : Op → Op} {steps : List Op} {ctx ctx' : Context}
    (h : ∀ op ∈ steps, ∀ x, (f op).transcript ctx' x = op.transcript ctx x) (x : Transcript) :
    (sequence (steps.map f)).transcript ctx' x = (sequence steps).transcript ctx x := by
  simp only [transcript]
  induction steps generalizing x with
  | nil => rfl
  | cons op rest ih =>
    have hrest := ih fun o ho => h o (List.mem_cons_of_mem op ho)
    simp only [List.map_cons, transcriptSteps, h op List.mem_cons_self, hrest]

end Op

namespace Compiled

variable {raised : Bool}

theorem transcript_map {f : Stage → Stage} {g : Transcript → Transcript}
    (h : ∀ s, (f s).transcript raised = g (s.transcript raised)) (c : Compiled) :
    (c.map f).transcript raised = (c.transcript raised).map g := by
  unfold Compiled.transcript Compiled.map
  cases c.result with
  | ok s => exact congrArg Except.ok (h s)
  | error e => rfl

theorem transcript_andThen {f : Stage → Compiled} {g : Transcript → Except PlanError Transcript}
    (h : ∀ s, (f s).transcript raised = g (s.transcript raised)) (c : Compiled) :
    (c.andThen f).transcript raised = (c.transcript raised).bind g := by
  unfold Compiled.transcript Compiled.andThen
  cases c.result with
  | ok s => exact h s
  | error e => rfl

theorem transcript_applying (c : Compiled) (made : Except PlanError Procedure) :
    (c.applying made).transcript raised =
      made.bind fun p => (c.transcript raised).map (·.replied p []) := by
  cases made with
  | error e => rfl
  | ok p => exact transcript_map (Stage.transcript_procedure p []) c

end Compiled

namespace Op

open Stage

variable {raised : Bool}

/-- Compiled in a context that is not stopped, the operator shows its transcript. -/
def Transcribed (raised : Bool) (op : Op) : Prop :=
  ∀ (ctx : Context) (i : Stage), ctx.stopped raised = false →
    (compile ctx op i).transcript raised = op.transcript ctx (i.transcript raised)

theorem transcribed_of_ok {op : Op} {f : Context → Stage → Stage}
    (hc : ∀ ctx i, compile ctx op i = (Compiled.ok (f ctx i)).counted)
    (hf : ∀ ctx i, ctx.stopped raised = false →
      .ok ((f ctx i).transcript raised) = op.transcript ctx (i.transcript raised)) :
    op.Transcribed raised := by
  intro ctx i hw
  rw [hc]
  exact hf ctx i hw

theorem transcribed_of_map {op sub : Op} (h : sub.Transcribed raised) {f : Context → Stage → Stage}
    {g : Context → Transcript → Transcript}
    (hc : ∀ ctx i, compile ctx op i = ((compile ctx sub i).map (f ctx)).counted)
    (hf : ∀ ctx s, ctx.stopped raised = false →
      (f ctx s).transcript raised = g ctx (s.transcript raised))
    (ht : ∀ ctx x, op.transcript ctx x = (sub.transcript ctx x).map (g ctx)) :
    op.Transcribed raised := by
  intro ctx i hw
  rw [hc, ht, ← h ctx i hw]
  exact Compiled.transcript_map (hf ctx · hw) _

theorem transcribed_of_same {op sub : Op} (h : sub.Transcribed raised)
    (hc : ∀ ctx i, compile ctx op i = (compile ctx sub i).counted)
    (ht : ∀ ctx x, op.transcript ctx x = sub.transcript ctx x) : op.Transcribed raised := by
  intro ctx i hw
  rw [hc, ht, ← h ctx i hw]
  rfl

theorem transcribed_of_applying {op sub : Op} (h : sub.Transcribed raised)
    {made : Context → Except PlanError Procedure}
    (hc : ∀ ctx i, compile ctx op i = ((compile ctx sub i).applying (made ctx)).counted)
    (ht : ∀ ctx x, op.transcript ctx x =
      (made ctx).bind fun p => (sub.transcript ctx x).map (·.replied p [])) :
    op.Transcribed raised := by
  intro ctx i hw
  rw [hc, ht, ← h ctx i hw]
  exact Compiled.transcript_applying _ _

/-- A right side that is run by itself and paired with the left rows. -/
theorem transcript_paired {ctx : Context} {r : Op} (hw : ctx.stopped raised = false)
    (hr : r.Transcribed raised) (rule : Pairing) (s : Stage) :
    ((compile ctx r .root).map fun t => .pair rule ctx s t none []).transcript raised =
      (r.transcript ctx { rows := [∅] }).map
        ((s.transcript raised).paired (rule.combine ctx.functions)) := by
  rw [← transcript_root raised, ← hr ctx .root hw]
  exact Compiled.transcript_map (fun t => transcript_pair hw t s) _

theorem transcribed_join {l r : Op} (hl : l.Transcribed raised) (hr : r.Transcribed raised) :
    (join l r).Transcribed raised := by
  intro ctx i hw
  rw [compile_join, transcript, ← hl ctx i hw]
  refine Compiled.transcript_andThen (fun s => ?_) _
  split
  · exact hr ctx s hw
  · exact transcript_paired hw hr .inner s

theorem transcribed_diff {l r : Op} (hl : l.Transcribed raised) (hr : r.Transcribed raised) :
    (diff l r).Transcribed raised := by
  intro ctx i hw
  rw [compile_diff, transcript, ← hl ctx i hw]
  exact Compiled.transcript_andThen (transcript_paired hw hr .minus) _

theorem transcribed_filter (exprs : List Expr) {sub : Op} (h : sub.Transcribed raised) :
    (filter exprs sub).Transcribed raised :=
  transcribed_of_map h (compile_filter · · exprs sub)
    (fun ctx s _ => transcript_filters ctx.functions exprs s) fun _ _ => rfl

/-- The optional part of a streamed left join, with its expressions. -/
theorem transcript_filtered {r : Op} (hr : r.Transcribed raised) {ctx : Context}
    (hw : ctx.stopped raised = false) (exprs : Option (List Expr)) (i : Stage) :
    (compile ctx (r.filtered exprs) i).transcript raised =
      (r.transcript ctx (i.transcript raised)).map
        (·.through (·.filter (Expr.allHold ctx.functions (exprs.getD [])))) := by
  have hnone (x : Except PlanError Transcript) :
      x.map (·.through (·.filter (Expr.allHold ctx.functions []))) = x := by
    cases x with
    | ok x =>
      exact congrArg (fun l => Except.ok { x with rows := l })
        (List.filter_eq_self.2 fun _ _ => rfl)
    | error e => rfl
  rcases exprs with _ | _ | ⟨e, es⟩
  · exact (hr ctx i hw).trans (hnone _).symm
  · exact (hr ctx i hw).trans (hnone _).symm
  · exact transcribed_filter (e :: es) hr ctx i hw

theorem transcribed_leftJoin {l r : Op} (hl : l.Transcribed raised) (hr : r.Transcribed raised)
    (exprs : Option (List Expr)) : (leftJoin l r exprs).Transcribed raised := by
  intro ctx i hw
  rw [compile_leftJoin, transcript, ← hl ctx i hw]
  refine Compiled.transcript_andThen (fun s => ?_) _
  split
  · have hpart (b : Binding) := transcript_filtered hr hw exprs (rows [b])
    refine congrArg Except.ok ((transcript_optional (r.filtered exprs) ctx s).trans ?_)
    simp only [hpart, transcript_rows]
  · exact transcript_paired hw hr (.optional (exprs.getD [])) s

/-- The branches of a nest of unions, run one after the other, show what the nest shows. -/
theorem concat_branches (ctx : Context) (b : Binding) (op : Op) :
    concat (op.branches.map fun o => ofPlan (o.transcript ctx { rows := [b] })) =
      ofPlan (op.transcript ctx { rows := [b] }) := by
  fun_induction branches op with
  | case1 l r hl hr =>
    rw [List.map_append, concat_append, hl, hr, transcript, forEach_singleton]
    rfl
  | case2 op _ => exact andThen_nil _

theorem transcribed_union {l r : Op} (h : ∀ op ∈ l.branches ++ r.branches, op.Transcribed raised) :
    (union l r).Transcribed raised := by
  refine transcribed_of_ok (compile_union · · l r) fun ctx i hw => ?_
  have hrow (b : Binding) :
      ((Expansion.union (l.branches ++ r.branches) ctx).expand b).1.transcript raised b =
        (ofPlan (l.transcript ctx { rows := [b] })).andThen
          (ofPlan (r.transcript ctx { rows := [b] })) := by
    have hseeded : ∀ op ∈ l.branches ++ r.branches,
        Seeded.transcript raised { op, seed := b, ctx } =
          ofPlan (op.transcript ctx { rows := [b] }) := by
      intro op ho
      rw [Seeded.transcript, h op ho ctx _ hw, transcript_rows]
    have hchain := transcript_chain raised
      ((l.branches ++ r.branches).map fun op => { op, seed := b, ctx })
    rw [List.map_map] at hchain
    refine hchain.trans ((congrArg concat (List.map_congr_left hseeded)).trans ?_)
    rw [List.map_append, concat_append, concat_branches, concat_branches]
  have hx (b : Binding) :
      ((Expansion.union (l.branches ++ r.branches) ctx).expand b).1.Unstopped raised := trivial
  rw [transcript_each (fun _ => rfl) hx, transcript]
  simp only [hrow]

theorem transcript_flowing (b : Binding) (c : Compiled) :
    (Expansion.flowing c).1.transcript raised b = ofPlan (c.transcript raised) := by
  unfold Expansion.flowing Compiled.transcript
  cases c.result <;> rfl

theorem transcript_holding (ctx : Context) (b : Binding) (c : Compiled) :
    (Expansion.holding ctx b c).1.transcript raised b =
      (ofPlan (c.transcript raised)).silenced b := by
  unfold Expansion.holding Compiled.transcript
  cases c.result with
  | ok s => rfl
  | error e =>
    cases e with
    | cancelled => rfl
    | _ => exact transcript_rows raised [b]

theorem transcript_inGraphs {sub : Op} (h : sub.Transcribed raised) {ctx : Context}
    (hw : ctx.stopped raised = false) (name : Slot) (b : Binding) :
    ((Expansion.graph name sub ctx).expand b).1.transcript raised b =
      concat ((ctx.dataset.seeds name b).map fun p =>
        ofPlan (sub.transcript { ctx with graph := p.2 } { rows := [p.1] })) := by
  have hseeded (c : Binding) (g : Graph) :
      ofPlan ((compile { ctx with graph := g } sub (rows [c])).transcript raised) =
        ofPlan (sub.transcript { ctx with graph := g } { rows := [c] }) := by
    rw [h { ctx with graph := g } _ hw, transcript_rows]
  cases hn : name.resolve b with
  | some t =>
    cases hg : ctx.dataset.named.get? t with
    | some g =>
      have hi : Expansion.inGraphs name sub ctx b = .inr g := by
        simp [Expansion.inGraphs, hn, hg]
      have hp : ctx.dataset.seeds name b = [(b, g)] := by simp [Dataset.seeds, hn, hg]
      rw [Expansion.expand_graph_inr hi, transcript_flowing, hseeded, hp]
      exact (andThen_nil _).symm
    | none =>
      have hi : Expansion.inGraphs name sub ctx b = .inl (.rows []) := by
        simp [Expansion.inGraphs, hn, hg]
      have hp : ctx.dataset.seeds name b = [] := by simp [Dataset.seeds, hn, hg]
      rw [Expansion.expand_graph_inl hi, hp]
      exact transcript_rows raised []
  | none =>
    cases name with
    | term t => cases hn
    | var v =>
      have hp : ctx.dataset.seeds (.var v) b =
          ctx.dataset.named.entries.map fun e => (b.insert v e.1, e.2) := by
        simp [Dataset.seeds, hn]
      rw [Expansion.expand_graph_inl (Expansion.inGraphs_open hn sub ctx), hp, Expanded.transcript,
        transcript_chain, List.map_map,
        List.map_map]
      exact congrArg concat (List.map_congr_left fun e _ => hseeded (b.insert v e.1) e.2)

theorem unstopped_flowing (c : Compiled) : (Expansion.flowing c).1.Unstopped raised := by
  unfold Expansion.flowing
  cases c.result <;> trivial

theorem unstopped_holding {ctx : Context} (hw : ctx.stopped raised = false) (b : Binding)
    (c : Compiled) : (Expansion.holding ctx b c).1.Unstopped raised := by
  unfold Expansion.holding
  cases c.result with
  | ok s => exact hw
  | error e => cases e <;> trivial

theorem transcribed_graph {sub : Op} (h : sub.Transcribed raised) (name : Slot) :
    (graph name sub).Transcribed raised := by
  refine transcribed_of_ok (compile_graph · · name sub) fun ctx i hw => ?_
  have hx (b : Binding) : ((Expansion.graph name sub ctx).expand b).1.Unstopped raised := by
    cases hi : Expansion.inGraphs name sub ctx b with
    | inl s =>
      rw [Expansion.expand_graph_inl hi]
      trivial
    | inr g =>
      rw [Expansion.expand_graph_inr hi]
      exact unstopped_flowing _
  rw [transcript_each (fun _ => rfl) hx, transcript]
  simp only [transcript_inGraphs h hw]

theorem transcript_request {sub : Op} (h : sub.Transcribed raised) (endpoint : Slot) (ctx : Context)
    (b : Binding) :
    (Expansion.request endpoint sub ctx b).transcript raised =
      (Expansion.endpointData endpoint ctx b).bind fun d =>
        sub.transcript (ctx.remote d) { rows := [b] } := by
  unfold Expansion.request
  cases Expansion.endpointData endpoint ctx b with
  | error e => rfl
  | ok d =>
    -- A service is not stopped, whatever the token says.
    have hremote : (ctx.remote d).stopped raised = false := rfl
    exact (h (ctx.remote d) _ hremote).trans (by rw [transcript_rows]; rfl)

theorem transcribed_service {sub : Op} (h : sub.Transcribed raised) (endpoint : Slot)
    (silent : Bool) : (service endpoint sub silent).Transcribed raised := by
  refine transcribed_of_ok (compile_service · · endpoint sub silent) fun ctx i hw => ?_
  have hexpand (b : Binding) : (Expansion.service endpoint sub silent ctx).expand b =
      if silent then Expansion.holding ctx b (Expansion.request endpoint sub ctx b)
      else Expansion.flowing (Expansion.request endpoint sub ctx b) := rfl
  have hx (b : Binding) :
      ((Expansion.service endpoint sub silent ctx).expand b).1.Unstopped raised := by
    rw [hexpand]
    cases silent with
    | true => exact unstopped_holding hw b _
    | false => exact unstopped_flowing _
  rw [transcript_each (fun _ => rfl) hx, transcript]
  cases silent with
  | true => simp only [hexpand, if_true, transcript_holding, transcript_request h]
  | false =>
    simp only [hexpand, Bool.false_eq_true, if_false, transcript_flowing, transcript_request h]

theorem transcribed_sequence {steps : List Op} (h : ∀ op ∈ steps, op.Transcribed raised) :
    (sequence steps).Transcribed raised := by
  intro ctx i hw
  rw [compile_sequence, transcript]
  show (compileSteps ctx steps i).transcript raised = _
  induction steps generalizing i with
  | nil => rfl
  | cons op rest ih =>
    rw [compileSteps_cons, transcriptSteps, ← h op List.mem_cons_self ctx i hw]
    exact Compiled.transcript_andThen
      (fun s => ih (fun o ho => h o (List.mem_cons_of_mem op ho)) s) _

theorem transcribed_quad (q : QuadPattern) : (quad q).Transcribed raised := by
  obtain ⟨g, p⟩ := q
  intro ctx i _
  cases g with
  | some g => rfl
  | none => exact congrArg Except.ok (transcript_pattern p ctx.graph i)

theorem transcribed_ext (e : Extension) : (ext e).Transcribed raised := by
  intro ctx i _
  have hstage : (compile ctx (ext e) i).transcript raised =
      (e.stage ctx i).map (·.transcript raised) := rfl
  rw [hstage, transcript, Extension.stage, Extension.transcript]
  rcases e.eval ctx with err | x
  · cases err <;> rfl
  · cases x with
    | rows l => exact congrArg Except.ok (transcript_rows raised l)
    | _ => rfl

theorem transcribed (op : Op) : op.Transcribed raised := by
  induction op using operands_induction with
  | step op ih =>
    cases op with
    | bgp p =>
      exact transcribed_of_ok (compile_bgp · · p)
        fun ctx i _ => congrArg Except.ok (transcript_pattern p ctx.graph i)
    | triple t =>
      exact transcribed_of_ok (compile_triple · · t)
        fun ctx i _ => congrArg Except.ok (transcript_triple t ctx.graph i)
    | quad q => exact transcribed_quad q
    | path p =>
      exact transcribed_of_ok (compile_path · · p)
        fun ctx i _ => congrArg Except.ok (transcript_path p ctx.graph i)
    | join l r =>
      exact transcribed_join (ih l (by simp [operands])) (ih r (by simp [operands]))
    | leftJoin l r exprs =>
      exact transcribed_leftJoin (ih l (by simp [operands])) (ih r (by simp [operands])) exprs
    | union l r =>
      exact transcribed_union fun op ho =>
        ih op (List.mem_cons_of_mem l (List.mem_cons_of_mem r ho))
    | diff l r => exact transcribed_diff (ih l (by simp [operands])) (ih r (by simp [operands]))
    | conditional l r => exact fun _ _ _ => rfl
    | filter exprs sub => exact transcribed_filter exprs (ih sub (by simp [operands]))
    | graph name sub => exact transcribed_graph (ih sub (by simp [operands])) name
    | service endpoint sub silent =>
      exact transcribed_service (ih sub (by simp [operands])) endpoint silent
    | procedure name args sub =>
      exact transcribed_of_applying (ih sub (by simp [operands]))
        (compile_procedure · · name args sub) fun _ _ => rfl
    | propFunc property subject object sub =>
      exact transcribed_of_applying (ih sub (by simp [operands]))
        (compile_propFunc · · property subject object sub) fun _ _ => rfl
    | datasetNames g => exact fun _ _ _ => rfl
    | table t =>
      exact transcribed_of_ok (compile_table · · t)
        fun ctx i hw => congrArg Except.ok (transcript_table t hw i)
    | sequence steps => exact transcribed_sequence ih
    | marker name => exact fun _ _ _ => rfl
    | label name sub =>
      exact transcribed_of_same (ih sub (by simp [operands])) (compile_label · · name sub)
        fun _ _ => rfl
    | list sub =>
      exact transcribed_of_same (ih sub (by simp [operands])) (compile_list · · sub) fun _ _ => rfl
    | null =>
      intro ctx i _
      exact congrArg Except.ok (transcript_rows raised [])
    | project vars sub =>
      exact transcribed_of_map (ih sub (by simp [operands])) (compile_project · · vars sub)
        (fun ctx s _ => transcript_via _ _ s false) fun _ _ => rfl
    | order keys sub =>
      exact transcribed_of_map (ih sub (by simp [operands])) (compile_order · · keys sub)
        (fun ctx s hw => transcript_gather hw (.sort keys) s) fun _ _ => rfl
    | slice offset length sub =>
      exact transcribed_of_map (ih sub (by simp [operands])) (compile_slice · · offset length sub)
        (fun ctx s _ => transcript_slice _ _ s) fun _ _ => rfl
    | distinct sub =>
      exact transcribed_of_map (ih sub (by simp [operands])) (compile_distinct · · sub)
        (fun ctx s _ => transcript_via _ _ s false) fun _ _ => rfl
    | reduced sub =>
      exact transcribed_of_map (ih sub (by simp [operands])) (compile_reduced · · sub)
        (fun ctx s _ => transcript_via _ _ s false) fun _ _ => rfl
    | group vars aggs sub =>
      exact transcribed_of_map (ih sub (by simp [operands])) (compile_group · · vars aggs sub)
        (fun ctx s hw => transcript_gather hw (.group vars aggs) s) fun _ _ => rfl
    | assign assignments sub =>
      exact transcribed_of_map (ih sub (by simp [operands])) (compile_assign · · assignments sub)
        (fun ctx s _ => transcript_via _ _ s false) fun _ _ => rfl
    | ext e => exact transcribed_ext e

end Op

/-- What one sees who drains a stage. -/
def Stage.drained (ctx : Context) (raised : Bool) (s : Stage) : Transcript where
  rows := (s.drain ctx raised).rows
  error := (s.drain ctx raised).error

namespace Context

/-- What one sees who compiles an operator over an input and drains it. -/
def shown (ctx : Context) (raised : Bool) (op : Op) (input : Stage) : Except PlanError Transcript :=
  (compile ctx op input).result.map (·.drained ctx raised)

variable {ctx : Context} {raised : Bool}

/-- A plan shows its transcript, unless it is stopped before it begins. -/
theorem shown_eq (hw : ctx.stopped raised = false) (op : Op) (input : Stage) :
    ctx.shown raised op input = op.transcript ctx (input.transcript raised) := by
  have hdrained (s : Stage) : s.drained ctx raised = s.transcript raised := by
    simp only [Stage.drained, Stage.drain, hw, Bool.false_eq_true, if_false, Stage.transcript]
  rw [shown, ← op.transcribed ctx input hw]
  simp only [hdrained]
  rfl

/-- A plan that is stopped before it begins shows no row. -/
theorem shown_stopped (hw : ctx.stopped raised = true) (op : Op) (input : Stage) :
    ctx.shown raised op input =
      (op.transcript ctx (input.transcript false)).map fun _ => Transcript.failure .cancelled := by
  have hdrained (s : Stage) : s.drained ctx raised = Transcript.failure .cancelled := by
    simp only [Stage.drained, Stage.drain, hw, if_true, Transcript.failure]
  have hlower : ctx.stopped false = false := Bool.and_false _
  rw [shown, ← op.transcribed ctx input hlower]
  simp only [hdrained, Compiled.transcript]
  cases (compile ctx op input).result <;> rfl

/-- The solutions of a plan are the rows of its transcript, if that comes to its end. -/
theorem solutions_eq_transcript (op : Op) (input : Stage) :
    ctx.solutions op input =
      (op.transcript ctx (input.transcript false)).bind Transcript.result := by
  have hw : ctx.stopped false = false := Bool.and_false _
  rw [← shown_eq hw, solutions, shown]
  cases (compile ctx op input).result with
  | ok s =>
    show (s.drain ctx false).result = (s.drained ctx false).result
    rfl
  | error e => rfl

/-- Plans with equal transcripts show the same. -/
theorem shown_congr {ctx' : Context} {op op' : Op} (hc : ctx.cancellable = ctx'.cancellable)
    (h : ∀ x, op.transcript ctx x = op'.transcript ctx' x) (raised : Bool) (input : Stage) :
    ctx.shown raised op input = ctx'.shown raised op' input := by
  have hstopped : ctx.stopped raised = ctx'.stopped raised := congrArg (· && raised) hc
  cases hw : ctx.stopped raised with
  | false => rw [shown_eq hw, shown_eq (hstopped.symm.trans hw), h]
  | true => rw [shown_stopped hw, shown_stopped (hstopped.symm.trans hw), h]

end Context

end SparqlAlgebra
