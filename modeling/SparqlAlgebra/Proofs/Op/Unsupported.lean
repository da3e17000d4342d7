import SparqlAlgebra.Proofs.Op.Everywhere
import SparqlAlgebra.Proofs.Stage.Attempts

/-!
Operators that cannot be compiled. A plan that contains one fails as soon as the part with it is
compiled: at once, where parts are compiled with the plan, and with the first row that arrives where
they are compiled for rows.
-/

namespace SparqlAlgebra

namespace Compiled

def Fails (c : Compiled) : Prop := ∃ e, c.result = .error e

variable {c : Compiled}

theorem not_fails_ok (s : Stage) (t : Tally) : ¬ Fails { result := .ok s, tally := t } := by
  rintro ⟨e, ⟨⟩⟩

theorem fails_error (e : PlanError) (t : Tally) : Fails { result := .error e, tally := t } :=
  ⟨e, rfl⟩

theorem fails_counted : c.counted.Fails ↔ c.Fails := Iff.rfl

theorem fails_map (f : Stage → Stage) : (c.map f).Fails ↔ c.Fails := by
  obtain ⟨e | s, tally⟩ := c
  · exact iff_of_true (fails_error e _) (fails_error e _)
  · exact iff_of_false (not_fails_ok _ _) (not_fails_ok s _)

/-- What comes second may fail over every stage or over none. -/
theorem fails_andThen {f : Stage → Compiled} {P : Prop} (h : ∀ s, (f s).Fails ↔ P) :
    (c.andThen f).Fails ↔ c.Fails ∨ P := by
  obtain ⟨e | s, tally⟩ := c
  · exact iff_of_true (fails_error e _) (.inl (fails_error e _))
  · have hs : (andThen { result := .ok s, tally } f).Fails ↔ (f s).Fails := Iff.rfl
    rw [hs, h s, or_iff_right (not_fails_ok s tally)]

theorem fails_applying (p : Except PlanError Procedure) :
    (c.applying p).Fails ↔ p.isOk = false ∨ c.Fails := by
  cases p with
  | error e => exact iff_of_true (fails_error e _) (.inl rfl)
  | ok p =>
    have hp : ¬ (Except.ok p : Except PlanError Procedure).isOk = false := Bool.noConfusion
    exact (fails_map _).trans (or_iff_right hp).symm

end Compiled

/-- Whether the extension can be evaluated in the context. -/
def Extension.works (e : Extension) (ctx : Context) : Bool :=
  match e.eval ctx with
  | .ok .input => true
  | .ok (.rows _) => true
  | _ => false

namespace Op

/-- Whether there is a plan for the operator at all, whatever is below it. -/
def supported : Op → Bool
  | quad q => q.graph.isNone
  | conditional .. => false
  | datasetNames _ => false
  | _ => true

mutual

/-- Whether something that has no plan is compiled together with the operator. The branches of
unions, what stands in graph and service clauses and what a left join streams is compiled later, for
rows that arrive. -/
def refused (ctx : Context) : Op → Bool
  | join l r => refused ctx l || refused ctx r
  | leftJoin l r _ =>
    refused ctx l || (!(ctx.config.streamedLeftJoins && leftJoinStreams l r) && refused ctx r)
  | diff l r => refused ctx l || refused ctx r
  | filter _ sub => refused ctx sub
  | procedure name args sub =>
    !(ctx.procedures.build name (.args args)).isOk || refused ctx sub
  | propFunc property subject object sub =>
    !(ctx.procedures.build property (.property subject object)).isOk || refused ctx sub
  | sequence steps => refusedSteps ctx steps
  | label _ sub => refused ctx sub
  | list sub => refused ctx sub
  | project _ sub => refused ctx sub
  | order _ sub => refused ctx sub
  | slice _ _ sub => refused ctx sub
  | distinct sub => refused ctx sub
  | reduced sub => refused ctx sub
  | group _ _ sub => refused ctx sub
  | assign _ sub => refused ctx sub
  | ext e => !e.works ctx
  | op => !op.supported

def refusedSteps (ctx : Context) : List Op → Bool
  | [] => false
  | op :: rest => refused ctx op || refusedSteps ctx rest

end

/-- The operator compiles over every input or over none, and over none if and only if it is
refused. -/
def Decided (op : Op) : Prop :=
  ∀ ctx input, (compile ctx op input).Fails ↔ op.refused ctx = true

variable {l r sub : Op}

theorem decided_of_ok {op : Op} {f : Context → Stage → Stage}
    (hc : ∀ ctx i, compile ctx op i = (Compiled.ok (f ctx i)).counted)
    (hr : ∀ ctx, op.refused ctx = false) : op.Decided := by
  intro ctx input
  rw [hc, hr]
  exact iff_of_false (Compiled.not_fails_ok _ _) Bool.false_ne_true

theorem decided_of_fail {op : Op} {e : PlanError}
    (hc : ∀ ctx i, compile ctx op i = (Compiled.fail e).counted)
    (hr : ∀ ctx, op.refused ctx = true) : op.Decided := by
  intro ctx input
  rw [hc, hr]
  exact iff_of_true (Compiled.fails_error e _) rfl

theorem decided_of_map {op : Op} (h : sub.Decided) {f : Context → Stage → Stage}
    (hc : ∀ ctx i, compile ctx op i = ((compile ctx sub i).map (f ctx)).counted)
    (hr : ∀ ctx, op.refused ctx = sub.refused ctx) : op.Decided := by
  intro ctx input
  rw [hc, hr, Compiled.fails_counted, Compiled.fails_map]
  exact h ctx input

theorem decided_of_applying {op : Op} (h : sub.Decided)
    {p : Procedures → Except PlanError Procedure}
    (hc : ∀ ctx i, compile ctx op i = ((compile ctx sub i).applying (p ctx.procedures)).counted)
    (hr : ∀ ctx, op.refused ctx = (!(p ctx.procedures).isOk || sub.refused ctx)) :
    op.Decided := by
  intro ctx input
  rw [hc, hr, Compiled.fails_counted, Compiled.fails_applying, h ctx input, Bool.or_eq_true,
    Bool.not_eq_true']

theorem decided_of_same {op : Op} (h : sub.Decided)
    (hc : ∀ ctx i, compile ctx op i = (compile ctx sub i).counted)
    (hr : ∀ ctx, op.refused ctx = sub.refused ctx) : op.Decided := by
  intro ctx input
  rw [hc, hr, Compiled.fails_counted]
  exact h ctx input

theorem decided_quad (q : QuadPattern) : (quad q).Decided := by
  obtain ⟨g, p⟩ := q
  cases g with
  | none => exact decided_of_ok (compile_quad_default · · p) fun _ => rfl
  | some g => exact decided_of_fail (compile_quad_graph · · g p) fun _ => rfl

theorem decided_join (hl : l.Decided) (hr : r.Decided) : (join l r).Decided := by
  intro ctx input
  rw [compile_join, Compiled.fails_counted, refused, Bool.or_eq_true, ← hl ctx input]
  refine Compiled.fails_andThen fun s => ?_
  split
  · exact hr ctx s
  · rw [Compiled.fails_map]
    exact hr ctx .root

theorem decided_leftJoin (hl : l.Decided) (hr : r.Decided) (exprs : Option (List Expr)) :
    (leftJoin l r exprs).Decided := by
  intro ctx input
  rw [compile_leftJoin, Compiled.fails_counted, refused, Bool.or_eq_true, ← hl ctx input]
  refine Compiled.fails_andThen fun s => ?_
  cases ctx.config.streamedLeftJoins && leftJoinStreams l r with
  | true => exact iff_of_false (Compiled.not_fails_ok _ _) Bool.false_ne_true
  | false => exact (Compiled.fails_map _).trans (hr ctx .root)

theorem decided_diff (hl : l.Decided) (hr : r.Decided) : (diff l r).Decided := by
  intro ctx input
  rw [compile_diff, Compiled.fails_counted, refused, Bool.or_eq_true, ← hl ctx input]
  exact Compiled.fails_andThen fun s => (Compiled.fails_map _).trans (hr ctx .root)

theorem decided_sequence {steps : List Op} (h : ∀ op ∈ steps, op.Decided) :
    (sequence steps).Decided := by
  intro ctx input
  rw [compile_sequence, Compiled.fails_counted, refused]
  induction steps generalizing input with
  | nil => exact iff_of_false (Compiled.not_fails_ok _ _) Bool.false_ne_true
  | cons op rest ih =>
    have hrest := ih fun o ho => h o (List.mem_cons_of_mem op ho)
    rw [compileSteps_cons, refusedSteps, Bool.or_eq_true, ← h op List.mem_cons_self ctx input]
    exact Compiled.fails_andThen hrest

theorem decided_ext (e : Extension) : (ext e).Decided := by
  intro ctx input
  rw [compile_ext, Compiled.fails_counted, refused, Extension.works, Extension.stage]
  rcases e.eval ctx with err | _ | _ | _
  · cases err <;> exact iff_of_true (Compiled.fails_error _ _) rfl
  · exact iff_of_false (Compiled.not_fails_ok _ _) Bool.false_ne_true
  · exact iff_of_false (Compiled.not_fails_ok _ _) Bool.false_ne_true
  · exact iff_of_true (Compiled.fails_error _ _) rfl

theorem decided (op : Op) : op.Decided := by
  induction op using operands_induction with
  | step op ih =>
    cases op with
    | bgp p => exact decided_of_ok (compile_bgp · · p) fun _ => rfl
    | triple t => exact decided_of_ok (compile_triple · · t) fun _ => rfl
    | quad q => exact decided_quad q
    | path p => exact decided_of_ok (compile_path · · p) fun _ => rfl
    | join l r => exact decided_join (ih l (by simp [operands])) (ih r (by simp [operands]))
    | leftJoin l r exprs =>
      exact decided_leftJoin (ih l (by simp [operands])) (ih r (by simp [operands])) exprs
    | union l r => exact decided_of_ok (compile_union · · l r) fun _ => rfl
    | diff l r => exact decided_diff (ih l (by simp [operands])) (ih r (by simp [operands]))
    | conditional l r => exact decided_of_fail (compile_conditional · · l r) fun _ => rfl
    | filter exprs sub =>
      exact decided_of_map (ih sub (by simp [operands])) (compile_filter · · exprs sub) fun _ => rfl
    | graph name sub => exact decided_of_ok (compile_graph · · name sub) fun _ => rfl
    | service endpoint sub silent =>
      exact decided_of_ok (compile_service · · endpoint sub silent) fun _ => rfl
    | procedure name args sub =>
      exact decided_of_applying (p := fun q => q.build name (.args args))
        (ih sub (by simp [operands])) (compile_procedure · · name args sub) fun _ => rfl
    | propFunc property subject object sub =>
      exact decided_of_applying (p := fun q => q.build property (.property subject object))
        (ih sub (by simp [operands])) (compile_propFunc · · property subject object sub)
        fun _ => rfl
    | datasetNames g => exact decided_of_fail (compile_datasetNames · · g) fun _ => rfl
    | table t => exact decided_of_ok (compile_table · · t) fun _ => rfl
    | sequence steps => exact decided_sequence ih
    | marker name => exact decided_of_ok (compile_marker · · name) fun _ => rfl
    | label name sub =>
      exact decided_of_same (ih sub (by simp [operands])) (compile_label · · name sub) fun _ => rfl
    | list sub =>
      exact decided_of_same (ih sub (by simp [operands])) (compile_list · · sub) fun _ => rfl
    | null =>
      exact fun ctx input => iff_of_false (Compiled.not_fails_ok _ _) Bool.false_ne_true
    | project vars sub =>
      exact decided_of_map (ih sub (by simp [operands])) (compile_project · · vars sub) fun _ => rfl
    | order keys sub =>
      exact decided_of_map (ih sub (by simp [operands])) (compile_order · · keys sub) fun _ => rfl
    | slice offset length sub =>
      exact decided_of_map (ih sub (by simp [operands])) (compile_slice · · offset length sub)
        fun _ => rfl
    | distinct sub =>
      exact decided_of_map (ih sub (by simp [operands])) (compile_distinct · · sub) fun _ => rfl
    | reduced sub =>
      exact decided_of_map (ih sub (by simp [operands])) (compile_reduced · · sub) fun _ => rfl
    | group vars aggs sub =>
      exact decided_of_map (ih sub (by simp [operands])) (compile_group · · vars aggs sub)
        fun _ => rfl
    | assign assignments sub =>
      exact decided_of_map (ih sub (by simp [operands])) (compile_assign · · assignments sub)
        fun _ => rfl
    | ext e => exact decided_ext e

end Op

/-- The parts that are compiled for a query: the whole of it, and whatever its run compiles outside
of silent services. -/
inductive Context.Compiles (ctx : Context) (op : Op) : Seeded → Prop where
  | whole : Compiles ctx op { op, seed := ∅, ctx }
  | part {s t : Stage} {a : Attempt} : (compile ctx op .root).result = .ok s → s.Reaches t →
    t.attempt false = some a → a.silent = false → Compiles ctx op a.part

namespace Context

variable {ctx : Context} {op : Op}

theorem execute_of_error {e : PlanError} (h : (compile ctx op .root).result = .error e) :
    ctx.execute op = .error e := by
  simp [execute, answer, Cursor.start, stopped, h, Except.map]

theorem execute_of_ok {s : Stage} (h : (compile ctx op .root).result = .ok s) :
    ctx.execute op = (s.run false).result := by
  simp [execute, answer, Cursor.start, stopped, h, Except.map, Run.result]

theorem execute_of_emits {s : Stage} {l : List Binding}
    (hs : (compile ctx op .root).result = .ok s) (hl : s.Emits false l none) :
    ctx.execute op = .ok l := by
  obtain ⟨hrows, herror⟩ := hl.run [] {}
  rw [execute_of_ok hs, Run.result, herror, hrows]
  rfl

/-- A query fails if anything unsupported is compiled for it. Only a silent service hides a failure,
and its part does not count as compiled; an extension is assumed to pass on the failures of its input
if it reads any of it. -/
theorem execute_fails {p : Seeded} (h : ctx.Compiles op p) (hp : p.op.refused p.ctx = true) :
    ∃ e, ctx.execute op = .error e := by
  cases h with
  | whole =>
    obtain ⟨e, he⟩ := (Op.decided op ctx .root).2 hp
    exact ⟨e, execute_of_error he⟩
  | @part s t a hs ht ha hloud =>
    obtain ⟨e, he⟩ := (Op.decided a.part.op a.part.ctx (.rows [a.part.seed])).2 hp
    have herror : (s.run false).error = some e := ht.error ha hloud he
    exact ⟨e, by rw [execute_of_ok hs, Run.result, herror]⟩

/-- The second branch of the union is compiled after the first one has given its row, in the named
graph. -/
theorem execute_fails_graph :
    let g : Term := .iri "g"
    let ctx : Context := ofDataset { default := {}, named := .ofList [(g, {})] }
    let sub : Op := .filter [] (.sequence [.bgp [], .conditional .null .null])
    let op : Op := .distinct (.union (.bgp []) (.graph (.var ⟨"x"⟩) sub))
    op.refused ctx = false ∧
      ctx.Compiles op { op := sub, seed := .single ⟨"x"⟩ g, ctx := { ctx with graph := {} } } ∧
      ∃ e, ctx.execute op = .error e := by
  intro g ctx sub op
  let p : Seeded := { op := sub, seed := .single ⟨"x"⟩ g, ctx := { ctx with graph := {} } }
  let rule : Expansion := .union [.bgp [], .graph (.var ⟨"x"⟩) sub] ctx
  let s : Stage := .via (.distinct []) ctx.functions (.each rule .root) false
  let t : Stage := .via (.distinct [∅]) ctx.functions
    (.eachOf rule (.rows [])
      (.chainOf [] (.eachOf (.graph (.var ⟨"x"⟩) sub ctx) (.rows []) (.chain [p])))) false
  have hreach : s.Reaches t := by
    refine .silent ⟨rfl, rfl⟩ (.silent ⟨rfl, rfl⟩ (.row ⟨rfl, rfl⟩ ?_))
    -- The first branch has ended, and the second one finds the only named graph.
    exact .silent ⟨rfl, rfl⟩ (.silent ⟨rfl, rfl⟩ (.silent ⟨rfl, rfl⟩ (.refl t)))
  have hs : (compile ctx op .root).result = .ok s := rfl
  have hcompiles : ctx.Compiles op p := .part (a := { part := p }) hs hreach rfl rfl
  exact ⟨rfl, hcompiles, execute_fails hcompiles rfl⟩

/-- A limit may be reached before the branch with the unsupported operator is, and a silent service
gives back the row for which its part cannot be compiled. -/
theorem execute_unsupported :
    (let op : Op := .slice none (some 1) (.union (.bgp []) (.conditional .null .null))
     op.everywhere Op.supported = false ∧ (ofDataset {}).execute op = .ok [∅]) ∧
      let ctx : Context := { ofDataset {} with services := some (.ofList [("s", {})]) }
      let op : Op := .service (.term (.iri "s")) (.datasetNames (.var ⟨"g"⟩)) true
      op.everywhere Op.supported = false ∧ ctx.execute op = .ok [∅] := by
  refine ⟨⟨rfl, ?_⟩, rfl, ?_⟩
  · refine execute_of_emits rfl ?_
    exact .silent ⟨rfl, rfl⟩ (.silent ⟨rfl, rfl⟩ (.row ⟨rfl, rfl⟩ (.finished ⟨rfl, rfl⟩)))
  · refine execute_of_emits rfl ?_
    exact .silent ⟨rfl, rfl⟩ (.row ⟨rfl, rfl⟩ (.silent ⟨rfl, rfl⟩ (.finished ⟨rfl, rfl⟩)))

end Context

end SparqlAlgebra
