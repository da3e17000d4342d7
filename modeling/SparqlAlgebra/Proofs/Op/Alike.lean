import SparqlAlgebra.Plan.Step
import SparqlAlgebra.Proofs.Op.Everywhere

/-!
Plans under two configurations. Where both decide alike, the stages that they build differ in nothing
but the configuration that their contexts hold, and so do the stages that these build in turn.
-/

namespace SparqlAlgebra

/-- The context under another configuration. -/
def Context.under (ctx : Context) (c : Config) : Context := { ctx with config := c }

namespace Op

/-- Whether two configurations decide alike wherever they are asked about the operator or something
below it. An extension may ask for anything. -/
def alike (c d : Config) (op : Op) : Bool :=
  op.everywhere fun
    | join l r => (c.streamedJoins && joinStreams l r) == (d.streamedJoins && joinStreams l r)
    | leftJoin l r _ =>
      (c.streamedLeftJoins && leftJoinStreams l r) == (d.streamedLeftJoins && leftJoinStreams l r)
    | reduced _ => c.reducedWindow == d.reducedWindow
    | ext _ => false
    | _ => true

variable {c d : Config} {op : Op}

theorem alike_filtered (h : op.alike c d = true) (exprs : Option (List Expr)) :
    (op.filtered exprs).alike c d = true := by
  rcases exprs with _ | _ | ⟨e, es⟩
  · exact h
  · exact h
  · exact h

end Op

section

variable (c d : Config)

/-- The same operator over the same row, in contexts that differ in the configuration alone. -/
inductive Seeded.Alike : Seeded → Seeded → Prop where
  | intro {op : Op} (seed : Binding) (ctx : Context) : op.alike c d = true →
    Alike { op, seed, ctx := ctx.under c } { op, seed, ctx := ctx.under d }

inductive Expansion.Alike : Expansion → Expansion → Prop where
  | triple (t : TriplePattern) (g : Graph) : Alike (.triple t g) (.triple t g)
  | path (p : PathPattern) (g : Graph) : Alike (.path p g) (.path p g)
  | procedure (p : Procedure) (earlier : List Binding) :
    Alike (.procedure p earlier) (.procedure p earlier)
  | union {branches : List Op} (ctx : Context) : (∀ op ∈ branches, op.alike c d = true) →
    Alike (.union branches (ctx.under c)) (.union branches (ctx.under d))
  | graph (name : Slot) {sub : Op} (ctx : Context) : sub.alike c d = true →
    Alike (.graph name sub (ctx.under c)) (.graph name sub (ctx.under d))
  | service (endpoint : Slot) {sub : Op} (silent : Bool) (ctx : Context) : sub.alike c d = true →
    Alike (.service endpoint sub silent (ctx.under c)) (.service endpoint sub silent (ctx.under d))

/-- Stages that differ in nothing but the configuration in their contexts. The input of a plan may
hold contexts of its own, which are the same on both sides. -/
inductive Stage.Alike : Stage → Stage → Prop where
  | refl (s : Stage) : Alike s s
  | each {rule rule' : Expansion} {input input' : Stage} : rule.Alike c d rule' →
    Alike input input' → Alike (.each rule input) (.each rule' input')
  | eachOf {rule rule' : Expansion} {input input' current current' : Stage} :
    rule.Alike c d rule' → Alike input input' → Alike current current' →
    Alike (.eachOf rule input current) (.eachOf rule' input' current')
  | eachHeld {rule rule' : Expansion} {input input' held held' : Stage} (ctx : Context)
    (row : Binding) (acc : List Binding) :
    rule.Alike c d rule' → Alike input input' → Alike held held' →
    Alike (.eachHeld rule (ctx.under c) input row held acc)
      (.eachHeld rule' (ctx.under d) input' row held' acc)
  | chain {pending pending' : List Seeded} : List.Forall₂ (Seeded.Alike c d) pending pending' →
    Alike (.chain pending) (.chain pending')
  | chainOf {pending pending' : List Seeded} {current current' : Stage} :
    List.Forall₂ (Seeded.Alike c d) pending pending' → Alike current current' →
    Alike (.chainOf pending current) (.chainOf pending' current')
  | pair {left left' right right' : Stage} (rule : Pairing) (ctx : Context)
    (loaded : Option (List Binding)) (queue : List Binding) :
    Alike left left' → Alike right right' →
    Alike (.pair rule (ctx.under c) left right loaded queue)
      (.pair rule (ctx.under d) left' right' loaded queue)
  | pairLoad {left left' right right' : Stage} (rule : Pairing) (ctx : Context) (row : Binding)
    (acc : List Binding) : Alike left left' → Alike right right' →
    Alike (.pairLoad rule (ctx.under c) left right row acc)
      (.pairLoad rule (ctx.under d) left' right' row acc)
  | optional {part : Op} {left left' : Stage} (ctx : Context) : part.alike c d = true →
    Alike left left' → Alike (.optional part (ctx.under c) left) (.optional part (ctx.under d) left')
  | optionalOf {part : Op} {left left' current current' : Stage} (ctx : Context) (seed : Binding)
    (found : Bool) : part.alike c d = true → Alike left left' → Alike current current' →
    Alike (.optionalOf part (ctx.under c) left seed current found)
      (.optionalOf part (ctx.under d) left' seed current' found)
  | gather {input input' : Stage} (rule : Gathering) (ctx : Context) (acc : List Binding) :
    Alike input input' →
    Alike (.gather rule (ctx.under c) input acc) (.gather rule (ctx.under d) input' acc)
  | gathered {input input' : Stage} (rest : List Binding) : Alike input input' →
    Alike (.gathered input rest) (.gathered input' rest)
  | slice {input input' : Stage} (skip : Nat) (limit : Option Nat) : Alike input input' →
    Alike (.slice input skip limit) (.slice input' skip limit)
  | via {input input' : Stage} (rule : RowRule) (fs : Functions) (closed : Bool) :
    Alike input input' → Alike (.via rule fs input closed) (.via rule fs input' closed)

end

namespace Stage

variable {c d : Config} {s t : Stage}

theorem Alike.isRoot (h : s.Alike c d t) : s.isRoot = t.isRoot := by
  cases h <;> rfl

theorem Alike.closes (h : s.Alike c d t) : s.closes = t.closes := by
  induction h with
  | refl s => rfl
  | chain _ => rfl
  | via rule fs closed _ ih =>
    cases closed with
    | false => exact ih
    | true => rfl
  | _ => simp only [Stage.closes, *]

theorem Alike.closeTally (h : s.Alike c d t) : s.closeTally = t.closeTally :=
  congrArg (fun n => ({ closes := n } : Tally)) h.closes

theorem Alike.close (h : s.Alike c d t) : s.close.Alike c d t.close := by
  induction h with
  | refl s => exact .refl _
  | via rule fs closed h ih =>
    cases closed with
    | false => exact .via _ fs true ih
    | true => exact .via rule fs true h
  | _ => exact .refl _

end Stage

namespace Compiled

variable {c d : Config}

/-- The same failure, or stages that are alike, at the same cost. -/
inductive Alike (c d : Config) : Compiled → Compiled → Prop where
  | ok {s t : Stage} (tally : Tally) : s.Alike c d t →
    Alike c d { result := .ok s, tally } { result := .ok t, tally }
  | error (e : PlanError) (tally : Tally) :
    Alike c d { result := .error e, tally } { result := .error e, tally }

variable {x y : Compiled}

theorem Alike.map {f g : Stage → Stage} (h : x.Alike c d y)
    (hf : ∀ s t, s.Alike c d t → (f s).Alike c d (g t)) : (x.map f).Alike c d (y.map g) := by
  cases h with
  | ok tally h => exact .ok _ (hf _ _ h)
  | error e tally => exact .error e _

theorem Alike.spend (h : x.Alike c d y) (cost : Tally) :
    Alike c d { x with tally := cost + x.tally } { y with tally := cost + y.tally } := by
  cases h with
  | ok tally h => exact .ok _ h
  | error e tally => exact .error e _

theorem Alike.counted (h : x.Alike c d y) : x.counted.Alike c d y.counted := h.spend _

theorem Alike.andThen {f g : Stage → Compiled} (h : x.Alike c d y)
    (hf : ∀ s t, s.Alike c d t → (f s).Alike c d (g t)) :
    (x.andThen f).Alike c d (y.andThen g) := by
  cases h with
  | ok tally h => exact (hf _ _ h).spend tally
  | error e tally => exact .error e _

theorem Alike.applying (h : x.Alike c d y) (p : Except PlanError Procedure) :
    (x.applying p).Alike c d (y.applying p) := by
  cases p with
  | error e => exact .error e _
  | ok p => exact h.map fun s t hs => .each (.procedure p []) hs

end Compiled

namespace Op

open Stage

variable {c d : Config} {i j : Stage}

theorem alike_pattern (p : BasicPattern) (g : Graph) (h : i.Alike c d j) :
    (p.stage g i).Alike c d (p.stage g j) := by
  induction p generalizing i j with
  | nil => exact h
  | cons t p ih => exact ih (.each (.triple t g) h)

theorem alike_filters (fs : Functions) (exprs : List Expr) (h : i.Alike c d j) :
    (exprs.foldl (fun s e => Stage.via (.filter e) fs s false) i).Alike c d
      (exprs.foldl (fun s e => Stage.via (.filter e) fs s false) j) := by
  induction exprs generalizing i j with
  | nil => exact h
  | cons e exprs ih => exact ih (.via _ fs false h)

theorem alike_table (t : Table) (ctx : Context) (h : i.Alike c d j) :
    (t.stage (ctx.under c) i).Alike c d (t.stage (ctx.under d) j) := by
  unfold Table.stage
  rw [h.isRoot]
  split
  · exact h
  · split
    · exact .refl _
    · exact .pair .inner ctx none [] h (.refl _)

/-- Compiled under both configurations, the operator gives stages that are alike. -/
def Parallel (c d : Config) (op : Op) : Prop :=
  ∀ (ctx : Context) i j, i.Alike c d j →
    (compile (ctx.under c) op i).Alike c d (compile (ctx.under d) op j)

theorem parallel_join {l r : Op} (hl : l.Parallel c d) (hr : r.Parallel c d)
    (h : (c.streamedJoins && joinStreams l r) = (d.streamedJoins && joinStreams l r)) :
    (join l r).Parallel c d := by
  intro ctx i j hi
  rw [compile_join, compile_join]
  refine Compiled.Alike.counted ((hl ctx i j hi).andThen fun s t hs => ?_)
  have hc : ((ctx.under c).config.streamedJoins && joinStreams l r) =
      ((ctx.under d).config.streamedJoins && joinStreams l r) := h
  rw [hc]
  split
  · exact hr ctx s t hs
  · exact (hr ctx _ _ (.refl _)).map fun u v hu => .pair .inner ctx none [] hs hu

theorem parallel_leftJoin {l r : Op} (hl : l.Parallel c d) (hr : r.Parallel c d)
    (hpart : r.alike c d = true) (exprs : Option (List Expr))
    (h : (c.streamedLeftJoins && leftJoinStreams l r) =
      (d.streamedLeftJoins && leftJoinStreams l r)) :
    (leftJoin l r exprs).Parallel c d := by
  intro ctx i j hi
  rw [compile_leftJoin, compile_leftJoin]
  refine Compiled.Alike.counted ((hl ctx i j hi).andThen fun s t hs => ?_)
  have hc : ((ctx.under c).config.streamedLeftJoins && leftJoinStreams l r) =
      ((ctx.under d).config.streamedLeftJoins && leftJoinStreams l r) := h
  rw [hc]
  split
  · exact .ok _ (.optional ctx (alike_filtered hpart exprs) hs)
  · exact (hr ctx _ _ (.refl _)).map fun u v hu => .pair _ ctx none [] hs hu

theorem parallel_sequence {steps : List Op} (h : ∀ op ∈ steps, op.Parallel c d) :
    (sequence steps).Parallel c d := by
  intro ctx i j hi
  rw [compile_sequence, compile_sequence]
  suffices hs : (compileSteps (ctx.under c) steps i).Alike c d (compileSteps (ctx.under d) steps j)
    from hs.counted
  induction steps generalizing i j with
  | nil => exact .ok _ hi
  | cons op rest ih =>
    rw [compileSteps_cons, compileSteps_cons]
    refine (h op List.mem_cons_self ctx i j hi).andThen fun s t hs => ?_
    exact ih (fun o ho => h o (List.mem_cons_of_mem op ho)) s t hs

theorem parallel_of_map {op sub : Op} (h : sub.Parallel c d) {f : Context → Stage → Stage}
    (hc : ∀ ctx i, compile ctx op i = ((compile ctx sub i).map (f ctx)).counted)
    (hf : ∀ (ctx : Context) s t, s.Alike c d t →
      (f (ctx.under c) s).Alike c d (f (ctx.under d) t)) : op.Parallel c d := by
  intro ctx i j hi
  rw [hc, hc]
  exact ((h ctx i j hi).map (hf ctx)).counted

theorem parallel_of_applying {op sub : Op} (h : sub.Parallel c d)
    {p : Procedures → Except PlanError Procedure}
    (hc : ∀ ctx i, compile ctx op i = ((compile ctx sub i).applying (p ctx.procedures)).counted) :
    op.Parallel c d := by
  intro ctx i j hi
  rw [hc, hc]
  exact ((h ctx i j hi).applying _).counted

theorem parallel_of_same {op sub : Op} (h : sub.Parallel c d)
    (hc : ∀ ctx i, compile ctx op i = (compile ctx sub i).counted) : op.Parallel c d := by
  intro ctx i j hi
  rw [hc, hc]
  exact (h ctx i j hi).counted

theorem parallel_of_ok {op : Op} {f : Context → Stage → Stage}
    (hc : ∀ ctx i, compile ctx op i = (Compiled.ok (f ctx i)).counted)
    (hf : ∀ (ctx : Context) s t, s.Alike c d t →
      (f (ctx.under c) s).Alike c d (f (ctx.under d) t)) : op.Parallel c d := by
  intro ctx i j hi
  rw [hc, hc]
  exact .ok _ (hf ctx i j hi)

theorem parallel_of_fail {op : Op} {e : PlanError}
    (hc : ∀ ctx i, compile ctx op i = (Compiled.fail e).counted) : op.Parallel c d := by
  intro ctx i j hi
  rw [hc, hc]
  exact .error e _

theorem parallel_quad (q : QuadPattern) : (quad q).Parallel c d := by
  obtain ⟨g, p⟩ := q
  cases g with
  | none => exact parallel_of_ok (compile_quad_default · · p) fun _ _ _ => alike_pattern p _
  | some g => exact parallel_of_fail (compile_quad_graph · · g p)

theorem parallel_diff {l r : Op} (hl : l.Parallel c d) (hr : r.Parallel c d) :
    (diff l r).Parallel c d := by
  intro ctx i j hi
  refine Compiled.Alike.counted ((hl ctx i j hi).andThen fun s t hs => ?_)
  exact (hr ctx _ _ (.refl _)).map fun u v hu => .pair .minus ctx none [] hs hu

theorem parallel_null : null.Parallel c d := by
  intro ctx i j hi
  rw [compile_null, compile_null, hi.closeTally]
  exact .ok _ (.refl _)

theorem parallel_reduced {sub : Op} (h : sub.Parallel c d)
    (hw : c.reducedWindow = d.reducedWindow) : (reduced sub).Parallel c d := by
  refine parallel_of_map h (compile_reduced · · sub) fun ctx s t hs => ?_
  have hc : (ctx.under c).config.reducedWindow = (ctx.under d).config.reducedWindow := hw
  rw [hc]
  exact .via _ _ _ hs

theorem parallel (op : Op) (h : op.alike c d = true) : op.Parallel c d := by
  induction op using operands_induction with
  | step op ih =>
    have part (sub : Op) (hs : sub ∈ op.operands) : sub.alike c d = true :=
      everywhere_of_mem_operands h hs
    have below (sub : Op) (hs : sub ∈ op.operands) : sub.Parallel c d := ih sub hs (part sub hs)
    have hself := everywhere_self h
    cases op with
    | bgp p => exact parallel_of_ok (compile_bgp · · p) fun _ _ _ => alike_pattern p _
    | triple t => exact parallel_of_ok (compile_triple · · t) fun _ _ _ => .each (.triple t _)
    | quad q => exact parallel_quad q
    | path p => exact parallel_of_ok (compile_path · · p) fun _ _ _ => .each (.path p _)
    | join l r =>
      exact parallel_join (below l (by simp [operands])) (below r (by simp [operands]))
        (beq_iff_eq.1 hself)
    | leftJoin l r exprs =>
      exact parallel_leftJoin (below l (by simp [operands])) (below r (by simp [operands]))
        (part r (by simp [operands])) exprs (beq_iff_eq.1 hself)
    | union l r =>
      refine parallel_of_ok (compile_union · · l r) fun ctx s t => .each (.union ctx ?_)
      exact fun b hb => part b (List.mem_cons_of_mem l (List.mem_cons_of_mem r hb))
    | diff l r => exact parallel_diff (below l (by simp [operands])) (below r (by simp [operands]))
    | conditional l r => exact parallel_of_fail (compile_conditional · · l r)
    | filter exprs sub =>
      exact parallel_of_map (below sub (by simp [operands])) (compile_filter · · exprs sub)
        fun _ _ _ => alike_filters _ exprs
    | graph name sub =>
      exact parallel_of_ok (compile_graph · · name sub)
        fun ctx _ _ => .each (.graph name ctx (part sub (by simp [operands])))
    | service endpoint sub silent =>
      exact parallel_of_ok (compile_service · · endpoint sub silent)
        fun ctx _ _ => .each (.service endpoint silent ctx (part sub (by simp [operands])))
    | procedure name args sub =>
      exact parallel_of_applying (p := fun q => q.build name (.args args))
        (below sub (by simp [operands])) (compile_procedure · · name args sub)
    | propFunc property subject object sub =>
      exact parallel_of_applying (p := fun q => q.build property (.property subject object))
        (below sub (by simp [operands])) (compile_propFunc · · property subject object sub)
    | datasetNames g => exact parallel_of_fail (compile_datasetNames · · g)
    | table t => exact parallel_of_ok (compile_table · · t) fun ctx _ _ => alike_table t ctx
    | sequence steps => exact parallel_sequence below
    | marker name => exact parallel_of_ok (compile_marker · · name) fun _ _ _ hs => hs
    | label name sub =>
      exact parallel_of_same (below sub (by simp [operands])) (compile_label · · name sub)
    | list sub => exact parallel_of_same (below sub (by simp [operands])) (compile_list · · sub)
    | null => exact parallel_null
    | project vars sub =>
      exact parallel_of_map (below sub (by simp [operands])) (compile_project · · vars sub)
        fun _ _ _ => .via _ _ _
    | order keys sub =>
      exact parallel_of_map (below sub (by simp [operands])) (compile_order · · keys sub)
        fun ctx _ _ => .gather _ ctx _
    | slice offset length sub =>
      exact parallel_of_map (below sub (by simp [operands])) (compile_slice · · offset length sub)
        fun _ _ _ => .slice _ _
    | distinct sub =>
      exact parallel_of_map (below sub (by simp [operands])) (compile_distinct · · sub)
        fun _ _ _ => .via _ _ _
    | reduced sub =>
      exact parallel_reduced (below sub (by simp [operands])) (beq_iff_eq.1 hself)
    | group vars aggs sub =>
      exact parallel_of_map (below sub (by simp [operands])) (compile_group · · vars aggs sub)
        fun ctx _ _ => .gather _ ctx _
    | assign assignments sub =>
      exact parallel_of_map (below sub (by simp [operands])) (compile_assign · · assignments sub)
        fun _ _ _ => .via _ _ _
    | ext e => cases hself

end Op

end SparqlAlgebra
