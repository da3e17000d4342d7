import SparqlAlgebra.Proofs.Op.Noticed
import SparqlAlgebra.Proofs.Op.Transcript

/-!
Operators rewritten from the bottom up. A rewriting that nobody notices at the top of an operator,
neither the one who runs it nor the classifier of joins, goes unnoticed at any depth.
-/

namespace SparqlAlgebra

namespace Op

mutual

/-- The operator after a change to all operators in it, the lower ones first. -/
def rewrite (f : Op → Op) : Op → Op
  | join l r => f (join (rewrite f l) (rewrite f r))
  | leftJoin l r exprs => f (leftJoin (rewrite f l) (rewrite f r) exprs)
  | union l r => f (union (rewrite f l) (rewrite f r))
  | diff l r => f (diff (rewrite f l) (rewrite f r))
  | conditional l r => f (conditional (rewrite f l) (rewrite f r))
  | filter exprs sub => f (filter exprs (rewrite f sub))
  | graph name sub => f (graph name (rewrite f sub))
  | service endpoint sub silent => f (service endpoint (rewrite f sub) silent)
  | procedure name args sub => f (procedure name args (rewrite f sub))
  | propFunc property subject object sub => f (propFunc property subject object (rewrite f sub))
  | sequence steps => f (sequence (rewriteSteps f steps))
  | label name sub => f (label name (rewrite f sub))
  | list sub => f (list (rewrite f sub))
  | project vars sub => f (project vars (rewrite f sub))
  | order keys sub => f (order keys (rewrite f sub))
  | slice offset length sub => f (slice offset length (rewrite f sub))
  | distinct sub => f (distinct (rewrite f sub))
  | reduced sub => f (reduced (rewrite f sub))
  | group vars aggs sub => f (group vars aggs (rewrite f sub))
  | assign assignments sub => f (assign assignments (rewrite f sub))
  | op => f op

def rewriteSteps (f : Op → Op) : List Op → List Op
  | [] => []
  | op :: rest => rewrite f op :: rewriteSteps f rest

end

/-- A change that neither a run nor the classifier notices. -/
structure Unnoticed (f : Op → Op) : Prop where
  scope : ∀ op, (f op).scope = op.scope
  blocks : ∀ op, (f op).core.blocksStreaming = op.core.blocksStreaming
  transcript : ∀ op ctx x, (f op).transcript ctx x = op.transcript ctx x

variable {f : Op → Op}

theorem rewriteSteps_eq_map (f : Op → Op) (steps : List Op) :
    rewriteSteps f steps = steps.map (rewrite f) := by
  induction steps with
  | nil => rfl
  | cons op rest ih => rw [rewriteSteps, ih, List.map_cons]

theorem scopeSteps_map {g : Op → Op} {steps : List Op} (h : ∀ op ∈ steps, (g op).scope = op.scope)
    (s : Scope) : scopeSteps s (steps.map g) = scopeSteps s steps := by
  induction steps generalizing s with
  | nil => rfl
  | cons op rest ih =>
    rw [List.map_cons, scopeSteps, scopeSteps, h op List.mem_cons_self]
    exact ih (fun o ho => h o (List.mem_cons_of_mem op ho)) _

/-- The classifier looks at the scope of an operator and at what is on top of it. -/
theorem linear_congr {op op' : Op} (hs : op'.scope = op.scope)
    (hb : op'.core.blocksStreaming = op.core.blocksStreaming) (vars : SortedSet Var) :
    linear vars op'.core = linear vars op.core := by
  unfold linear
  rw [hb, scope_core, scope_core, hs]

theorem joinStreams_congr {l l' r r' : Op} (hl : l'.scope = l.scope) (hr : r'.scope = r.scope)
    (hb : r'.core.blocksStreaming = r.core.blocksStreaming) :
    joinStreams l' r' = joinStreams l r := by
  unfold joinStreams
  rw [linear_congr hr hb, scope_core, scope_core, hl]

theorem leftJoinStreams_congr {l l' r r' : Op} (hl : l'.scope = l.scope) (hr : r'.scope = r.scope)
    (hb : r'.core.blocksStreaming = r.core.blocksStreaming) :
    leftJoinStreams l' r' = leftJoinStreams l r := by
  unfold leftJoinStreams
  simp only [linear_congr hr hb, scope_core, hl]

namespace Unnoticed

theorem scope_rewrite (h : Unnoticed f) (op : Op) : (op.rewrite f).scope = op.scope := by
  induction op using operands_induction with
  | step op ih =>
    cases op with
    | join l r | union l r | diff l r | conditional l r | leftJoin l r exprs =>
      rw [rewrite, h.scope, Op.scope, Op.scope, ih l (by simp [operands]),
        ih r (by simp [operands])]
    | sequence steps =>
      rw [rewrite, h.scope, rewriteSteps_eq_map]
      exact scopeSteps_map ih {}
    | label name sub | list sub | order keys sub | slice offset length sub | distinct sub
    | reduced sub | filter exprs sub | graph name sub | service endpoint sub silent
    | procedure name args sub | propFunc property subject object sub | project vars sub
    | assign assignments sub =>
      rw [rewrite, h.scope, Op.scope, Op.scope, ih sub (by simp [operands])]
    | _ => exact h.scope _

theorem blocks_rewrite (h : Unnoticed f) (op : Op) :
    (op.rewrite f).core.blocksStreaming = op.core.blocksStreaming := by
  induction op using operands_induction with
  | step op ih =>
    cases op with
    | label name sub | list sub =>
      rw [rewrite, h.blocks, core, core, ih sub (by simp [operands])]
    | _ => exact h.blocks _

theorem transcript_rewrite (h : Unnoticed f) (op : Op) (ctx : Context) (x : Transcript) :
    (op.rewrite f).transcript ctx x = op.transcript ctx x := by
  induction op using operands_induction generalizing ctx x with
  | step op ih =>
    cases op with
    -- A join streams after the rewriting if and only if it did before.
    | join l r =>
      have hstreams : Op.joinStreams (l.rewrite f) (r.rewrite f) = Op.joinStreams l r :=
        joinStreams_congr (h.scope_rewrite l) (h.scope_rewrite r) (h.blocks_rewrite r)
      simp only [rewrite, h.transcript, Op.transcript, hstreams, ih l (by simp [operands]),
        ih r (by simp [operands])]
    | leftJoin l r exprs =>
      have hstreams : Op.leftJoinStreams (l.rewrite f) (r.rewrite f) = Op.leftJoinStreams l r :=
        leftJoinStreams_congr (h.scope_rewrite l) (h.scope_rewrite r) (h.blocks_rewrite r)
      simp only [rewrite, h.transcript, Op.transcript, hstreams, ih l (by simp [operands]),
        ih r (by simp [operands])]
    | union l r | diff l r =>
      simp only [rewrite, h.transcript, Op.transcript, ih l (by simp [operands]),
        ih r (by simp [operands])]
    | sequence steps =>
      rw [rewrite, h.transcript, rewriteSteps_eq_map]
      exact transcript_sequence_map (fun op ho => ih op ho ctx) x
    | filter exprs sub | graph name sub | service endpoint sub silent | procedure name args sub
    | propFunc property subject object sub | label name sub | list sub | project vars sub
    | order keys sub | slice offset length sub | distinct sub | reduced sub | group vars aggs sub
    | assign assignments sub =>
      simp only [rewrite, h.transcript, Op.transcript, ih sub (by simp [operands])]
    | _ => exact h.transcript _ ctx x

/-- What nobody notices at the top of an operator, nobody notices anywhere in it. -/
theorem rewrite (h : Unnoticed f) : Unnoticed (Op.rewrite f) :=
  ⟨h.scope_rewrite, h.blocks_rewrite, h.transcript_rewrite⟩

end Unnoticed

end Op

end SparqlAlgebra
