import SparqlAlgebra.Proofs.Op.Rewritten

/-!
Operators without wrappers. Lists and labels around operators change how a plan is built, where a
nest of unions ends and what the classifier sees on top, but not what the plan shows.
-/

namespace SparqlAlgebra

open Transcript

namespace Op

mutual

/-- The operator without lists and without labels that have something below them, at any depth. -/
def bare : Op → Op
  | join l r => join (bare l) (bare r)
  | leftJoin l r exprs => leftJoin (bare l) (bare r) exprs
  | union l r => union (bare l) (bare r)
  | diff l r => diff (bare l) (bare r)
  | conditional l r => conditional (bare l) (bare r)
  | filter exprs sub => filter exprs (bare sub)
  | graph name sub => graph name (bare sub)
  | service endpoint sub silent => service endpoint (bare sub) silent
  | procedure name args sub => procedure name args (bare sub)
  | propFunc property subject object sub => propFunc property subject object (bare sub)
  | sequence steps => sequence (bareSteps steps)
  | label _ sub => bare sub
  | list sub => bare sub
  | project vars sub => project vars (bare sub)
  | order keys sub => order keys (bare sub)
  | slice offset length sub => slice offset length (bare sub)
  | distinct sub => distinct (bare sub)
  | reduced sub => reduced (bare sub)
  | group vars aggs sub => group vars aggs (bare sub)
  | assign assignments sub => assign assignments (bare sub)
  | op => op

def bareSteps : List Op → List Op
  | [] => []
  | op :: rest => bare op :: bareSteps rest

end

theorem bareSteps_eq_map (steps : List Op) : bareSteps steps = steps.map bare := by
  induction steps with
  | nil => rfl
  | cons op rest ih => rw [bareSteps, ih, List.map_cons]

/-- What is left of an operator without a list or a label on top. -/
def unwrap : Op → Op
  | label _ sub => sub
  | list sub => sub
  | op => op

theorem unnoticed_unwrap : Unnoticed unwrap where
  scope op := by cases op <;> rfl
  blocks op := by cases op <;> rfl
  transcript op ctx x := by cases op <;> simp only [unwrap, transcript]

theorem bare_eq_rewrite (op : Op) : op.bare = op.rewrite unwrap := by
  induction op using operands_induction with
  | step op ih =>
    cases op with
    | join l r | leftJoin l r exprs | union l r | diff l r | conditional l r =>
      rw [bare, ih l (by simp [operands]), ih r (by simp [operands])]
      rfl
    | sequence steps =>
      have hsteps : steps.map bare = steps.map (rewrite unwrap) := List.map_congr_left ih
      rw [bare, bareSteps_eq_map, hsteps, ← rewriteSteps_eq_map]
      rfl
    | label name sub | list sub | filter exprs sub | graph name sub | service endpoint sub silent
    | procedure name args sub | propFunc property subject object sub | project vars sub
    | order keys sub | slice offset length sub | distinct sub | reduced sub | group vars aggs sub
    | assign assignments sub =>
      rw [bare, ih sub (by simp [operands])]
      rfl
    | _ => rfl

theorem transcript_bare (op : Op) (ctx : Context) (x : Transcript) :
    op.bare.transcript ctx x = op.transcript ctx x := by
  rw [bare_eq_rewrite, unnoticed_unwrap.rewrite.transcript]

end Op

/-- Operators that differ in nothing but lists and labels show the same: they fail to compile with
the same error, or give the same rows up to the same failure or the end. -/
theorem Context.shown_bare {op op' : Op} (h : op.bare = op'.bare) (ctx : Context) (raised : Bool)
    (input : Stage) : ctx.shown raised op input = ctx.shown raised op' input := by
  refine shown_congr rfl (fun x => ?_) raised input
  calc op.transcript ctx x
    _ = op.bare.transcript ctx x := (op.transcript_bare ctx x).symm
    _ = op'.bare.transcript ctx x := congrArg (Op.transcript · ctx x) h
    _ = op'.transcript ctx x := op'.transcript_bare ctx x

theorem Context.shown_bare_union :
    let x : Op := .table (.ofRows [.single ⟨"x"⟩ (.iri "a"), .single ⟨"x"⟩ (.iri "b")])
    let y : Op := .table (.ofRows [.single ⟨"y"⟩ (.iri "c")])
    let failing : Op := .union x (.datasetNames (.var ⟨"g"⟩))
    let op : Op :=
      .join (.list x) (.label "outer" (.union (.list (.union y failing)) (.label "inner" x)))
    let op' : Op := .join x (.union (.union y failing) x)
    op.bare = op'.bare ∧
      (ofDataset {}).shown false op .root = (ofDataset {}).shown false op' .root := by
  intro x y failing op op'
  have h : op.bare = op'.bare := rfl
  exact ⟨h, shown_bare h _ false .root⟩

end SparqlAlgebra
