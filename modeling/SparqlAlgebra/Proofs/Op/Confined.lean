import SparqlAlgebra.Proofs.Op.Transcript

/-!
Plans that stay in one graph. An operator without graph clauses, services, procedures and extensions
reads nothing of a dataset but the active graph.
-/

namespace SparqlAlgebra

open Transcript

namespace Op

/-- Whether nothing in the operator leaves the active graph or comes from outside. -/
def confined (op : Op) : Bool :=
  op.everywhere fun
    | graph .. | service .. | procedure .. | propFunc .. | ext _ => false
    | _ => true

/-- The dataset around the active graph does not show. -/
theorem transcript_confined {op : Op} (h : op.confined = true) (ctx : Context) (d : Dataset)
    (x : Transcript) : op.transcript { ctx with dataset := d } x = op.transcript ctx x := by
  induction op using operands_induction generalizing x with
  | step op ih =>
    have below (sub : Op) (hs : sub ∈ op.operands) (x : Transcript) :
        sub.transcript { ctx with dataset := d } x = sub.transcript ctx x :=
      ih sub hs (everywhere_of_mem_operands h hs) x
    have hself := everywhere_self h
    cases op with
    | join l r =>
      simp only [transcript, below l (by simp [operands]), below r (by simp [operands])]
    | leftJoin l r exprs =>
      simp only [transcript, below l (by simp [operands]), below r (by simp [operands])]
    | union l r =>
      simp only [transcript, below l (by simp [operands]), below r (by simp [operands])]
    | diff l r =>
      simp only [transcript, below l (by simp [operands]), below r (by simp [operands])]
    | sequence steps =>
      have hsteps := transcript_sequence_map (f := id) below x
      rwa [List.map_id] at hsteps
    | filter exprs sub => simp only [transcript, below sub (by simp [operands])]
    | label name sub => simp only [transcript, below sub (by simp [operands])]
    | list sub => simp only [transcript, below sub (by simp [operands])]
    | project vars sub => simp only [transcript, below sub (by simp [operands])]
    | order keys sub => simp only [transcript, below sub (by simp [operands])]
    | slice offset length sub => simp only [transcript, below sub (by simp [operands])]
    | distinct sub => simp only [transcript, below sub (by simp [operands])]
    | reduced sub => simp only [transcript, below sub (by simp [operands])]
    | group vars aggs sub => simp only [transcript, below sub (by simp [operands])]
    | assign assignments sub => simp only [transcript, below sub (by simp [operands])]
    | graph name sub => cases hself
    | service endpoint sub silent => cases hself
    | procedure name args sub => cases hself
    | propFunc property subject object sub => cases hself
    | ext e => cases hself
    | _ => rfl

/-- A graph clause over a graph that is there runs its part in that graph, row by row. -/
theorem transcript_graph {ctx : Context} {name : Term} {g : Graph}
    (hg : ctx.dataset.named.get? name = some g) (sub : Op) (x : Transcript) :
    (graph (.term name) sub).transcript ctx x =
      .ok (x.forEach fun b =>
        ofPlan (sub.transcript { ctx with graph := g } { rows := [b] })) := by
  have hseeds (b : Binding) : ctx.dataset.seeds (.term name) b = [(b, g)] := by
    simp [Dataset.seeds, Slot.resolve, hg]
  simp only [transcript, hseeds, List.map_cons, List.map_nil, concat_cons]
  exact congrArg (fun f => Except.ok (x.forEach f)) (funext fun b => andThen_nil _)

end Op

/-- A graph clause shows the same over two datasets that hold the named graph with the same triples,
whatever else they hold and whichever graph is active around it. -/
theorem Context.shown_confined {op : Op} (h : op.confined = true) {d d' : Dataset} {name : Term}
    {g g' : Graph} (hd : d.named.get? name = some g) (hd' : d'.named.get? name = some g')
    (hg : ∀ t, t ∈ g ↔ t ∈ g') (ctx : Context) (active active' : Graph) (raised : Bool)
    (input : Stage) :
    shown { ctx with dataset := d, graph := active } raised (.graph (.term name) op) input =
      shown { ctx with dataset := d', graph := active' } raised (.graph (.term name) op) input := by
  obtain rfl : g = g' := SortedSet.ext_iff.2 hg
  -- In the named graph both contexts differ in nothing but the dataset around it.
  have hpart (x : Transcript) :
      op.transcript { ctx with dataset := d, graph := g } x =
        op.transcript { ctx with dataset := d', graph := g } x :=
    (Op.transcript_confined h { ctx with graph := g } d x).trans
      (Op.transcript_confined h { ctx with graph := g } d' x).symm
  apply shown_congr
  · rfl
  · intro x
    rw [Op.transcript_graph hd, Op.transcript_graph hd']
    simp only [hpart]

theorem Context.shown_confined_optional :
    let t : Triple := ⟨.iri "a", .iri "p", .iri "b"⟩
    let d := ({} : Dataset).addNamedTriple (.iri "g") t
    let d' := (d.addTriple ⟨.iri "a", .iri "q", .iri "c"⟩).addNamedTriple (.iri "h") t
    let op : Op := .leftJoin (.bgp [⟨.var ⟨"x"⟩, .term (.iri "p"), .var ⟨"y"⟩⟩])
      (.bgp [⟨.var ⟨"x"⟩, .term (.iri "q"), .var ⟨"z"⟩⟩]) none
    let g : Graph := SortedSet.ofList [t]
    op.confined = true ∧ d.named.get? (.iri "g") = some g ∧ d'.named.get? (.iri "g") = some g ∧
      (ofDataset d).shown false (.graph (.term (.iri "g")) op) .root =
        (ofDataset d').shown false (.graph (.term (.iri "g")) op) .root := by
  intro t d d' op g
  have hop : op.confined = true := by decide
  have hd : d.named.get? (.iri "g") = some g := by decide
  have hd' : d'.named.get? (.iri "g") = some g := by decide
  refine ⟨hop, hd, hd', ?_⟩
  exact shown_confined hop hd hd' (fun _ => Iff.rfl) default d.default d'.default false .root

end SparqlAlgebra
