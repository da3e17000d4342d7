import SparqlAlgebra.Proofs.Op.Materialized
import SparqlAlgebra.Proofs.Op.Transparent

/-!
Streaming against materializing. Whether the right side of a left join is loaded once or fed with
each left row by itself, a left row is followed by its matches, and where it has none it stands for
itself. A whole plan gives the same rows either way, up to their order, if every right side that it
streams into accepts the left rows; transparent and plain operators are of this kind. The scope by
itself does not tell: it looks no further than the top of a right side for a projection or a removal
of duplicates, trusts the declarations of tables, and forgets of optional variables that a join
masks and of walks of length zero.
-/

namespace SparqlAlgebra

/-- The rows of a left join over some input: for each left row its matches among the rows of the
right side on which all expressions hold, or the row once if it has no match. -/
theorem Context.solutions_leftJoin {ctx : Context} {l r : Op} {input : Stage} {k : List Binding}
    (exprs : Option (List Expr)) (hl : l.transparent = true) (hr : r.transparent = true)
    (hi : input.Emits false k none) :
    ∃ left right rows, ctx.solutions l input = .ok left ∧ ctx.solutions r .root = .ok right ∧
      ctx.solutions (.leftJoin l r exprs) input = .ok rows ∧
      rows.Perm (Rows.leftJoin ctx.functions (exprs.getD []) left right) := by
  have hal := Op.accepts_of_transparent hl ctx.config
  have har := Op.accepts_of_transparent hr ctx.config
  have hls : l.Seeds := l.seeds
  have hrs : r.Seeds := r.seeds
  have hleft := hls (hal false _) (Extent.bounds_ofRows k ctx.graph) nofun hi.bag
  have hright := hrs.root (har true {})
  -- What the left rows are is all that the right side is told of them when it is fed.
  have hjoin := Op.givesBag_leftJoin exprs hleft hrs (Extent.bounds_ofRows _ ctx.graph) (by
    split
    · exact har true _
    · exact har true {})
  obtain ⟨left, hleft, hlp⟩ := solutions_perm hleft
  obtain ⟨right, hright, hrp⟩ := solutions_perm hright
  obtain ⟨rows, hrows, hp⟩ := solutions_perm hjoin
  have hperm : (Rows.leftJoin ctx.functions (exprs.getD []) left right).Perm _ :=
    Rows.leftJoin_perm hlp hrp
  exact ⟨left, right, rows, hleft, hright, hrows, hp.trans hperm.symm⟩

/-- The expression is false on one match and has no value on the matches that leave `y` open. -/
theorem Context.solutions_leftJoin_path :
    let ctx := ofDataset (({} : Dataset).addTriple ⟨.iri "a", .iri "p", .iri "b"⟩)
    let l : Op := .table (.ofRows [.single ⟨"x"⟩ (.iri "a"), .single ⟨"x"⟩ (.iri "b")])
    let r : Op := .union (.path ⟨.var ⟨"x"⟩, .oneOrMore (.link "p"), .var ⟨"y"⟩⟩)
      (.table (.ofRows [.single ⟨"x"⟩ (.iri "b")]))
    let exprs : List Expr := [.not (.binary .eq (.var ⟨"y"⟩) (.var ⟨"z"⟩))]
    let k : List Binding := [.single ⟨"z"⟩ (.iri "c"), .single ⟨"z"⟩ (.iri "b")]
    l.transparent = true ∧ r.transparent = true ∧ Stage.Emits false (.rows k) k none ∧
      ∃ left right rows, ctx.solutions l (.rows k) = .ok left ∧ ctx.solutions r .root = .ok right ∧
        ctx.solutions (.leftJoin l r (some exprs)) (.rows k) = .ok rows ∧
        rows.Perm (Rows.leftJoin ctx.functions exprs left right) := by
  refine ⟨by decide, by decide, Stage.emits_rows _, ?_⟩
  exact solutions_leftJoin (some _) (by decide) (by decide) (Stage.emits_rows _)

/-- Streaming does not change the rows of a query whose streamed right sides accept the left rows. -/
theorem Context.solutions_streamed {ctx : Context} {op : Op} (ha : op.algebraic = true)
    (h : op.accepts ctx.config true {} = true) :
    ∃ streamed materialized, ctx.solutions op .root = .ok streamed ∧
      solutions { ctx with config := ctx.config.materialized } op .root = .ok materialized ∧
      streamed.Perm materialized := by
  have hop : op.Seeds := op.seeds
  obtain ⟨streamed, hs, hp⟩ := solutions_perm (hop.root h)
  have hm : solutions { ctx with config := ctx.config.materialized } op .root =
      .ok (op.bag ctx.dataset ctx.functions ctx.graph) := solutions_materialized rfl rfl ha
  exact ⟨streamed, _, hs, hm, hp⟩

/-- A walk of length zero starts at a term that the left rows bind to a node of the graph. -/
theorem Context.solutions_streamed_path :
    let ctx := ofDataset (({} : Dataset).addTriple ⟨.iri "a", .iri "p", .iri "b"⟩)
    let op : Op := .join (.triple ⟨.var ⟨"x"⟩, .term (.iri "p"), .var ⟨"y"⟩⟩)
      (.filter [.bound ⟨"y"⟩] (.path ⟨.var ⟨"y"⟩, .zeroOrMore (.link "p"), .var ⟨"z"⟩⟩))
    op.algebraic = true ∧ op.accepts ctx.config true {} = true ∧
      ∃ streamed materialized, ctx.solutions op .root = .ok streamed ∧
        solutions { ctx with config := ctx.config.materialized } op .root = .ok materialized ∧
        streamed.Perm materialized := by
  refine ⟨rfl, by decide, ?_⟩
  exact solutions_streamed rfl (by decide)

/-- A projection below a filter escapes notice: streamed, it drops the variable of the left row. -/
theorem Context.solutions_streamed_project :
    let ctx := ofDataset {}
    let op : Op := .join (.table (.ofRows [.single ⟨"x"⟩ (.iri "1")]))
      (.filter [.bound ⟨"y"⟩] (.project [⟨"y"⟩] (.table (.ofRows [.single ⟨"y"⟩ (.iri "2")]))))
    ctx.solutions op .root = .ok [.single ⟨"y"⟩ (.iri "2")] ∧
      solutions { ctx with config := .materializing } op .root =
        .ok [.ofList [(⟨"x"⟩, .iri "1"), (⟨"y"⟩, .iri "2")]] ∧
      ¬ [Binding.single ⟨"y"⟩ (.iri "2")].Perm
        [.ofList [(⟨"x"⟩, .iri "1"), (⟨"y"⟩, .iri "2")]] := by
  refine ⟨?_, ?_, by decide⟩
  · refine (solutions_eq (Op.gives_join_streamed (by decide) (Op.gives_table _ Stage.emits_root)
      fun s hs => Op.gives_filter _ (Op.gives_project _ (Op.gives_table _ hs)))).trans ?_
    exact congrArg Except.ok (by decide)
  · exact (solutions_materialized rfl rfl rfl).trans (congrArg Except.ok (by decide))

end SparqlAlgebra
