import SparqlAlgebra.Proofs.Op.Transcript
import SparqlAlgebra.Proofs.Rows.Sorted

/-!
What a sorting shows: the rows below it, as its keys order them.
-/

namespace SparqlAlgebra

open Rows

/-- A sorting shows the rows below it, all of them and no others. Where the order of terms is
transitive on the values of each key, no row stands behind one that it precedes, and rows that no
key tells apart stand in the order in which they came. -/
theorem Context.shown_order (ctx : Context) (raised : Bool) (keys : List SortKey) (sub : Op)
    (input : Stage) :
    ctx.shown raised (.order keys sub) input =
      (ctx.shown raised sub input).map (·.arranged (sort ctx.functions keys)) ∧
    ∀ l, (∀ k ∈ keys, Term.SortTransOn (l.map (k.value ctx.functions))) →
      (sort ctx.functions keys l).Perm l ∧
      (sort ctx.functions keys l).Pairwise (fun b c => ¬ Precedes ctx.functions keys c b) ∧
      ∀ b, (sort ctx.functions keys l).filter (Tied ctx.functions keys b ·) =
        l.filter (Tied ctx.functions keys b ·) := by
  refine ⟨?_, fun l h => ⟨perm_sort .., pairwise_sort h, filter_tied_sort h⟩⟩
  cases hw : ctx.stopped raised with
  | false => rw [shown_eq hw, shown_eq hw, Op.transcript]; rfl
  | true =>
    rw [shown_stopped hw, shown_stopped hw, Op.transcript]
    cases sub.transcript ctx (input.transcript false) <;> rfl

/-- Numbers downwards, one of them missing and one written in two ways, then texts upwards. -/
theorem Context.shown_order_mixed :
    let ctx := ofDataset {}
    let keys : List SortKey := [⟨.var ⟨"x"⟩, .descending⟩, ⟨.var ⟨"y"⟩, .ascending⟩]
    let row (x y z : Term) : Binding := .ofList [(⟨"x"⟩, x), (⟨"y"⟩, y), (⟨"z"⟩, z)]
    let first := row (.int 2) (.string "b") (.int 1)
    let second := row (.int 2) (.string "b") (.int 0)
    let l := [first, .single ⟨"y"⟩ (.string "a"), row (.int 10) (.string "b") (.int 2), second,
      row (.typed "02" (xsd "int")) (.string "a") (.int 3)]
    (∀ k ∈ keys, Term.SortTransOn (l.map (k.value ctx.functions))) ∧
      ctx.shown false (.order keys (.table (.ofRows l))) .root =
        .ok { rows := sort ctx.functions keys l } ∧
      (sort ctx.functions keys l).Perm l ∧
      (sort ctx.functions keys l).Pairwise (fun b c => ¬ Precedes ctx.functions keys c b) ∧
      (sort ctx.functions keys l).filter (Tied ctx.functions keys second ·) = [first, second] := by
  intro ctx keys row first second l
  have htrans : ∀ k ∈ keys, Term.SortTransOn (l.map (k.value ctx.functions)) := by decide
  have htable : ctx.shown false (.table (.ofRows l)) .root = .ok { rows := Rows.join [∅] l } := by
    rw [shown_eq rfl, Stage.transcript_root]
    rfl
  have hjoin : Rows.join [∅] l = l := by decide
  obtain ⟨hshown, hsorted⟩ := shown_order ctx false keys (.table (.ofRows l)) .root
  obtain ⟨hperm, hpairwise, htied⟩ := hsorted l htrans
  refine ⟨htrans, ?_, hperm, hpairwise, (htied second).trans (by decide)⟩
  rw [hshown, htable, hjoin]
  rfl

end SparqlAlgebra
