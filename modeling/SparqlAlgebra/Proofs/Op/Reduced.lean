import SparqlAlgebra.Proofs.Op.Transcript
import SparqlAlgebra.Proofs.Rows.Recent

/-!
What a reduction shows: the rows below it, less those that repeat within the window that the
configuration gives. The memory behind it may be any that keeps the rows that came by last.
-/

namespace SparqlAlgebra

open Rows

/-- The loop over the rows is that of the memory. -/
theorem RowRule.treat_reduced (fs : Functions) (capacity : Nat) (recent l : List Binding) :
    (reduced capacity recent).treat fs l = (window capacity).sift recent l := by
  induction l generalizing recent with
  | nil => rfl
  | cons b l ih =>
    have hfeed : (reduced capacity recent).feed fs b =
        (reduced capacity ((window capacity).meet recent b).2,
          if ((window capacity).meet recent b).1 then none else some b) := rfl
    rw [treat, hfeed, Memory.sift, ih]
    -- Both loops go on from the same memory; what they make of the row is left.
    refine congrArg (· ++ _) ?_
    cases ((window capacity).meet recent b).1 <;> rfl

namespace Op

/-- How many rows a reduction remembers. -/
def room (config : Config) : Nat := max config.reducedWindow.toNat 1

theorem transcript_reduced (sub : Op) (ctx : Context) (x : Transcript) :
    (reduced sub).transcript ctx x =
      (sub.transcript ctx x).map (·.through (unrepeated (room ctx.config))) := by
  have hroom : room ctx.config = room ctx.config - 1 + 1 := by unfold room; omega
  have htreat : (RowRule.reduced (room ctx.config) []).treat ctx.functions =
      unrepeated (room ctx.config) := by
    funext l
    rw [RowRule.treat_reduced, hroom]
    exact (Memory.recent_window _).sift rfl l
  rw [transcript, ← htreat]
  rfl

/-- With room for all rows, a reduction is a removal of duplicates. -/
theorem transcript_reduced_eq_distinct {sub : Op} {ctx : Context} {x : Transcript}
    (h : ∀ y, sub.transcript ctx x = .ok y → y.rows.dedup.length ≤ room ctx.config) :
    (reduced sub).transcript ctx x = (distinct sub).transcript ctx x := by
  rw [transcript_reduced, transcript]
  cases hy : sub.transcript ctx x with
  | error e => rfl
  | ok y =>
    have hrows : unrepeated (room ctx.config) y.rows =
        (RowRule.distinct []).treat ctx.functions y.rows := by
      rw [unrepeated_eq_firsts (h y hy), RowRule.treat_distinct]
    exact congrArg (fun l => Except.ok { y with rows := l }) hrows

end Op

/-- A reduction shows the rows below it in their order, without those that were there before and
since then had fewer different rows come between than the reduction remembers; any memory of recent
rows of that size drops the same. So the first of equal rows is shown, of two in a row only the
first, and with room for all rows no row is shown twice. -/
theorem Context.shown_reduced (ctx : Context) (raised : Bool) (sub : Op) (input : Stage) :
    ctx.shown raised (.reduced sub) input =
      (ctx.shown raised sub input).map (·.through (unrepeated (Op.room ctx.config))) ∧
    (∀ {σ : Type} (m : Memory σ) (known : σ → List Binding) (s : σ),
      m.Recent (Op.room ctx.config) known → known s = [] →
        ∀ l, m.sift s l = unrepeated (Op.room ctx.config) l) ∧
    (∀ p b, b ∉ p → ¬ Repeats (Op.room ctx.config) p b) ∧
    (∀ p b, Repeats (Op.room ctx.config) (p ++ [b]) b) ∧
    ((∀ x, ctx.shown raised sub input = .ok x → x.rows.dedup.length ≤ Op.room ctx.config) →
      ctx.shown raised (.reduced sub) input = ctx.shown raised (.distinct sub) input) := by
  have hpos : 0 < Op.room ctx.config := by unfold Op.room; omega
  refine ⟨?_, fun m known s h hs l => ?_, fun p b => not_repeats_of_not_mem,
    repeats_adjacent hpos, fun h => ?_⟩
  · cases hw : ctx.stopped raised with
    | false => rw [shown_eq hw, shown_eq hw, Op.transcript_reduced]
    | true =>
      rw [shown_stopped hw, shown_stopped hw, Op.transcript_reduced]
      cases sub.transcript ctx (input.transcript false) <;> rfl
  · obtain ⟨w, hroom⟩ := Nat.exists_eq_succ_of_ne_zero (Nat.ne_of_gt hpos)
    rw [hroom] at h ⊢
    exact h.sift hs l
  · cases hw : ctx.stopped raised with
    | false =>
      rw [shown_eq hw] at h ⊢
      rw [shown_eq hw, Op.transcript_reduced_eq_distinct h]
    | true =>
      rw [shown_stopped hw, shown_stopped hw, Op.transcript_reduced, Op.transcript]
      cases sub.transcript ctx (input.transcript false) <;> rfl

/-- A window of two rows: the second `a` is close to the first, the second `b` is not. -/
theorem Context.shown_reduced_window :
    let ctx : Context := { ofDataset {} with config := { reducedWindow := 2 } }
    let row (s : String) : Binding := .single ⟨"x"⟩ (.iri s)
    let near : Op := .table (.ofRows [row "a", row "b", row "a"])
    let far : Op := .table (.ofRows [row "a", row "b", row "a", row "c", row "b"])
    ctx.shown false (.reduced far) .root =
        .ok { rows := [row "a", row "b", row "c", row "b"] } ∧
      (window 2).Recent (Op.room ctx.config) id ∧
      (window 2).sift [] [row "a", row "b", row "a", row "c", row "b"] =
        [row "a", row "b", row "c", row "b"] ∧
      (∀ x, ctx.shown false near .root = .ok x → x.rows.dedup.length ≤ Op.room ctx.config) ∧
      ctx.shown false (.reduced near) .root = ctx.shown false (.distinct near) .root := by
  intro ctx row near far
  have htable (l : List Binding) : ctx.shown false (.table (.ofRows l)) .root =
      .ok { rows := Rows.join [∅] l } := by
    rw [shown_eq rfl, Stage.transcript_root]
    rfl
  have hfar : unrepeated 2 [row "a", row "b", row "a", row "c", row "b"] =
      [row "a", row "b", row "c", row "b"] := by decide
  have hlaw : (window 2).Recent (Op.room ctx.config) id := Memory.recent_window 2
  have hroom : ∀ x, ctx.shown false near .root = .ok x →
      x.rows.dedup.length ≤ Op.room ctx.config := by
    intro x hx
    rw [htable] at hx
    cases hx
    decide
  obtain ⟨hshown, hlawful, -, -, -⟩ := shown_reduced ctx false far .root
  obtain ⟨-, -, -, -, hdistinct⟩ := shown_reduced ctx false near .root
  refine ⟨?_, hlaw, (hlawful _ _ [] hlaw rfl _).trans hfar, hroom, hdistinct hroom⟩
  rw [hshown, htable]
  exact congrArg (fun l => Except.ok (Transcript.mk l none)) (by decide)

end SparqlAlgebra
