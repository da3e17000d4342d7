import Mathlib.Tactic.Choose
import SparqlAlgebra.Proofs.Op.Everywhere
import SparqlAlgebra.Proofs.Stage.Owes

/-!
Plans that are pulled on after a pull has failed because the token was up. They show no row that the
undisturbed plan does not show, as long as no failure strikes where an empty side is taken for an
answer: while the right rows of a left join or of a difference are loaded, in an optional part that
has shown nothing yet, or while a single group is gathered.
-/

namespace SparqlAlgebra

namespace Compiled

/-- The compilation succeeds, and its stage owes some rows. -/
def Owes (mild : Bool) (c : Compiled) : Prop := ∃ s l, c.result = .ok s ∧ s.Owes mild l

variable {mild : Bool} {c : Compiled}

theorem owes_ok {s : Stage} {l : List Binding} (h : s.Owes mild l) : (ok s).counted.Owes mild :=
  ⟨s, l, rfl, h⟩

theorem Owes.counted (h : c.Owes mild) : c.counted.Owes mild := h

theorem Owes.map {f : Stage → Stage} (h : c.Owes mild)
    (hf : ∀ s l, s.Owes mild l → ∃ k, (f s).Owes mild k) : (c.map f).Owes mild := by
  obtain ⟨s, l, hc, hs⟩ := h
  obtain ⟨k, hk⟩ := hf s l hs
  exact ⟨f s, k, result_map hc f, hk⟩

theorem Owes.andThen {f : Stage → Compiled} (h : c.Owes mild)
    (hf : ∀ s l, s.Owes mild l → (f s).Owes mild) : (c.andThen f).Owes mild := by
  obtain ⟨s, l, hc, hs⟩ := h
  obtain ⟨t, k, ht, hk⟩ := hf s l hs
  exact ⟨t, k, result_andThen hc ht, hk⟩

end Compiled

namespace Op

/-- Operators whose stages fail for no other reason than the token. -/
def resumable (op : Op) : Bool :=
  op.everywhere fun
    | bgp _ | table _ | join .. | leftJoin .. | diff .. | order .. | group .. | filter ..
    | union .. | marker _ | label .. | list _ => true
    | _ => false

/-- Whether no operator in the tree makes anything of no rows. -/
def mild (op : Op) : Bool :=
  op.everywhere fun
    | leftJoin .. | diff .. => false
    | group vars _ _ => !vars.isEmpty
    | _ => true

/-- Over an input that owes rows, the operator gets built and owes rows in turn. -/
def Owing (mild : Bool) (op : Op) : Prop :=
  ∀ ctx input k, input.Owes mild k → (compile ctx op input).Owes mild

variable {mild : Bool} {l r sub : Op}

theorem owing_bgp (p : BasicPattern) : (bgp p).Owing mild := by
  intro ctx input k hi
  rw [compile_bgp]
  suffices hp : ∃ m, (p.stage ctx.graph input).Owes mild m by
    obtain ⟨m, hm⟩ := hp
    exact Compiled.owes_ok hm
  induction p generalizing input k with
  | nil => exact ⟨k, hi⟩
  | cons t p ih =>
    have ht : (Stage.each (.triple t ctx.graph) input).Owes mild _ :=
      .each (fun _ => rfl) (fun _ => rfl) (fun b => .rows (t.extend ctx.graph b)) hi
    exact ih _ _ ht

theorem owing_table (t : Table) : (table t).Owing mild := by
  intro ctx input k hi
  rw [compile_table]
  rcases t.stage_cases ctx input with ⟨-, ht⟩ | ⟨-, ht⟩ | ht <;> rw [ht]
  · exact Compiled.owes_ok hi
  · exact Compiled.owes_ok (.rows t.rows)
  · exact Compiled.owes_ok (.pair (fun _ => rfl) hi (.rows t.rows))

/-- A label without a part below it passes its input on. -/
theorem owing_marker (label : String) : (marker label).Owing mild := by
  intro ctx input k hi
  rw [compile_marker]
  exact Compiled.owes_ok hi

theorem owing_join (hl : l.Owing mild) (hr : r.Owing mild) : (join l r).Owing mild := by
  intro ctx input k hi
  rw [compile_join]
  refine ((hl ctx input k hi).andThen fun s m hs => ?_).counted
  split
  · exact hr ctx s m hs
  · refine (hr ctx .root _ .root).map fun t n ht => ?_
    exact ⟨_, .pair (fun _ => rfl) hs ht⟩

theorem owing_filter (exprs : List Expr) (h : sub.Owing mild) : (filter exprs sub).Owing mild := by
  intro ctx input k hi
  rw [compile_filter]
  refine ((h ctx input k hi).map fun s m hs => ?_).counted
  induction exprs generalizing s m with
  | nil => exact ⟨m, hs⟩
  | cons e exprs ih => exact ih _ _ (.filter hs)

theorem Owing.filtered (h : sub.Owing mild) (exprs : Option (List Expr)) :
    (sub.filtered exprs).Owing mild := by
  unfold Op.filtered
  split
  · exact owing_filter _ h
  · exact h

/-- Where nothing mild is wanted, rows may be paired by any rule. -/
theorem owes_pair (hmild : mild = false) (rule : Pairing) (ctx : Context) {s t : Stage}
    {m n : List Binding} (hs : s.Owes mild m) (ht : t.Owes mild n) :
    ∃ k, (Stage.pair rule ctx s t none []).Owes mild k := by
  have hrule : mild = true → rule.forgives = true := by
    intro hm
    rw [hmild] at hm
    cases hm
  exact ⟨_, .pair hrule hs ht⟩

theorem owing_leftJoin (hmild : mild = false) (hl : l.Owing mild) (hr : r.Owing mild)
    (exprs : Option (List Expr)) : (leftJoin l r exprs).Owing mild := by
  intro ctx input k hi
  rw [compile_leftJoin]
  refine ((hl ctx input k hi).andThen fun s m hs => ?_).counted
  split
  · -- The part is compiled over each left row anew.
    have hpart (b : Binding) : (compile ctx (r.filtered exprs) (.rows [b])).Owes mild :=
      hr.filtered exprs ctx _ _ (.rows [b])
    choose g f hc hg using hpart
    exact Compiled.owes_ok (.optional hmild hc hg hs)
  · exact (hr ctx .root _ .root).map fun t n ht => owes_pair hmild _ ctx hs ht

theorem owing_diff (hmild : mild = false) (hl : l.Owing mild) (hr : r.Owing mild) :
    (diff l r).Owing mild := by
  intro ctx input k hi
  rw [compile_diff]
  refine ((hl ctx input k hi).andThen fun s m hs => ?_).counted
  exact (hr ctx .root _ .root).map fun t n ht => owes_pair hmild _ ctx hs ht

theorem owes_branches {ops : List Op} (h : ∀ op ∈ ops, op.Owing mild) (ctx : Context)
    {input : Stage} {k : List Binding} (hi : input.Owes mild k) :
    ∃ m, (Stage.each (.union ops ctx) input).Owes mild m := by
  -- One stage and one list of rows for each branch and each row it is compiled over.
  have hex (p : Seeded) : ∃ s m, p.op ∈ ops →
      (compile p.ctx p.op (.rows [p.seed])).result = .ok s ∧ s.Owes mild m := by
    by_cases hp : p.op ∈ ops
    · obtain ⟨s, m, hs, hm⟩ := h p.op hp p.ctx _ _ (.rows [p.seed])
      exact ⟨s, m, fun _ => ⟨hs, hm⟩⟩
    · exact ⟨.root, [], fun h => (hp h).elim⟩
  choose g f hgf using hex
  let pending (b : Binding) : List Seeded := ops.map fun op => { op, seed := b, ctx }
  have hmem (b : Binding) (p : Seeded) (hp : p ∈ pending b) : p.op ∈ ops := by
    obtain ⟨op, ho, rfl⟩ := List.mem_map.1 hp
    exact ho
  have hchain (b : Binding) : (Stage.chain (pending b)).Owes mild ((pending b).flatMap f) :=
    .chain (fun p hp => (hgf p (hmem b p hp)).1) fun p hp => (hgf p (hmem b p hp)).2
  exact ⟨_, .each (fun _ => rfl) (fun _ => rfl) hchain hi⟩

theorem owing_union (h : ∀ op ∈ l.branches ++ r.branches, op.Owing mild) :
    (union l r).Owing mild := by
  intro ctx input k hi
  rw [compile_union]
  obtain ⟨m, hm⟩ := owes_branches h ctx hi
  exact Compiled.owes_ok hm

theorem owing_gather {op : Op} {rule : Gathering} (hrule : mild = true → rule.forgives = true)
    (h : sub.Owing mild)
    (hc : ∀ ctx input, compile ctx op input =
      ((compile ctx sub input).map fun s => .gather rule ctx s []).counted) :
    op.Owing mild := by
  intro ctx input k hi
  rw [hc]
  exact ((h ctx input k hi).map fun s m hs => ⟨_, .gather hrule hs⟩).counted

/-- A mild stage is wanted of a mild operator only. -/
theorem owing (op : Op) (h : op.resumable = true) (hm : mild = true → op.mild = true) :
    op.Owing mild := by
  induction op using operands_induction with
  | step op ih =>
    have below (sub : Op) (hs : sub ∈ op.operands) : sub.Owing mild :=
      ih sub hs (everywhere_of_mem_operands h hs) fun e => everywhere_of_mem_operands (hm e) hs
    have hself (e : mild = true) := everywhere_self (hm e)
    cases op with
    | bgp p => exact owing_bgp p
    | table t => exact owing_table t
    | join l r => exact owing_join (below l (by simp [operands])) (below r (by simp [operands]))
    | leftJoin l r exprs =>
      have hmild : mild = false := Bool.eq_false_iff.2 fun e => by cases hself e
      exact owing_leftJoin hmild (below l (by simp [operands])) (below r (by simp [operands])) exprs
    | diff l r =>
      have hmild : mild = false := Bool.eq_false_iff.2 fun e => by cases hself e
      exact owing_diff hmild (below l (by simp [operands])) (below r (by simp [operands]))
    | union l r =>
      refine owing_union fun b hb => below b ?_
      exact List.mem_cons_of_mem l (List.mem_cons_of_mem r hb)
    | filter exprs sub => exact owing_filter exprs (below sub (by simp [operands]))
    | order keys sub =>
      exact owing_gather (fun _ => rfl) (below sub (by simp [operands]))
        fun ctx input => compile_order ctx input keys sub
    | group vars aggs sub =>
      have hrule : mild = true → (Gathering.group vars aggs).forgives = true := hself
      exact owing_gather hrule (below sub (by simp [operands]))
        fun ctx input => compile_group ctx input vars aggs sub
    | marker name => exact owing_marker name
    | label name sub => exact below sub (by simp [operands])
    | list sub => exact below sub (by simp [operands])
    | _ => cases everywhere_self h

end Op

open Stage

/-- A schedule of pulls, with the token going up and down, shows rows of the undisturbed plan in
their order, if every failure strikes where it costs nothing but rows. -/
theorem Context.play_sublist {ctx : Context} {op : Op} {input : List Binding}
    (h : op.resumable = true) :
    ∃ s l, (compile ctx op (.source (input.map .ok))).result = .ok s ∧
      ctx.solutions op (.source (input.map .ok)) = .ok l ∧
      ∀ acts, s.spared false acts = true → (s.play false acts).Sublist l := by
  have hm : false = true → op.mild = true := by
    intro e
    cases e
  obtain ⟨s, l, hs, hl⟩ := op.owing h hm ctx _ _ (.source input)
  exact ⟨s, l, hs, solutions_eq ⟨s, hs, hl.emits⟩, fun acts ha => hl.play ha⟩

/-- The failure strikes while the second branch loads its right rows. The rest of that branch is
lost, and the schedule goes on with the second row. -/
theorem Context.play_sublist_union :
    let ctx : Context :=
      { ofDataset {} with config := { streamedJoins := false }, cancellable := true }
    let r : Op := .join (.bgp []) (.table (.ofRows [.single ⟨"y"⟩ (.iri "c")]))
    let op : Op := .union (.bgp []) r
    let b : Binding := .single ⟨"x"⟩ (.iri "a")
    let c : Binding := .single ⟨"x"⟩ (.iri "b")
    let acts : List Act := [.next, .cancel, .next, .resume, .next]
    let s : Stage := .each (.union [.bgp [], r] ctx) (.source [.ok b, .ok c])
    op.resumable = true ∧ (compile ctx op (.source ([b, c].map .ok))).result = .ok s ∧
      s.spared false acts = true ∧ s.play false acts = [b, c] ∧
      ∃ l, ctx.solutions op (.source ([b, c].map .ok)) = .ok l ∧
        (s.play false acts).Sublist l := by
  intro ctx r op b c acts s
  have hs : (compile ctx op (.source ([b, c].map .ok))).result = .ok s := rfl
  let rule : Expansion := .union [.bgp [], r] ctx
  let right : Stage := .rows [.single ⟨"y"⟩ (.iri "c")]
  -- After the first row the second branch waits.
  let t : Stage := .eachOf rule (.source [.ok c])
    (.chainOf [{ op := r, seed := b, ctx }] (.rows []))
  have h₁ : ∃ cost, s.pull false = ⟨.ok (some b), t, cost⟩ := by
    apply Exists.intro
    refine Eq.trans (@pull_of_silent false s rfl _) ?_
    refine Eq.trans (pull_of_silent rfl _) ?_
    exact pull_of_row rfl _
  -- The right rows of the join are released by the failure.
  let u : Stage := .eachOf rule (.source [.ok c])
    (.chainOf [] (.pair .inner ctx (.rows []) (.rows []) none []))
  have h₂ : ∃ cost, t.pull true = ⟨.error .cancelled, u, cost⟩ := by
    apply Exists.intro
    refine Eq.trans (@pull_of_silent true t rfl _) ?_
    refine Eq.trans (pull_of_silent rfl _) ?_
    refine Eq.trans (pull_of_silent rfl _) ?_
    exact pull_of_failed rfl _
  have hbrink : t.brink true = .eachOf rule (.source [.ok c])
      (.chainOf [] (.pairLoad .inner ctx (.rows []) right b [])) := by
    refine Eq.trans (@brink_of_silent true t rfl) ?_
    refine Eq.trans (brink_of_silent rfl) ?_
    refine Eq.trans (brink_of_silent rfl) ?_
    exact brink_of_shown nofun
  let v : Stage := .eachOf rule (.source [])
    (.chainOf [{ op := r, seed := c, ctx }] (.rows []))
  have h₃ : ∃ cost, u.pull false = ⟨.ok (some c), v, cost⟩ := by
    apply Exists.intro
    refine Eq.trans (@pull_of_silent false u rfl _) ?_
    refine Eq.trans (pull_of_silent rfl _) ?_
    refine Eq.trans (pull_of_silent rfl _) ?_
    refine Eq.trans (pull_of_silent rfl _) ?_
    exact pull_of_row rfl _
  obtain ⟨_, h₁⟩ := h₁
  obtain ⟨_, h₂⟩ := h₂
  obtain ⟨_, h₃⟩ := h₃
  have hspared : s.spared false acts = true := by
    simp [acts, spared, h₁, h₂, h₃, hbrink, forgives, Pairing.forgives, Except.isOk, Except.toBool]
  have hplay : s.play false acts = [b, c] := by
    simp [acts, play, h₁, h₂, h₃, Pull.rows]
  obtain ⟨s', l, hs', hl, hsub⟩ := @play_sublist ctx op [b, c] rfl
  obtain rfl : s' = s := Except.ok.inj (hs'.symm.trans hs)
  exact ⟨rfl, hs, hspared, hplay, l, hl, hsub acts hspared⟩

/-- The right rows of a left join are released by the failure. The left row after it is taken for
unmatched, which it is not. -/
theorem Context.play_leftJoin :
    let ctx : Context :=
      { ofDataset {} with config := { streamedLeftJoins := false }, cancellable := true }
    let op : Op := .leftJoin (.bgp []) (.table (.ofRows [.single ⟨"y"⟩ (.iri "c")])) none
    let b : Binding := .single ⟨"x"⟩ (.iri "a")
    let c : Binding := .single ⟨"x"⟩ (.iri "b")
    let acts : List Act := [.cancel, .next, .resume, .next]
    op.resumable = true ∧ ∃ s l, (compile ctx op (.source ([b, c].map .ok))).result = .ok s ∧
      ctx.solutions op (.source ([b, c].map .ok)) = .ok l ∧ s.play false acts = [c] ∧
      ¬ (s.play false acts).Subperm l := by
  intro ctx op b c acts
  let y : Binding := .single ⟨"y"⟩ (.iri "c")
  let s : Stage := .pair (.optional []) ctx (.source ([b, c].map .ok)) (.rows [y]) none []
  have hs : (compile ctx op (.source ([b, c].map .ok))).result = .ok s := rfl
  have hl : s.Emits false [b.insert ⟨"y"⟩ (.iri "c"), c.insert ⟨"y"⟩ (.iri "c")] none :=
    emits_pair (Bool.and_false _) (@Owes.source true [b, c]).emits (emits_rows [y])
  let t : Stage := .pair (.optional []) ctx (.source [.ok c]) (.rows []) none []
  have h₁ : ∃ cost, s.pull true = ⟨.error .cancelled, t, cost⟩ := by
    apply Exists.intro
    refine Eq.trans (@pull_of_silent true s rfl _) ?_
    exact pull_of_failed rfl _
  have h₂ : ∃ u cost, t.pull false = ⟨.ok (some c), u, cost⟩ := by
    apply Exists.intro
    apply Exists.intro
    refine Eq.trans (@pull_of_silent false t rfl _) ?_
    refine Eq.trans (pull_of_silent rfl _) ?_
    exact pull_of_row rfl _
  obtain ⟨_, h₁⟩ := h₁
  obtain ⟨u, _, h₂⟩ := h₂
  have hplay : s.play false acts = [c] := by
    simp [acts, play, h₁, h₂, Pull.rows]
  refine ⟨rfl, s, _, hs, solutions_eq ⟨s, hs, hl⟩, hplay, fun hsub => ?_⟩
  rw [hplay] at hsub
  have hc : c ∈ [b.insert ⟨"y"⟩ (.iri "c"), c.insert ⟨"y"⟩ (.iri "c")] :=
    hsub.subset (List.mem_singleton.2 rfl)
  exact absurd hc (by decide)

/-- Plans without left joins, differences and single groups are spared by every schedule. -/
theorem Context.play_sublist_of_mild {ctx : Context} {op : Op} {input : List Binding}
    (h : op.resumable = true) (hm : op.mild = true) :
    ∃ s l, (compile ctx op (.source (input.map .ok))).result = .ok s ∧
      ctx.solutions op (.source (input.map .ok)) = .ok l ∧
      ∀ acts, (s.play false acts).Sublist l := by
  have hop : op.Owing true := op.owing h fun _ => hm
  obtain ⟨s, l, hs, hl⟩ := hop ctx _ _ (.source input)
  exact ⟨s, l, hs, solutions_eq ⟨s, hs, hl.emits⟩, fun acts => hl.play hl.spared⟩

end SparqlAlgebra
