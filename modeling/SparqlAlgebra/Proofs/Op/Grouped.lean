import SparqlAlgebra.Proofs.Op.Transcript
import SparqlAlgebra.Proofs.Rows.Aggregates
import SparqlAlgebra.Proofs.Rows.Bound

/-!
What a grouping shows. Its rows are told from the partition of the rows below it: one row for each
part, with the key of the part and with the aggregates over the part.
-/

namespace SparqlAlgebra

namespace Rows

variable {vars : List Var} {l : List Binding} {v : Var}

/-- The value of a variable in a key. -/
def keyValue (vars : List Var) (key : List (Option Term)) (v : Var) : Option Term :=
  ((vars.zip key).lookup v).join

theorem keyValue_groupKey (vars : List Var) (b : Binding) (v : Var) :
    keyValue vars (groupKey vars b) v = if v ∈ vars then b.get? v else none := by
  induction vars with
  | nil => rfl
  | cons w vars ih =>
    have hcons : keyValue (w :: vars) (groupKey (w :: vars) b) v =
        if v = w then b.get? w else keyValue vars (groupKey vars b) v := by
      show (List.lookup v ((w, b.get? w) :: vars.zip (groupKey vars b))).join = _
      rw [List.lookup_cons]
      by_cases hv : v = w
      · rw [hv, beq_self_eq_true, if_pos rfl]
        rfl
      · rw [beq_false_of_ne hv, if_neg hv]
        rfl
    rw [hcons, ih]
    by_cases hv : v = w
    · rw [if_pos hv, if_pos (hv ▸ List.mem_cons_self), hv]
    · simp [hv]

/-- The row of a group binds the variables of its aggregates to what the last of them with a value
says, the grouping variables to their values in the key, and nothing else. -/
theorem get?_groupRow (fs : Functions) (aggs : List Aggregation)
    {g : List (Option Term) × List Binding} (hg : g ∈ groups vars l) (v : Var) :
    (groupRow fs vars aggs g.1 g.2).get? v =
      (aggregated fs aggs g.2 v).or (keyValue vars g.1 v) := by
  rw [groupRow, get?_foldl_aggregated]
  refine congrArg (Option.or _) ?_
  -- Only a key that comes from a row gives a variable that is named twice the same value twice.
  obtain ⟨-, ⟨rfl, -⟩ | ⟨b, -, hb⟩⟩ := mem_groups hg
  · rfl
  · rw [hb, get?_foldl_zip, keyValue_groupKey, SortedMap.get?_empty, Option.or_none]

/-- Keys may leave variables open, and an aggregate takes the place of a grouping variable. -/
example : group .none [⟨"x"⟩, ⟨"y"⟩] [⟨⟨"x"⟩, .sample (.var ⟨"z"⟩)⟩]
      [.ofList [(⟨"x"⟩, .iri "a"), (⟨"z"⟩, .iri "b")], .single ⟨"z"⟩ (.iri "c"),
        .single ⟨"x"⟩ (.iri "a"), .single ⟨"y"⟩ (.iri "a")] =
    [.single ⟨"x"⟩ (.iri "b"), .single ⟨"x"⟩ (.iri "c"), .single ⟨"y"⟩ (.iri "a")] := by
  decide

theorem length_groups_nil (vars : List Var) :
    (groups vars []).length = if vars = [] then 1 else 0 := by
  rw [groups_eq]
  by_cases hvars : vars = []
  · rw [if_pos ⟨hvars, rfl⟩, if_pos hvars]
    rfl
  · rw [if_neg fun h => hvars h.1, if_neg hvars]
    rfl

end Rows

/-- A grouping shows one row for each part of the rows below it: the parts have the keys that come
up, in the order in which they do, and each has all rows with its key, in order. -/
theorem Context.shown_group (ctx : Context) (raised : Bool) (vars : List Var)
    (aggs : List Aggregation) (sub : Op) (input : Stage) :
    ctx.shown raised (.group vars aggs sub) input =
      (ctx.shown raised sub input).map (·.arranged fun l =>
        (Rows.groups vars l).map fun g => Rows.groupRow ctx.functions vars aggs g.1 g.2) ∧
    (∀ l, Rows.Partition vars l (Rows.groups vars l) ∧
      ((Rows.groups vars l).flatMap (·.2)).Perm l ∧
      (∀ b ∈ l, ∃! g, g ∈ Rows.groups vars l ∧ b ∈ g.2) ∧
      (∀ g ∈ Rows.groups vars l, ∀ v,
        (Rows.groupRow ctx.functions vars aggs g.1 g.2).get? v =
          (Rows.aggregated ctx.functions aggs g.2 v).or (Rows.keyValue vars g.1 v))) ∧
    (Rows.groups vars []).length = if vars = [] then 1 else 0 := by
  refine ⟨?_, fun l => ?_, Rows.length_groups_nil vars⟩
  · cases hw : ctx.stopped raised with
    | false => rw [shown_eq hw, shown_eq hw, Op.transcript]; rfl
    | true =>
      rw [shown_stopped hw, shown_stopped hw, Op.transcript]
      cases sub.transcript ctx (input.transcript false) <;> rfl
  · have hpart := Rows.partition_groups vars l
    refine ⟨hpart, hpart.flatMap_perm, fun b hb => hpart.existsUnique hb, fun g hg v => ?_⟩
    exact Rows.get?_groupRow ctx.functions aggs hg v

namespace Aggregator

open Number

/-- The order of the rows has no say in counts, nor in the least and the greatest of integers that
an expression has for values. Their sum has a value in an order of the rows if the running sum stays
in range, and is the same in all orders if and only if it does so in all of them or the sum itself
is out of range. -/
theorem eval_perm (fs : Functions) (e : Expr) (l : List Binding)
    (h : ∀ b ∈ l, ∀ t, e.eval fs b = .ok t → ∃ v, t.integer? = some v) :
    (∀ a ∈ [count none false, count none true, count (some e) false, count (some e) true, min e,
      max e], ∀ k, l.Perm k → a.eval fs k = a.eval fs l) ∧
    (∀ k, l.Perm k → (sum e).eval fs k =
      if Fits 0 (amounts fs e k) then (toInt64? (amounts fs e l).sum).map Term.int else none) ∧
    ((∀ k, l.Perm k → (sum e).eval fs k = (sum e).eval fs l) ↔
      Spread (amounts fs e l) ∨ ¬ InRange (amounts fs e l).sum) := by
  have hvalues : ∀ t ∈ values fs e l, IsInteger t := by
    intro t ht
    obtain ⟨b, hb, hbt⟩ := List.mem_filterMap.1 ht
    refine h b hb t ?_
    cases hv : e.eval fs b <;> simp_all [Except.toOption]
  refine ⟨?_, fun k hk => ?_, eval_sum_perm_iff hvalues⟩
  · simp only [List.forall_mem_cons, List.not_mem_nil, false_implies, implies_true, and_true]
    refine ⟨fun k hk => ?_, fun k hk => ?_, fun k hk => ?_, fun k hk => ?_, fun k hk => ?_,
      fun k hk => ?_⟩
    · exact congrArg countTerm hk.symm.length_eq
    · exact congrArg countTerm (Rows.firsts_perm hk.symm).length_eq
    · exact congrArg countTerm (values_perm hk).symm.length_eq
    · exact congrArg countTerm (Rows.firsts_perm (values_perm hk).symm).length_eq
    · exact least_perm hvalues (values_perm hk)
    · exact greatest_perm hvalues (values_perm hk)
  · rw [eval_sum fun t ht => hvalues t ((values_perm hk).mem_iff.2 ht), (amounts_perm hk).sum_eq]

/-- One number written in two ways, and a row without one. -/
theorem eval_perm_spelled :
    let x : Expr := .var ⟨"x"⟩
    let l : List Binding :=
      [.single ⟨"x"⟩ (.typed "05" (xsd "int")), ∅, .single ⟨"x"⟩ (.int 5)]
    (∀ b ∈ l, ∀ t, x.eval .none b = .ok t → ∃ v, t.integer? = some v) ∧
      (max x).eval .none l.reverse = (max x).eval .none l ∧
      Spread (amounts .none x l) ∧ (sum x).eval .none l.reverse = (sum x).eval .none l := by
  intro x l
  have hl : ∀ b ∈ l, ∀ t, x.eval .none b = .ok t → ∃ v, t.integer? = some v := by
    simp only [l, List.forall_mem_cons]
    refine ⟨fun t ht => ⟨5, ?_⟩, fun t ht => ?_, fun t ht => ⟨5, ?_⟩, nofun⟩
    · exact Except.ok.inj ht ▸ by decide
    · cases ht
    · exact Except.ok.inj ht ▸ by decide
  have hspread : Spread (amounts .none x l) := by decide
  have hperm : l.Perm l.reverse := (List.reverse_perm l).symm
  obtain ⟨hsame, -, hsum⟩ := eval_perm .none x l hl
  exact ⟨hl, hsame _ (by simp) _ hperm, hspread, hsum.2 (.inl hspread) _ hperm⟩

end Aggregator

/-- The running sum of the greatest number, 1 and -1 leaves the range, that of -1, 1 and the
greatest number does not. A path is walked from the end that is bound, so that streaming a join
turns the one order into the other, and the sum comes and goes with the configuration. -/
theorem Context.solutions_sum_streamed :
    let row (n : Int64) : Binding := .single ⟨"x"⟩ (.int n)
    let total : Aggregator := .sum (.var ⟨"x"⟩)
    let walks : List (Term × String × Term) :=
      [(.int (-1), "p", .iri "c"), (.int 1, "p", .iri "b"), (.int Int64.maxValue, "p", .iri "a"),
        (.iri "a", "q", .iri "o"), (.iri "b", "q", .iri "o"), (.iri "c", "q", .iri "o")]
    let ctx := ofDataset (walks.foldl (fun d (s, p, o) => d.addTriple ⟨s, .iri p, o⟩) {})
    let side : Op := .table (.ofRows [.single ⟨"y"⟩ (.iri "o")])
    let path : PathPattern := ⟨.var ⟨"x"⟩, .sequence (.link "p") (.link "q"), .var ⟨"y"⟩⟩
    let op : Op := .group [] [⟨⟨"s"⟩, total⟩] (.join side (.path path))
    [row Int64.maxValue, row 1, row (-1)].Perm [row (-1), row 1, row Int64.maxValue] ∧
      total.eval .none [row Int64.maxValue, row 1, row (-1)] = none ∧
      total.eval .none [row (-1), row 1, row Int64.maxValue] = some (.int Int64.maxValue) ∧
      ctx.solutions op .root = .ok [∅] ∧
      solutions { ctx with config := .materializing } op .root =
        .ok [.single ⟨"s"⟩ (.int Int64.maxValue)] := by
  intro row total walks ctx side path op
  let l : List Binding := [.single ⟨"y"⟩ (.iri "o")]
  have hside (c : Context) (x : Transcript) :
      side.transcript c x = .ok (x.through (Rows.join · l)) := rfl
  have hpath (c : Context) (x : Transcript) :
      (Op.path path).transcript c x = .ok (x.through (·.flatMap (path.extend c.graph))) := rfl
  have hstreams : side.joinStreams (.path path) = true := by decide
  have hstreamed (c : Context) (hc : c.config.streamedJoins = true) : c.solutions op .root =
      .ok (Rows.group c.functions [] [⟨⟨"s"⟩, total⟩]
        ((Rows.join [∅] l).flatMap (path.extend c.graph))) := by
    rw [solutions_eq_transcript, Stage.transcript_root, Op.transcript, Op.transcript, hside, hstreams,
      hc]
    rfl
  have hloaded (c : Context) (hc : c.config.streamedJoins = false) : c.solutions op .root =
      .ok (Rows.group c.functions [] [⟨⟨"s"⟩, total⟩]
        (Rows.join (Rows.join [∅] l) ([∅].flatMap (path.extend c.graph)))) := by
    have hpaired := Transcript.paired_inner c.functions { rows := Rows.join [∅] l }
      ([∅].flatMap (path.extend c.graph))
    rw [solutions_eq_transcript, Stage.transcript_root, Op.transcript, Op.transcript, hside, hpath,
      hc]
    exact congrArg (fun y : Transcript => (y.arranged
      ((Gathering.group [] [⟨⟨"s"⟩, total⟩]).arrange c.functions ·)).result) hpaired
  refine ⟨by decide, by decide, by decide, (hstreamed ctx rfl).trans ?_, (hloaded _ rfl).trans ?_⟩
  · exact congrArg Except.ok (by decide)
  · exact congrArg Except.ok (by decide)

end SparqlAlgebra
