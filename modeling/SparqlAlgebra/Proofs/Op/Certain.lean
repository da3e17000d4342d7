import Mathlib.Data.Set.Basic
import SparqlAlgebra.Proofs.Op.Summary
import SparqlAlgebra.Proofs.Op.Within
import SparqlAlgebra.Proofs.Rows.Bound

/-!
The variables that every row of a plan binds, told from the operator. Unlike the scope, this looks
at the rows of a table instead of its declaration, at the expressions of assignments and groupings,
and at what becomes of rows that are fed into another operator.
-/

namespace SparqlAlgebra

namespace Binding

/-- The row binds all variables of the set. -/
def Meets (S : Set Var) (b : Binding) : Prop := ∀ v ∈ S, b.contains v = true

variable {S T : Set Var} {b c : Binding}

theorem meets_empty (b : Binding) : b.Meets ∅ := fun _ hv => hv.elim

theorem Meets.mono (h : b.Meets T) (hST : S ⊆ T) : b.Meets S := fun v hv => h v (hST hv)

theorem Meets.union (hS : b.Meets S) (hT : b.Meets T) : b.Meets (S ∪ T) :=
  fun v hv => hv.elim (hS v) (hT v)

theorem upward_meets (S : Set Var) : Upward (Meets S) := by
  intro b c hb h v hv
  obtain ⟨t, ht⟩ := Option.isSome_iff_exists.1 (hb v hv)
  exact Option.isSome_iff_exists.2 ⟨t, h v t ht⟩

theorem meets_insert (b : Binding) (v : Var) (t : Term) : Meets {v} (b.insert v t) := by
  rintro w rfl
  simp [SortedMap.contains]

end Binding

open Binding

namespace Expr

/-- The expression has a value on every row that binds the variables. -/
def Certain (fs : Functions) (S : Set Var) (e : Expr) : Prop :=
  ∀ b : Binding, b.Meets S → ∃ t, e.eval fs b = .ok t

variable {fs : Functions} {S : Set Var}

theorem certain_var {v : Var} (hv : v ∈ S) : (var v).Certain fs S := by
  intro b hb
  obtain ⟨t, ht⟩ := Option.isSome_iff_exists.1 (hb v hv)
  exact ⟨t, by rw [eval, ht]⟩

end Expr

namespace Aggregator

/-- The aggregate has a value for every group of rows that bind the variables. Without grouping
variables a group may be empty, and no group has more rows than an integer counts. -/
def Certain (fs : Functions) (vars : List Var) (S : Set Var) (a : Aggregator) : Prop :=
  ∀ rows : List Binding, rows.length < 2 ^ 63 → (rows = [] → vars = []) →
    (∀ b ∈ rows, b.Meets S) → ∃ t, a.eval fs rows = some t

variable {fs : Functions} {vars : List Var} {S : Set Var} {e : Expr}

theorem countTerm_of_lt {n : Nat} (h : n < 2 ^ 63) : ∃ t, countTerm n = some t := by
  have hn : (Int64.ofNat n).toInt = n := Int64.toInt_ofNat_of_lt h
  exact ⟨.int (Int64.ofNat n), by rw [countTerm, Number.toInt64?_eq_some_iff.2 hn, Option.map_some]⟩

/-- Counts always have a value, as long as there are no more rows than an integer counts. -/
theorem certain_count (e : Option Expr) (distinct : Bool) :
    (count e distinct).Certain fs vars S := by
  intro rows hlen _ _
  have hcount {α : Type} [DecidableEq α] (l : List α) (hl : l.length ≤ rows.length) :
      ∃ t, countTerm (if distinct then Rows.firsts [] l else l).length = some t := by
    refine countTerm_of_lt (Nat.lt_of_le_of_lt ?_ hlen)
    split
    · exact Nat.le_trans (Rows.firsts_sublist [] l).length_le hl
    · exact hl
  cases e with
  | none => exact hcount rows (Nat.le_refl _)
  | some e => exact hcount (values fs e rows) (List.length_filterMap_le _ rows)

/-- A certain expression has values in every group that is not empty. -/
theorem values_ne_nil (he : e.Certain fs S) {rows : List Binding} (hne : rows ≠ [])
    (hrows : ∀ b ∈ rows, b.Meets S) : values fs e rows ≠ [] := by
  cases rows with
  | nil => exact (hne rfl).elim
  | cons b rows =>
    obtain ⟨t, ht⟩ := he b (hrows b List.mem_cons_self)
    simp [values, ht, Except.toOption]

/-- Where its expression is certain, a pick among its values has a value in every group that is not
empty. -/
theorem certain_pick (hv : vars ≠ []) (he : e.Certain fs S) {a : Aggregator}
    (ha : a = sample e ∨ a = min e ∨ a = max e) : a.Certain fs vars S := by
  intro rows _ hempty hrows
  have hvalues : values fs e rows ≠ [] := values_ne_nil he (fun h => hv (hempty h)) hrows
  obtain ⟨t, ts, hts⟩ := List.exists_cons_of_ne_nil hvalues
  rcases ha with rfl | rfl | rfl
  · exact ⟨t, by rw [eval, hts, List.head?_cons]⟩
  · exact ⟨_, by rw [eval, hts, least]⟩
  · exact ⟨_, by rw [eval, hts, greatest]⟩

end Aggregator

namespace RowRule

/-- The variables that are bound after assignments to rows that bind the variables. -/
def assigned (fs : Functions) : Set Var → List (Var × Expr) → Set Var
  | S, [] => S
  | S, (v, e) :: rest => assigned fs (S ∪ {w | w = v ∧ e.Certain fs S}) rest

theorem meets_of_extend {fs : Functions} {assignments : List (Var × Expr)} {S : Set Var}
    {b c : Binding} (h : extend fs assignments b = some c) (hb : b.Meets S) :
    c.Meets (assigned fs S assignments) := by
  induction assignments generalizing b S with
  | nil => exact Option.some.inj h ▸ hb
  | cons a rest ih =>
    obtain ⟨v, e⟩ := a
    have hone (d : Binding) (hd : d.Meets S)
        (hv : e.Certain fs S → d.contains v = true) :
        d.Meets (S ∪ {w | w = v ∧ e.Certain fs S}) := by
      refine hd.union ?_
      rintro w ⟨rfl, he⟩
      exact hv he
    rw [extend] at h
    cases he : e.eval fs b with
    | error err =>
      rw [he] at h
      refine ih h (hone b hb fun hcertain => ?_)
      obtain ⟨t, ht⟩ := hcertain b hb
      cases he.symm.trans ht
    | ok t =>
      rw [he] at h
      dsimp only at h
      cases hold : b.get? v with
      | some old =>
        rw [hold] at h
        dsimp only at h
        split at h
        · exact ih h (hone b hb fun _ => Option.isSome_iff_exists.2 ⟨old, hold⟩)
        · cases h
      | none =>
        rw [hold] at h
        have hext : Extends (b.insert v t) b := extends_insert hold t
        exact ih h (hone _ (upward_meets S hb hext) fun _ => meets_insert b v t v rfl)

end RowRule

namespace Rows

/-- The row of a group binds the grouping variables that all rows bind, and the variables of the
aggregates that have a value for sure. -/
theorem meets_of_mem_group {fs : Functions} {vars : List Var} {aggs : List Aggregation}
    {S : Set Var} {l : List Binding} (hlen : l.length < 2 ^ 63) (hl : ∀ b ∈ l, b.Meets S)
    {c : Binding} (hc : c ∈ group fs vars aggs l) :
    c.Meets (({v | v ∈ vars} ∩ S) ∪
      {v | ∃ a ∈ aggs, a.var = v ∧ a.aggregator.Certain fs vars S}) := by
  obtain ⟨⟨key, members⟩, hmem, rfl⟩ := List.mem_map.1 hc
  obtain ⟨hsub, hkey⟩ := mem_groups hmem
  have hmembers : ∀ b ∈ members, b.Meets S := fun b hb => hl b (hsub.subset hb)
  rintro v (⟨(hv : v ∈ vars), hvS⟩ | ⟨a, ha, rfl, hcertain⟩)
  · refine (contains_foldl_aggregates fs aggs members _).2 (.inl ?_)
    rcases hkey with ⟨rfl, -⟩ | ⟨b, hb, rfl⟩
    · cases hv
    · obtain ⟨t, ht⟩ := Option.isSome_iff_exists.1 (hmembers b hb v hvS)
      rw [SortedMap.contains, get?_foldl_zip, if_pos hv, ht]
      rfl
  · refine (contains_foldl_aggregates fs aggs members _).2 (.inr ⟨a, ha, rfl, ?_⟩)
    refine hcertain members (Nat.lt_of_le_of_lt hsub.length_le hlen) ?_ hmembers
    rintro rfl
    rcases hkey with ⟨hvars, -⟩ | ⟨b, hb, -⟩
    · exact hvars
    · cases hb

end Rows

namespace Stage

variable {S T : Set Var} {n : Nat} {s right : Stage}

theorem meets_root (n : Nat) : root.WithinFirst n (Meets ∅) := fun b _ => meets_empty b

theorem meets_triple (p : TriplePattern) (g : Graph) (hs : s.WithinFirst n (Meets S)) :
    (each (.triple p g) s).WithinFirst n (Meets (S ∪ {v | v ∈ p.vars})) :=
  withinFirst_triple hs fun _ hb _ hc v hv =>
    (TriplePattern.contains_of_mem_extend hc v).2 (hv.imp_left (hb v))

theorem meets_pattern (p : BasicPattern) (g : Graph) (hs : s.WithinFirst n (Meets S)) :
    (p.stage g s).WithinFirst n (Meets (S ∪ {v | v ∈ p.vars})) := by
  induction p generalizing s S with
  | nil => exact hs.mono fun b hb => hb.mono (by simp [BasicPattern.vars])
  | cons t p ih =>
    refine (ih (meets_triple t g hs)).mono fun b hb => hb.mono ?_
    rintro v (hv | hv)
    · exact .inl (.inl hv)
    · have hvars : v ∈ t.vars ∨ v ∈ BasicPattern.vars p := by
        simpa [BasicPattern.vars] using hv
      exact hvars.elim (fun hv => .inl (.inr hv)) .inr

theorem meets_path (p : PathPattern) (g : Graph) (hs : s.WithinFirst n (Meets S)) :
    (each (.path p g) s).WithinFirst n (Meets (S ∪ {v | v ∈ p.vars})) :=
  withinFirst_path hs fun _ hb _ hc v hv =>
    (PathPattern.contains_of_mem_extend hc v).2 (hv.imp_left (hb v))

theorem meets_inner (ctx : Context) (hs : s.WithinFirst n (Meets S))
    (hr : right.WithinFirst n (Meets T)) :
    (pair .inner ctx s right none []).WithinFirst n (Meets (S ∪ T)) := by
  refine withinFirst_pair hs hr fun b r hb hr c hc => ?_
  obtain ⟨d, hd, hm⟩ := List.mem_filterMap.1 hc
  refine (upward_meets S hb (extends_merge_left hm)).union fun v hv => ?_
  rw [contains_merge hm, hr d hd v hv, Bool.or_true]

theorem meets_table (t : Table) (ctx : Context) (hs : s.WithinFirst n (Meets S)) :
    (t.stage ctx s).WithinFirst n (Meets (S ∪ {v | ∀ b ∈ t.rows, b.contains v = true})) := by
  have hrows : (rows t.rows).WithinFirst n (Meets {v | ∀ b ∈ t.rows, b.contains v = true}) :=
    (within_rows fun b hb v hv => hv b hb).first n
  rcases t.stage_cases ctx s with ⟨hid, ht⟩ | ⟨rfl, ht⟩ | ht <;> rw [ht]
  · -- The one row binds nothing, so no variable is bound in all rows.
    refine hs.mono fun b hb => hb.union fun v hv => ?_
    cases hv ∅ (hid ▸ List.mem_singleton.2 rfl)
  · cases n with
    | zero => exact withinFirst_zero _ _
    | succ n =>
      -- The row of the root binds nothing, so nothing is asked of the input.
      have hnone : Meets S ∅ := hs ∅ (.here false ⟨rfl, rfl⟩)
      refine hrows.mono fun b hb => Meets.union (fun v hv => ?_) hb
      cases hnone v hv
  · exact meets_inner ctx hs hrows

theorem meets_group (vars : List Var) (aggs : List Aggregation) (ctx : Context) (hn : n < 2 ^ 63)
    (hs : s.WithinFirst n (Meets S)) :
    (gather (.group vars aggs) ctx s []).WithinFirst n (Meets (({v | v ∈ vars} ∩ S) ∪
      {v | ∃ a ∈ aggs, a.var = v ∧ a.aggregator.Certain ctx.functions vars S})) :=
  withinFirst_gather hs fun _ hlen hl _ hc =>
    Rows.meets_of_mem_group (Nat.lt_of_le_of_lt hlen hn) hl hc

end Stage

namespace Op

mutual

/-- The variables that every row binds, over rows that bind those of `fed`. What is not compiled,
like what has no rows, binds whatever one likes; procedures and extensions are not looked into. -/
def certain (c : Config) (fs : Functions) : Op → Set Var → Set Var
  | bgp p, fed => fed ∪ {v | v ∈ p.vars}
  | triple t, fed => fed ∪ {v | v ∈ t.vars}
  | quad q, fed => fed ∪ {v | v ∈ q.pattern.vars ∨ q.graph.isSome}
  | path p, fed => fed ∪ {v | v ∈ p.vars}
  | join l r, fed =>
    if c.streamedJoins && joinStreams l r then certain c fs r (certain c fs l fed)
    else certain c fs l fed ∪ certain c fs r ∅
  | leftJoin l r _, fed =>
    if c.streamedLeftJoins && leftJoinStreams l r then
      certain c fs l fed ∩ certain c fs r (certain c fs l fed)
    else certain c fs l fed
  | union l r, fed => certain c fs l fed ∩ certain c fs r fed
  | diff l _, fed => certain c fs l fed
  | conditional .., _ => Set.univ
  | datasetNames _, _ => Set.univ
  | filter _ sub, fed => certain c fs sub fed
  | graph name sub, fed => certain c fs sub (fed ∪ {v | name = .var v})
  | service endpoint sub silent, fed =>
    let answered := certain c fs sub (fed ∪ {v | endpoint = .var v})
    if silent then fed ∩ answered else answered
  | procedure .., _ => ∅
  | propFunc .., _ => ∅
  | table t, fed => fed ∪ {v | ∀ b ∈ t.rows, b.contains v = true}
  | sequence steps, fed => certainSteps c fs steps fed
  | marker _, fed => fed
  | label _ sub, fed => certain c fs sub fed
  | list sub, fed => certain c fs sub fed
  | null, _ => Set.univ
  | project vars sub, fed => {v | v ∈ vars} ∩ certain c fs sub fed
  | order _ sub, fed => certain c fs sub fed
  | slice _ _ sub, fed => certain c fs sub fed
  | distinct sub, fed => certain c fs sub fed
  | reduced sub, fed => certain c fs sub fed
  | group vars aggs sub, fed =>
    ({v | v ∈ vars} ∩ certain c fs sub fed) ∪
      {v | ∃ a ∈ aggs, a.var = v ∧ a.aggregator.Certain fs vars (certain c fs sub fed)}
  | assign assignments sub, fed => RowRule.assigned fs (certain c fs sub fed) assignments
  | ext _, _ => ∅

def certainSteps (c : Config) (fs : Functions) : List Op → Set Var → Set Var
  | [], fed => fed
  | op :: rest, fed => certainSteps c fs rest (certain c fs op fed)

end

open Stage

/-- Over rows that bind variables, the operator shows only rows that bind what is certain then. Runs
of more steps than an integer counts are left out. -/
def Ensures (op : Op) : Prop :=
  ∀ ⦃ctx : Context⦄ ⦃i s : Stage⦄ ⦃n : Nat⦄ ⦃fed : Set Var⦄, n < 2 ^ 63 → Builds ctx op i s →
    i.WithinFirst n (Meets fed) → s.WithinFirst n (Meets (op.certain ctx.config ctx.functions fed))

variable {l r sub : Op}

/-- An operator that is compiled over a single row. -/
theorem Ensures.seeded {op : Op} (h : op.Ensures) {ctx : Context} {b : Binding} {u : Stage}
    {n : Nat} {fed : Set Var} (hn : n < 2 ^ 63) (hu : (compile ctx op (rows [b])).result = .ok u)
    (hb : b.Meets fed) :
    u.WithinFirst n (Meets (op.certain ctx.config ctx.functions fed)) :=
  h hn (builds_of_compile hu) ((within_single hb).first n)

theorem certain_subset_of_mem_branches (c : Config) (fs : Functions) (fed : Set Var) (op : Op) :
    ∀ b ∈ op.branches, op.certain c fs fed ⊆ b.certain c fs fed := by
  refine forall_mem_branches (P := fun b => op.certain c fs fed ⊆ b.certain c fs fed) ?_ subset_rfl
  exact fun l r h => ⟨h.trans Set.inter_subset_left, h.trans Set.inter_subset_right⟩

theorem ensures_union (h : ∀ op ∈ l.branches ++ r.branches, op.Ensures) : (union l r).Ensures := by
  intro ctx i s n fed hn hs hi
  cases hs
  refine withinFirst_union hi fun op ho b u hb hu => ?_
  exact (h op ho hn hu ((within_single hb).first n)).mono fun c hc =>
    hc.mono (certain_subset_of_mem_branches _ _ fed (union l r) op ho)

/-- The row that the part is run over binds the name of the graph. -/
theorem ensures_graph (h : sub.Ensures) (name : Slot) : (graph name sub).Ensures := by
  intro ctx i s n fed hn hs hi
  cases hs
  refine withinFirst_graph hi fun b c t g u hb hc hu => ?_
  have hseed : c.Meets (fed ∪ {v | name = .var v}) := by
    refine (upward_meets fed hb hc.kept).union ?_
    rintro v rfl
    exact Option.isSome_iff_exists.2 ⟨t, hc.resolve⟩
  have hsub := h hn hu ((within_single hseed).first n)
  exact hsub

theorem ensures_service (h : sub.Ensures) (endpoint : Slot) (silent : Bool) :
    (service endpoint sub silent).Ensures := by
  intro ctx i s n fed hn hs hi
  cases hs
  refine withinFirst_service hi (fun b d u hb hd hu => ?_) ?_
  · have hseed : b.Meets (fed ∪ {v | endpoint = .var v}) := by
      refine hb.union ?_
      rintro v rfl
      obtain ⟨t, ht⟩ := Expansion.resolve_of_endpointData hd
      exact Option.isSome_iff_exists.2 ⟨t, ht⟩
    have hsub := h hn hu ((within_single hseed).first n)
    cases silent with
    | false => exact hsub
    | true => exact hsub.mono fun c hc => hc.mono Set.inter_subset_right
  · rintro rfl b hb
    exact hb.mono Set.inter_subset_left

theorem ensures_join (hl : l.Ensures) (hr : r.Ensures) : (join l r).Ensures := by
  intro ctx i s n fed hn hs hi
  cases hs with
  | joinFed hfed hls hrs =>
    -- What the left rows bind counts on the right side only as far as that side keeps it.
    rw [certain, if_pos hfed]
    exact hr hn hrs (hl hn hls hi)
  | joinPaired hfed hls hrs =>
    rw [certain, if_neg (Bool.eq_false_iff.1 hfed)]
    exact meets_inner ctx (hl hn hls hi) (hr hn hrs (meets_root n))

theorem ensures_diff (hl : l.Ensures) (r : Op) : (diff l r).Ensures := by
  intro ctx i s n fed hn hs hi
  cases hs with
  | diff hls _ => exact withinFirst_paired (upward_meets _) .minus ctx _ (hl hn hls hi)

theorem ensures_filter (h : sub.Ensures) (exprs : List Expr) : (filter exprs sub).Ensures := by
  intro ctx i s n fed hn hs hi
  cases hs with
  | filter exprs hs => exact withinFirst_filters exprs (h hn hs hi)

theorem Ensures.filtered {op : Op} (h : op.Ensures) (exprs : Option (List Expr)) {ctx : Context}
    {b : Binding} {u : Stage} {n : Nat} {fed : Set Var} (hn : n < 2 ^ 63)
    (hu : (compile ctx (op.filtered exprs) (rows [b])).result = .ok u) (hb : b.Meets fed) :
    u.WithinFirst n (Meets (op.certain ctx.config ctx.functions fed)) := by
  rcases exprs with _ | _ | ⟨e, es⟩
  · exact h.seeded hn hu hb
  · exact h.seeded hn hu hb
  · exact (ensures_filter h (e :: es)).seeded hn hu hb

theorem ensures_leftJoin (hl : l.Ensures) (hr : r.Ensures) (exprs : Option (List Expr)) :
    (leftJoin l r exprs).Ensures := by
  intro ctx i s n fed hn hs hi
  cases hs with
  | leftJoinFed hfed hls =>
    rw [certain, if_pos hfed]
    refine withinFirst_optional (hl hn hls hi) (fun b hb => hb.mono Set.inter_subset_left) ?_
    exact fun b u hb hu => (hr.filtered exprs hn hu hb).mono fun c hc =>
      hc.mono Set.inter_subset_right
  | leftJoinPaired hfed hls hrs =>
    rw [certain, if_neg (Bool.eq_false_iff.1 hfed)]
    exact withinFirst_paired (upward_meets _) _ ctx _ (hl hn hls hi)

theorem ensures_sequence {steps : List Op} (h : ∀ op ∈ steps, op.Ensures) :
    (sequence steps).Ensures := by
  intro ctx i s n fed hn hs hi
  rw [certain]
  induction steps generalizing i fed with
  | nil =>
    cases hs
    exact hi
  | cons op rest ih =>
    cases hs with
    | steps hop hrest =>
      have hmid := h op List.mem_cons_self hn hop hi
      exact ih (fun o ho => h o (List.mem_cons_of_mem op ho)) hrest hmid

theorem ensures (op : Op) : op.Ensures := by
  -- The bound on steps goes down to the operands as it is: a stage takes no more steps of a stage
  -- below than it takes itself. Only groupings look at it.
  induction op using operands_induction with
  | step op ih =>
    cases op with
    | join l r => exact ensures_join (ih l (by simp [operands])) (ih r (by simp [operands]))
    | leftJoin l r exprs =>
      exact ensures_leftJoin (ih l (by simp [operands])) (ih r (by simp [operands])) exprs
    | union l r =>
      exact ensures_union fun op ho => ih op (List.mem_cons_of_mem l (List.mem_cons_of_mem r ho))
    | diff l r => exact ensures_diff (ih l (by simp [operands])) r
    | filter exprs sub => exact ensures_filter (ih sub (by simp [operands])) exprs
    | graph name sub => exact ensures_graph (ih sub (by simp [operands])) name
    | service endpoint sub silent =>
      exact ensures_service (ih sub (by simp [operands])) endpoint silent
    | sequence steps => exact ensures_sequence ih
    | bgp p =>
      rintro ctx i _ n fed - ⟨⟩ hi
      exact meets_pattern p _ hi
    | triple p =>
      rintro ctx i _ n fed - ⟨⟩ hi
      exact meets_triple p _ hi
    | quad q =>
      rintro ctx i _ n fed - ⟨⟩ hi
      exact (meets_pattern _ _ hi).mono fun b hb => hb.mono fun v => Or.imp_right fun hv =>
        hv.resolve_right Bool.false_ne_true
    | path p =>
      rintro ctx i _ n fed - ⟨⟩ hi
      exact meets_path p _ hi
    | table t =>
      rintro ctx i _ n fed - ⟨⟩ hi
      exact meets_table t ctx hi
    | marker name =>
      rintro ctx i _ n fed - ⟨⟩ hi
      exact hi
    | null =>
      rintro ctx i _ n fed - ⟨⟩ -
      exact (within_nil _).first n
    | conditional l r => rintro ctx i s n fed - ⟨⟩
    | datasetNames g => rintro ctx i s n fed - ⟨⟩
    | procedure name args sub => exact fun _ _ _ _ _ _ _ _ b _ => meets_empty b
    | propFunc property subject object sub => exact fun _ _ _ _ _ _ _ _ b _ => meets_empty b
    | ext e => exact fun _ _ _ _ _ _ _ _ b _ => meets_empty b
    | label name sub =>
      intro ctx i s n fed hn hs hi
      cases hs with
      | label name hs => exact ih sub (by simp [operands]) hn hs hi
    | list sub =>
      intro ctx i s n fed hn hs hi
      cases hs with
      | list hs => exact ih sub (by simp [operands]) hn hs hi
    | project vars sub =>
      intro ctx i s n fed hn hs hi
      cases hs with
      | project vars hs =>
        refine withinFirst_project (ih sub (by simp [operands]) hn hs hi) fun b hb v hv => ?_
        exact (contains_project b vars v).2 ⟨hv.1, hb v hv.2⟩
    | order keys sub =>
      intro ctx i s n fed hn hs hi
      cases hs with
      | order keys hs =>
        refine withinFirst_gather (ih sub (by simp [operands]) hn hs hi) fun l _ hl c hc => ?_
        exact hl c (Move.mem_of_mem_sort hc)
    | slice offset length sub =>
      intro ctx i s n fed hn hs hi
      cases hs with
      | slice offset length hs =>
        exact withinFirst_slice (ih sub (by simp [operands]) hn hs hi) _ _
    | distinct sub =>
      intro ctx i s n fed hn hs hi
      cases hs with
      | distinct hs => exact withinFirst_sifted rfl (ih sub (by simp [operands]) hn hs hi)
    | reduced sub =>
      intro ctx i s n fed hn hs hi
      cases hs with
      | reduced hs => exact withinFirst_sifted rfl (ih sub (by simp [operands]) hn hs hi)
    | group vars aggs sub =>
      intro ctx i s n fed hn hs hi
      cases hs with
      | group vars aggs hs =>
        exact meets_group vars aggs ctx hn (ih sub (by simp [operands]) hn hs hi)
    | assign assignments sub =>
      intro ctx i s n fed hn hs hi
      cases hs with
      | assign assignments hs =>
        exact withinFirst_assign (ih sub (by simp [operands]) hn hs hi) fun b hb c hc =>
          RowRule.meets_of_extend hc hb

end Op

end SparqlAlgebra
