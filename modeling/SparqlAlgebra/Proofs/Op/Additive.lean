import SparqlAlgebra.Proofs.Binding.Extends
import SparqlAlgebra.Proofs.Op.Builds
import SparqlAlgebra.Proofs.Op.Everywhere
import SparqlAlgebra.Proofs.Path.Extend
import SparqlAlgebra.Proofs.Stage.Build
import SparqlAlgebra.Proofs.Stage.Yields

/-!
Operators that only ever add bindings. Each row they show, at whatever time, extends a row of the
input: an invariant of stages that compilation sets up and every step and every release keeps.
-/

namespace SparqlAlgebra

/-- A property that a row passes on to its extensions. -/
def Binding.Upward (P : Binding → Prop) : Prop := ∀ ⦃b c⦄, P b → c.Extends b → P c

open Binding

section Growth

variable {b c : Binding}

theorem Binding.Merges.extends {f : Binding → Option Binding} {vars : List Var}
    (h : Binding.Merges f vars) (hc : f b = some c) : c.Extends b := by
  rw [h.merge] at hc
  obtain ⟨r, -, hr⟩ := Option.bind_eq_some_iff.1 hc
  exact extends_merge_left hr

theorem TriplePattern.extends_of_mem_extend {p : TriplePattern} {g : Graph}
    (h : c ∈ p.extend g b) : c.Extends b := by
  rw [TriplePattern.extend_eq] at h
  obtain ⟨t, -, ht⟩ := List.mem_filterMap.1 h
  exact (p.merges_bind t).extends ht

theorem PathPattern.extends_of_mem_extend {p : PathPattern} {g : Graph} (h : c ∈ p.extend g b) :
    c.Extends b := by
  rw [PathPattern.extend_eq] at h
  obtain ⟨e, -, he⟩ := List.mem_filterMap.1 h
  exact (p.merges_bind e).extends he

theorem Pairing.extends_of_mem_combine {rule : Pairing} {fs : Functions} {r : List Binding}
    (h : c ∈ rule.combine fs b r) : c.Extends b := by
  have hmerge (hc : c ∈ r.filterMap b.merge) : c.Extends b := by
    obtain ⟨a, -, ha⟩ := List.mem_filterMap.1 hc
    exact extends_merge_left ha
  cases rule with
  | inner => exact hmerge h
  | optional exprs =>
    unfold combine at h
    dsimp only at h
    split at h
    · rw [List.mem_singleton.1 h]
      exact .refl b
    · exact hmerge (List.mem_of_mem_filter h)
  | minus =>
    unfold combine at h
    dsimp only at h
    split at h
    · cases h
    · rw [List.mem_singleton.1 h]
      exact .refl b

theorem Rows.extends_of_assignOne {fs : Functions} {a : Var × Expr}
    (h : Rows.assignOne fs b a = some c) : c.Extends b := by
  unfold Rows.assignOne at h
  split at h
  · exact extends_merge_left h
  · rw [← Option.some.inj h]
    exact .refl b

theorem RowRule.extends_of_extend {fs : Functions} {assignments : List (Var × Expr)}
    (h : RowRule.extend fs assignments b = some c) : c.Extends b := by
  rw [RowRule.extend_eq_foldlM] at h
  induction assignments generalizing b with
  | nil =>
    rw [← Option.some.inj h]
    exact .refl b
  | cons a assignments ih =>
    rw [List.foldlM_cons] at h
    obtain ⟨x, hx, h⟩ := Option.bind_eq_some_iff.1 h
    exact (ih h).trans (Rows.extends_of_assignOne hx)

end Growth

namespace RowRule

/-- Whether the rule passes on no row with fewer bindings than it came with. -/
def additive : RowRule → Bool
  | project _ => false
  | _ => true

variable {rule : RowRule} {fs : Functions} {b c : Binding}

theorem additive_feed (h : rule.additive = true) : (rule.feed fs b).1.additive = true := by
  cases rule with
  | project vars => cases h
  | distinct seen =>
    rw [feed]
    split <;> rfl
  | _ => rfl

theorem additive_reset (h : rule.additive = true) : rule.reset.additive = true := by
  cases rule with
  | project vars => cases h
  | _ => rfl

theorem extends_of_feed (h : rule.additive = true) (hc : (rule.feed fs b).2 = some c) :
    c.Extends b := by
  have hsame (hb : some b = some c) : c.Extends b := by
    rw [← Option.some.inj hb]
    exact .refl b
  cases rule with
  | filter e =>
    rw [feed] at hc
    dsimp only at hc
    split at hc
    · exact hsame hc
    · cases hc
  | project vars => cases h
  | distinct seen =>
    rw [feed] at hc
    split at hc
    · cases hc
    · exact hsame hc
  | reduced capacity recent =>
    rw [feed] at hc
    dsimp only at hc
    split at hc
    · cases hc
    · exact hsame hc
  | assign assignments => exact extends_of_extend hc

end RowRule

namespace Op

/-- Whether no operator in the tree makes rows of its own or takes bindings away. -/
def additive (op : Op) : Bool :=
  op.everywhere fun
    | project .. | group .. | procedure .. | propFunc .. | ext _ => false
    | _ => true

variable {op sub : Op}

theorem additive_operand (h : op.additive = true) (hs : sub ∈ op.operands) :
    sub.additive = true :=
  everywhere_of_mem_operands h hs

theorem additive_sequence {steps : List Op} (h : ∀ op ∈ steps, op.additive = true) :
    (sequence steps).additive = true := by
  unfold additive
  rw [everywhere, everywhereSteps_eq, Bool.and_eq_true]
  exact ⟨rfl, List.all_eq_true.2 h⟩

theorem additive_filtered (h : op.additive = true) (exprs : Option (List Expr)) :
    (op.filtered exprs).additive = true := by
  unfold filtered
  split
  · simpa [additive, everywhere] using h
  · exact h

end Op

/-- Whether the operators that wait in the rule are additive, if it makes no rows of its own. -/
def Expansion.additive : Expansion → Bool
  | triple .. => true
  | path .. => true
  | union branches _ => branches.all Op.additive
  | graph _ sub _ => sub.additive
  | service _ sub _ _ => sub.additive
  | procedure .. => false

theorem Expansion.additive_after {rule : Expansion} (h : rule.additive = true) (b : Binding) :
    (rule.after b).additive = true := by
  cases rule with
  | procedure p earlier => cases h
  | _ => exact h

namespace Stage

/-- All rows in the stage have the property, and only additive operators wait in it. The rows that
sides and parts are matched against count for nothing here. -/
inductive Keeps (P : Binding → Prop) : Stage → Prop where
  | input {s : Stage} : (∀ b, s.Yields b → P b) → Keeps P s
  | rows {rest : List Binding} : (∀ b ∈ rest, P b) → Keeps P (rows rest)
  | each {rule : Expansion} {input : Stage} :
    rule.additive = true → Keeps P input → Keeps P (each rule input)
  | eachOf {rule : Expansion} {input current : Stage} :
    rule.additive = true → Keeps P input → Keeps P current → Keeps P (eachOf rule input current)
  | eachHeld {rule : Expansion} {ctx : Context} {input held : Stage} {row : Binding}
    {acc : List Binding} :
    rule.additive = true → Keeps P input → P row → Keeps P held → (∀ b ∈ acc, P b) →
    Keeps P (eachHeld rule ctx input row held acc)
  | chain {pending : List Seeded} :
    (∀ p ∈ pending, p.op.additive = true ∧ P p.seed) → Keeps P (chain pending)
  | chainOf {pending : List Seeded} {current : Stage} :
    (∀ p ∈ pending, p.op.additive = true ∧ P p.seed) → Keeps P current →
    Keeps P (chainOf pending current)
  | pair {rule : Pairing} {ctx : Context} {left right : Stage} {loaded : Option (List Binding)}
    {queue : List Binding} :
    Keeps P left → (∀ b ∈ queue, P b) → Keeps P (pair rule ctx left right loaded queue)
  | pairLoad {rule : Pairing} {ctx : Context} {left right : Stage} {row : Binding}
    {acc : List Binding} :
    Keeps P left → P row → Keeps P (pairLoad rule ctx left right row acc)
  | optional {part : Op} {ctx : Context} {left : Stage} :
    part.additive = true → Keeps P left → Keeps P (optional part ctx left)
  | optionalOf {part : Op} {ctx : Context} {left current : Stage} {seed : Binding}
    {found : Bool} :
    part.additive = true → Keeps P left → P seed → Keeps P current →
    Keeps P (optionalOf part ctx left seed current found)
  | sort {keys : List SortKey} {ctx : Context} {input : Stage} {acc : List Binding} :
    Keeps P input → (∀ b ∈ acc, P b) → Keeps P (gather (.sort keys) ctx input acc)
  | gathered {input : Stage} {rest : List Binding} :
    (∀ b ∈ rest, P b) → Keeps P (gathered input rest)
  | slice {input : Stage} {skip : Nat} {limit : Option Nat} :
    Keeps P input → Keeps P (slice input skip limit)
  | via {rule : RowRule} {fs : Functions} {input : Stage} {closed : Bool} :
    rule.additive = true → Keeps P input → Keeps P (via rule fs input closed)

variable {P : Binding → Prop} {s t : Stage}

theorem keeps_nil (P : Binding → Prop) : Keeps P (rows []) := .rows (List.forall_mem_nil _)

theorem keeps_single {b : Binding} (h : P b) : Keeps P (rows [b]) :=
  .rows (List.forall_mem_singleton.2 h)

theorem Keeps.close (h : Keeps P s) : Keeps P s.close := by
  induction h with
  | input h => exact .input fun b hb => h b (.released hb)
  | @via rule fs input closed hr hi ih =>
    cases closed with
    | false => exact .via (RowRule.additive_reset hr) ih
    | true => exact .via hr hi
  | _ => exact keeps_nil P

section Compiled

theorem keeps_pattern (p : BasicPattern) (g : Graph) (h : Keeps P s) : Keeps P (p.stage g s) := by
  induction p generalizing s with
  | nil => exact h
  | cons t p ih => exact ih (.each rfl h)

theorem keeps_filters (fs : Functions) (exprs : List Expr) (h : Keeps P s) :
    Keeps P (exprs.foldl (fun s e => Stage.via (.filter e) fs s false) s) := by
  induction exprs generalizing s with
  | nil => exact h
  | cons e exprs ih => exact ih (.via rfl h)

/-- The root is the only input that is dropped, and every row extends the empty one. -/
theorem keeps_table (hP : Upward P) (t : Table) (ctx : Context) (h : Keeps P s) :
    Keeps P (t.stage ctx s) := by
  rcases t.stage_cases ctx s with ⟨-, ht⟩ | ⟨rfl, ht⟩ | ht <;> rw [ht]
  · exact h
  · cases h with
    | input h =>
      have hempty : P ∅ := h ∅ (yields_root_iff.2 rfl)
      exact .rows fun b _ => hP hempty (extends_empty b)
  · exact .pair h (List.forall_mem_nil _)

theorem keeps_of_builds {ctx : Context} {op : Op} {i : Stage} (hP : Upward P)
    (h : Op.Builds ctx op i s) (ha : op.additive = true) (hi : Keeps P i) : Keeps P s := by
  have below {op sub : Op} (ha : op.additive = true) (hs : sub ∈ op.operands := by
      simp [Op.operands]) : sub.additive = true :=
    Op.additive_operand ha hs
  induction h with
  | bgp p i => exact keeps_pattern p _ hi
  | triple t i => exact .each rfl hi
  | quad p i => exact keeps_pattern p _ hi
  | path p i => exact .each rfl hi
  | joinFed _ _ _ hl hr => exact hr (below ha) (hl (below ha) hi)
  | joinPaired _ _ _ hl _ => exact .pair (hl (below ha) hi) (List.forall_mem_nil _)
  | leftJoinFed _ _ hl =>
    exact .optional (Op.additive_filtered (below ha) _) (hl (below ha) hi)
  | leftJoinPaired _ _ _ hl _ => exact .pair (hl (below ha) hi) (List.forall_mem_nil _)
  | union l r i =>
    have hb : (l.branches ++ r.branches).all Op.additive = true :=
      List.all_eq_true.2 fun b hb => below ha (List.mem_cons_of_mem l (List.mem_cons_of_mem r hb))
    exact .each hb hi
  | diff _ _ hl _ => exact .pair (hl (below ha) hi) (List.forall_mem_nil _)
  | filter exprs _ ih => exact keeps_filters _ exprs (ih (below ha) hi)
  | graph name sub i => exact .each (below ha) hi
  | service endpoint sub silent i => exact .each (below ha) hi
  | table t i => exact keeps_table hP t _ hi
  | noSteps i => exact hi
  | @steps op rest i s t _ _ hop hrest =>
    have hr : (Op.sequence rest).additive = true :=
      Op.additive_sequence fun o ho => below ha (List.mem_cons_of_mem op ho)
    exact hrest hr (hop (below ha) hi)
  | marker name i => exact hi
  | label name _ ih => exact ih (below ha) hi
  | list _ ih => exact ih (below ha) hi
  | null i => exact keeps_nil P
  | order keys _ ih => exact .sort (ih (below ha) hi) (List.forall_mem_nil _)
  | slice offset length _ ih => exact .slice (ih (below ha) hi)
  | distinct _ ih => exact .via rfl (ih (below ha) hi)
  | reduced _ ih => exact .via rfl (ih (below ha) hi)
  | assign assignments _ ih => exact .via rfl (ih (below ha) hi)
  | project | group | procedure | propFunc | ext => cases Op.everywhere_self ha

theorem keeps_of_expands {b : Binding} {rule : Expansion} (hP : Upward P)
    (h : Expansion.Expands b rule s) (ha : rule.additive = true) (hb : P b) : Keeps P s := by
  cases h with
  | triple t g => exact .rows fun c hc => hP hb (TriplePattern.extends_of_mem_extend hc)
  | path p g => exact .rows fun c hc => hP hb (PathPattern.extends_of_mem_extend hc)
  | union branches ctx =>
    refine .chain fun p hp => ?_
    obtain ⟨op, ho, rfl⟩ := List.mem_map.1 hp
    exact ⟨List.all_eq_true.1 ha op ho, hb⟩
  | graphNamed _ _ hs => exact keeps_of_builds hP hs ha (keeps_single hb)
  | graphMissing => exact keeps_nil P
  | graphOpen hv =>
    -- The name of the graph is a variable that the row leaves open.
    refine .chain fun p hp => ?_
    obtain ⟨e, -, rfl⟩ := List.mem_map.1 hp
    exact ⟨ha, hP hb (extends_insert hv e.1)⟩
  | service _ hs => exact keeps_of_builds hP hs ha (keeps_single hb)
  | serviceSilent => exact keeps_single hb
  | procedure => cases ha

end Compiled

end Stage

open Stage

namespace Move

/-- The row that the step shows has the property, and so have all rows of the stage after it. -/
def Keeps (P : Binding → Prop) (m : Move) : Prop :=
  (∀ b ∈ m.signal.rows, P b) ∧ m.stage.Keeps P

variable {P : Binding → Prop} {m : Move}

theorem keeps_each {rule : Expansion} (hP : Upward P) (ha : rule.additive = true)
    (h : m.Keeps P) : (m.each rule).Keeps P := by
  obtain ⟨hb, hs⟩ := h
  unfold Move.each
  rcases m with ⟨_ | b | _ | e, s, cost⟩
  · exact ⟨hb, .each ha hs⟩
  · have hrow : P b := hb b (List.mem_singleton.2 rfl)
    have hafter := Expansion.additive_after ha b
    have hreach (u : Stage) (hu : Expansion.Reaches (rule.expand b).1 u) : Stage.Keeps P u :=
      keeps_of_expands hP (Expansion.expands_of_expand hu) ha hrow
    dsimp only
    rcases hx : rule.expand b with ⟨u | ⟨ctx, u⟩ | e, extra⟩
    · have hu := hreach u (.inl (by rw [hx]))
      exact ⟨List.forall_mem_nil _, .eachOf hafter hs hu⟩
    · have hu := hreach u (.inr ⟨ctx, by rw [hx]⟩)
      exact ⟨List.forall_mem_nil _, .eachHeld hafter hs hrow hu (List.forall_mem_nil _)⟩
    · exact ⟨List.forall_mem_nil _, .each hafter hs⟩
  · exact ⟨hb, .each ha hs⟩
  · exact ⟨hb, .each ha hs⟩

theorem keeps_eachOf {rule : Expansion} {input : Stage} (ha : rule.additive = true)
    (hi : input.Keeps P) (h : m.Keeps P) : (m.eachOf rule input).Keeps P := by
  obtain ⟨hb, hs⟩ := h
  unfold Move.eachOf
  rcases m with ⟨_ | b | _ | e, s, cost⟩
  · exact ⟨hb, .eachOf ha hi hs⟩
  · exact ⟨hb, .eachOf ha hi hs⟩
  · exact ⟨List.forall_mem_nil _, .each ha hi⟩
  · exact ⟨hb, .eachOf ha hi hs⟩

theorem keeps_eachHeld {rule : Expansion} {ctx : Context} {input : Stage} {row : Binding}
    {acc : List Binding} (ha : rule.additive = true) (hi : input.Keeps P) (hr : P row)
    (hacc : ∀ b ∈ acc, P b) (h : m.Keeps P) : (m.eachHeld rule ctx input row acc).Keeps P := by
  obtain ⟨hb, hs⟩ := h
  unfold Move.eachHeld
  rcases m with ⟨_ | b | _ | e, s, cost⟩
  · exact ⟨hb, .eachHeld ha hi hr hs hacc⟩
  · have hrow : P b := hb b (List.mem_singleton.2 rfl)
    exact ⟨List.forall_mem_nil _, .eachHeld ha hi hr hs (List.forall_mem_cons.2 ⟨hrow, hacc⟩)⟩
  · have hrev : ∀ b ∈ acc.reverse, P b := fun b hb => hacc b (List.mem_reverse.1 hb)
    exact ⟨List.forall_mem_nil _, .eachOf ha hi (.rows hrev)⟩
  · cases e with
    | cancelled => exact ⟨List.forall_mem_nil _, .each ha hi⟩
    | _ => exact ⟨List.forall_mem_nil _, .eachOf ha hi (keeps_single hr)⟩

theorem keeps_chainOf {pending : List Seeded}
    (hp : ∀ p ∈ pending, p.op.additive = true ∧ P p.seed) (h : m.Keeps P) :
    (m.chainOf pending).Keeps P := by
  obtain ⟨hb, hs⟩ := h
  unfold Move.chainOf
  rcases m with ⟨_ | b | _ | e, s, cost⟩
  · exact ⟨hb, .chainOf hp hs⟩
  · exact ⟨hb, .chainOf hp hs⟩
  · exact ⟨List.forall_mem_nil _, .chain hp⟩
  · exact ⟨hb, .chainOf hp hs⟩

theorem keeps_pair {rule : Pairing} {ctx : Context} {right : Stage}
    {loaded : Option (List Binding)} (hP : Upward P) (h : m.Keeps P) :
    (m.pair rule ctx right loaded).Keeps P := by
  obtain ⟨hb, hs⟩ := h
  unfold Move.pair
  rcases m with ⟨_ | b | _ | e, s, cost⟩
  · exact ⟨hb, .pair hs (List.forall_mem_nil _)⟩
  · have hrow : P b := hb b (List.mem_singleton.2 rfl)
    cases loaded with
    | some found =>
      refine ⟨List.forall_mem_nil _, .pair hs fun c hc => ?_⟩
      exact hP hrow (Pairing.extends_of_mem_combine hc)
    | none => exact ⟨List.forall_mem_nil _, .pairLoad hs hrow⟩
  · exact ⟨hb, .pair hs (List.forall_mem_nil _)⟩
  · exact ⟨hb, .pair hs (List.forall_mem_nil _)⟩

theorem keeps_pairLoad {rule : Pairing} {ctx : Context} {left : Stage} {row : Binding}
    {acc : List Binding} (hP : Upward P) (hl : left.Keeps P) (hr : P row) (m : Move) :
    (m.pairLoad rule ctx left row acc).Keeps P := by
  unfold Move.pairLoad
  rcases m with ⟨_ | b | _ | e, s, cost⟩
  · exact ⟨List.forall_mem_nil _, .pairLoad hl hr⟩
  · exact ⟨List.forall_mem_nil _, .pairLoad hl hr⟩
  · refine ⟨List.forall_mem_nil _, .pair hl fun c hc => ?_⟩
    exact hP hr (Pairing.extends_of_mem_combine hc)
  · exact ⟨List.forall_mem_nil _, .pair hl (List.forall_mem_nil _)⟩

theorem keeps_optional {part : Op} {ctx : Context} (hP : Upward P) (ha : part.additive = true)
    (h : m.Keeps P) : (m.optional part ctx).Keeps P := by
  obtain ⟨hb, hs⟩ := h
  unfold Move.optional
  rcases m with ⟨_ | b | _ | e, s, cost⟩
  · exact ⟨hb, .optional ha hs⟩
  · have hrow : P b := hb b (List.mem_singleton.2 rfl)
    dsimp only
    cases hc : (compile ctx part (rows [b])).result with
    | ok u =>
      have hu := keeps_of_builds hP (Op.builds_of_compile hc) ha (keeps_single hrow)
      exact ⟨List.forall_mem_nil _, .optionalOf ha hs hrow hu⟩
    | error e => exact ⟨List.forall_mem_nil _, .optional ha hs⟩
  · exact ⟨hb, .optional ha hs⟩
  · exact ⟨hb, .optional ha hs⟩

theorem keeps_optionalOf {part : Op} {ctx : Context} {left : Stage} {seed : Binding}
    {found : Bool} (ha : part.additive = true) (hl : left.Keeps P) (hr : P seed)
    (h : m.Keeps P) : (m.optionalOf part ctx left seed found).Keeps P := by
  obtain ⟨hb, hs⟩ := h
  unfold Move.optionalOf
  rcases m with ⟨_ | b | _ | e, s, cost⟩
  · exact ⟨hb, .optionalOf ha hl hr hs⟩
  · exact ⟨hb, .optionalOf ha hl hr hs⟩
  · cases found with
    | true => exact ⟨List.forall_mem_nil _, .optional ha hl⟩
    | false => exact ⟨List.forall_mem_singleton.2 hr, .optional ha hl⟩
  · exact ⟨hb, .optionalOf ha hl hr hs⟩

theorem mem_of_mem_sort {fs : Functions} {keys : List SortKey} {l : List Binding} {b : Binding}
    (h : b ∈ Rows.sort fs keys l) : b ∈ l := by
  obtain ⟨x, hx, rfl⟩ := List.mem_map.1 h
  obtain ⟨c, hc, rfl⟩ := List.mem_map.1 (List.mem_mergeSort.1 hx)
  exact hc

theorem keeps_sort {keys : List SortKey} {ctx : Context} {acc : List Binding}
    (hacc : ∀ b ∈ acc, P b) (h : m.Keeps P) : (m.gather (.sort keys) ctx acc).Keeps P := by
  obtain ⟨hb, hs⟩ := h
  unfold Move.gather
  rcases m with ⟨_ | b | _ | e, s, cost⟩
  · exact ⟨hb, .sort hs hacc⟩
  · have hrow : P b := hb b (List.mem_singleton.2 rfl)
    exact ⟨List.forall_mem_nil _, .sort hs (List.forall_mem_cons.2 ⟨hrow, hacc⟩)⟩
  · refine ⟨List.forall_mem_nil _, .gathered fun b hb => ?_⟩
    exact hacc b (List.mem_reverse.1 (mem_of_mem_sort hb))
  · exact ⟨List.forall_mem_nil _, .sort hs.close (List.forall_mem_nil _)⟩

theorem keeps_slice {skip : Nat} {limit : Option Nat} (h : m.Keeps P) :
    (m.slice skip limit).Keeps P := by
  obtain ⟨hb, hs⟩ := h
  unfold Move.slice
  rcases m with ⟨_ | b | _ | e, s, cost⟩
  · exact ⟨hb, .slice hs⟩
  · dsimp only
    split
    · exact ⟨List.forall_mem_nil _, .slice hs⟩
    · split
      · exact ⟨hb, .slice hs.close⟩
      · exact ⟨hb, .slice hs⟩
  · exact ⟨hb, .slice hs⟩
  · exact ⟨hb, .slice hs⟩

theorem keeps_via {rule : RowRule} {fs : Functions} {closed : Bool} (hP : Upward P)
    (ha : rule.additive = true) (h : m.Keeps P) : (m.via rule fs closed).Keeps P := by
  obtain ⟨hb, hs⟩ := h
  unfold Move.via
  rcases m with ⟨_ | b | _ | e, s, cost⟩
  · exact ⟨hb, .via ha hs⟩
  · have hrow : P b := hb b (List.mem_singleton.2 rfl)
    have hafter : (rule.feed fs b).1.additive = true := RowRule.additive_feed ha
    have hout (c : Binding) (hc : (rule.feed fs b).2 = some c) : P c :=
      hP hrow (RowRule.extends_of_feed ha hc)
    dsimp only
    rcases hx : rule.feed fs b with ⟨after, out⟩
    rw [hx] at hafter hout
    cases out with
    | none => exact ⟨List.forall_mem_nil _, .via hafter hs⟩
    | some c => exact ⟨List.forall_mem_singleton.2 (hout c rfl), .via hafter hs⟩
  · exact ⟨hb, .via ha hs⟩
  · exact ⟨hb, .via ha hs⟩

end Move

namespace Stage

variable {P : Binding → Prop} {s : Stage}

theorem keeps_step (hP : Upward P) (h : Keeps P s) (raised : Bool) :
    (step raised s).Keeps P := by
  induction h with
  | @input s h =>
    refine ⟨fun b hb => ?_, .input fun b hb => h b (.later raised ⟨rfl, rfl⟩ hb)⟩
    cases hx : (step raised s).signal with
    | row c =>
      rw [hx] at hb
      rw [List.mem_singleton.1 hb]
      exact h c (.here raised ⟨hx, rfl⟩)
    | _ =>
      rw [hx] at hb
      cases hb
  | @rows rest h =>
    cases rest with
    | nil => exact ⟨List.forall_mem_nil _, keeps_nil P⟩
    | cons b rest =>
      obtain ⟨hb, hrest⟩ := List.forall_mem_cons.1 h
      exact ⟨List.forall_mem_singleton.2 hb, .rows hrest⟩
  | each ha _ ih => exact Move.keeps_each hP ha ih
  | eachOf ha hi _ _ ih => exact Move.keeps_eachOf ha hi ih
  | eachHeld ha hi hr _ hacc _ ih =>
    rw [step_eachHeld]
    split
    · exact ⟨List.forall_mem_nil _, .each ha hi⟩
    · exact Move.keeps_eachHeld ha hi hr hacc ih
  | @chain pending h =>
    cases pending with
    | nil => exact ⟨List.forall_mem_nil _, .chain h⟩
    | cons p pending =>
      obtain ⟨⟨ha, hseed⟩, hrest⟩ := List.forall_mem_cons.1 h
      cases hc : (compile p.ctx p.op (Stage.rows [p.seed])).result with
      | ok u =>
        rw [step_chain_ok raised pending hc]
        have hu := keeps_of_builds hP (Op.builds_of_compile hc) ha (keeps_single hseed)
        exact ⟨List.forall_mem_nil _, .chainOf hrest hu⟩
      | error e =>
        rw [step_chain_error raised pending hc]
        exact ⟨List.forall_mem_nil _, .chain hrest⟩
  | chainOf hp _ ih => exact Move.keeps_chainOf hp ih
  | @pair rule ctx left right loaded queue hl hq ih =>
    cases queue with
    | nil => exact Move.keeps_pair hP ih
    | cons b queue =>
      obtain ⟨hb, hq⟩ := List.forall_mem_cons.1 hq
      exact ⟨List.forall_mem_singleton.2 hb, .pair hl hq⟩
  | pairLoad hl hr _ =>
    rw [step_pairLoad]
    split
    · exact ⟨List.forall_mem_nil _, .pair hl (List.forall_mem_nil _)⟩
    · exact Move.keeps_pairLoad hP hl hr _
  | optional ha _ ih => exact Move.keeps_optional hP ha ih
  | optionalOf ha hl hr _ _ ih => exact Move.keeps_optionalOf ha hl hr ih
  | sort hi hacc ih =>
    rw [step_gather]
    split
    · exact ⟨List.forall_mem_nil _, .sort hi.close (List.forall_mem_nil _)⟩
    · exact Move.keeps_sort hacc ih
  | @gathered input rest h =>
    cases rest with
    | nil => exact ⟨List.forall_mem_nil _, .gathered h⟩
    | cons b rest =>
      obtain ⟨hb, hrest⟩ := List.forall_mem_cons.1 h
      exact ⟨List.forall_mem_singleton.2 hb, .gathered hrest⟩
  | slice _ ih =>
    rw [step_slice]
    split
    · exact ⟨List.forall_mem_nil _, keeps_nil P⟩
    · exact Move.keeps_slice ih
  | via ha _ ih => exact Move.keeps_via hP ha ih

theorem Keeps.yields (hP : Upward P) (h : Keeps P s) {b : Binding} (hb : s.Yields b) : P b := by
  apply yields_induction (Q := Keeps P) _ Keeps.close h hb
  rintro raised s t x hs ⟨rfl, rfl⟩
  exact keeps_step hP hs raised

end Stage

/-- An additive operator over any input shows only rows that extend a row of its input, however its
stage is stepped, failed and released. -/
theorem Context.extends_of_yields {ctx : Context} {op : Op} {input s : Stage} {c : Binding}
    (ha : op.additive = true) (hs : (compile ctx op input).result = .ok s) (hc : s.Yields c) :
    ∃ b, input.Yields b ∧ c.Extends b := by
  have hP : Upward fun c => ∃ b, input.Yields b ∧ c.Extends b := by
    rintro c d ⟨b, hb, hcb⟩ hdc
    exact ⟨b, hb, hdc.trans hcb⟩
  have hi : Keeps (fun c => ∃ b, input.Yields b ∧ c.Extends b) input :=
    .input fun b hb => ⟨b, hb, .refl b⟩
  exact (keeps_of_builds hP (Op.builds_of_compile hs) ha hi).yields hP hc

/-- The row comes behind a failure of the input, and from the second branch. -/
theorem Context.extends_of_yields_union :
    let ctx := ofDataset {}
    let bindY : Op := .assign [(⟨"y"⟩, .const (.iri "c"))] (.marker "n")
    let b : Binding := .single ⟨"x"⟩ (.iri "a")
    let input : Stage := .source [.error (.invalid "broken"), .ok b]
    let s : Stage := .each (.union [.marker "m", bindY] ctx) input
    let c : Binding := b.insert ⟨"y"⟩ (.iri "c")
    (Op.union (.marker "m") bindY).additive = true ∧
      (compile ctx (.union (.marker "m") bindY) input).result = .ok s ∧ s.Yields c ∧
      ∃ b, input.Yields b ∧ c.Extends b := by
  intro ctx bindY b input s c
  have hs : (compile ctx (.union (.marker "m") bindY) input).result = .ok s := rfl
  have hc : s.Yields c := by
    -- The failure, the row on its way through the first branch, and then the second branch.
    apply Yields.later false ⟨rfl, rfl⟩
    apply Yields.later false ⟨rfl, rfl⟩
    apply Yields.later false ⟨rfl, rfl⟩
    apply Yields.later false ⟨rfl, rfl⟩
    apply Yields.later false ⟨rfl, rfl⟩
    apply Yields.later false ⟨rfl, rfl⟩
    exact Yields.here false ⟨rfl, rfl⟩
  exact ⟨rfl, hs, hc, extends_of_yields rfl hs hc⟩

end SparqlAlgebra
