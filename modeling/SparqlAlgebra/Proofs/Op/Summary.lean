import SparqlAlgebra.Op.Scope
import SparqlAlgebra.Proofs.Op.Extent

/-!
What the scope of an operator says of its rows. The scope trusts the declarations of tables; where
those are right, the fixed variables are bound in every row and no row binds a variable that is
neither fixed nor optional.
-/

namespace SparqlAlgebra

namespace Table

/-- Whether every row binds exactly the declared variables. -/
def complete (t : Table) : Bool := t.rows.all fun b => b.dom = SortedSet.ofList t.vars

theorem contains_of_complete {t : Table} (h : t.complete = true) {b : Binding} (hb : b ∈ t.rows)
    (v : Var) : b.contains v = true ↔ v ∈ t.vars := by
  have hdom : b.dom = SortedSet.ofList t.vars := of_decide_eq_true (List.all_eq_true.1 h b hb)
  rw [← Binding.mem_dom, hdom, SortedSet.mem_ofList]

theorem mem_sure_of_complete {t : Table} (h : t.complete = true) {v : Var} (hv : v ∈ t.vars) :
    v ∈ t.extent.sure := by
  refine SortedSet.mem_ofList.2 (List.mem_filter.2 ⟨hv, List.all_eq_true.2 fun b hb => ?_⟩)
  exact (contains_of_complete h hb v).2 hv

theorem mem_vars_of_complete {t : Table} (h : t.complete = true) {v : Var}
    (hv : v ∈ t.extent.may) : v ∈ t.vars := by
  obtain ⟨b, hb, hk⟩ := List.mem_flatMap.1 (SortedSet.mem_ofList.1 hv)
  exact (contains_of_complete h hb v).1 (SortedMap.mem_keys.1 hk)

end Table

namespace Scope

variable {s t : Scope} {e f : Extent} {vars : List Var}

theorem mem_all {v : Var} : v ∈ s.all ↔ v ∈ s.fixed ∨ v ∈ s.optional := SortedSet.mem_union

/-- No variable is both fixed and optional. -/
def Split (s : Scope) : Prop := ∀ v ∈ s.fixed, v ∉ s.optional

theorem split_empty : ({} : Scope).Split := fun _ _ => SortedSet.not_mem_empty

theorem split_conj (s t : Scope) : (s.conj t).Split :=
  fun _ hv hd => (SortedSet.mem_diff.1 hd).2 hv

theorem split_either (s t : Scope) : (s.either t).Split :=
  fun _ hv hd => (SortedSet.mem_diff.1 hd).2 hv

theorem split_maybe (s t : Scope) : (s.maybe t).Split :=
  fun _ hv hd => (SortedSet.mem_diff.1 hd).2 hv

theorem split_fixing (s : Scope) (vars : List Var) : (s.fixing vars).Split :=
  fun _ hv hd => (SortedSet.mem_diff.1 hd).2 hv

theorem Split.minus (h : s.Split) (t : Scope) : (s.minus t).Split := by
  intro v hv ho
  rcases SortedSet.mem_union.1 ho with ho | ho
  · exact h v hv ho
  · exact (SortedSet.mem_diff.1 ho).2 hv

theorem Split.project (h : s.Split) (vars : List Var) : (s.project vars).Split :=
  fun v hv ho => h v (SortedSet.mem_filter.1 hv).1 (SortedSet.mem_filter.1 ho).1

/-- The scope describes rows of the extent. -/
structure Describes (s : Scope) (e : Extent) : Prop where
  sure : ∀ v ∈ s.fixed, v ∈ e.sure
  may : ∀ v ∈ e.may, v ∈ s.all

theorem describes_ofVars (vars foreign : List Var) :
    (ofVars vars).Describes (.ofVars vars foreign) :=
  ⟨fun _ h => h, fun _ h => mem_all.2 (.inl h)⟩

theorem describes_empty : ({} : Scope).Describes {} :=
  ⟨fun _ h => h, fun _ h => mem_all.2 (.inl h)⟩

theorem mem_all_conj {v : Var} : v ∈ (s.conj t).all ↔ v ∈ s.all ∨ v ∈ t.all := by
  simp only [mem_all, conj, SortedSet.mem_union, SortedSet.mem_diff]
  grind

theorem mem_all_ofVars {v : Var} : v ∈ (ofVars vars).all ↔ v ∈ vars := by
  simp [mem_all, ofVars]

theorem mem_all_either {v : Var} : v ∈ (s.either t).all ↔ v ∈ s.all ∨ v ∈ t.all := by
  simp only [mem_all, either, SortedSet.mem_union, SortedSet.mem_diff, SortedSet.mem_inter]
  grind

theorem mem_all_maybe {v : Var} : v ∈ (s.maybe t).all ↔ v ∈ s.all ∨ v ∈ t.all := by
  simp only [mem_all, maybe, SortedSet.mem_union, SortedSet.mem_diff]
  grind

theorem mem_all_minus {v : Var} : v ∈ (s.minus t).all ↔ v ∈ s.all ∨ v ∈ t.all := by
  simp only [mem_all, minus, SortedSet.mem_union, SortedSet.mem_diff]
  grind

theorem mem_all_fixing {v : Var} : v ∈ (s.fixing vars).all ↔ v ∈ vars ∨ v ∈ s.all := by
  simp only [mem_all, fixing, SortedSet.mem_addAll, SortedSet.mem_diff]
  grind

theorem mem_all_project {v : Var} : v ∈ (s.project vars).all ↔ v ∈ vars ∧ v ∈ s.all := by
  simp only [mem_all, project, SortedSet.mem_filter, decide_eq_true_eq]
  grind

theorem Describes.conj (h : s.Describes e) (h' : t.Describes f) :
    (s.conj t).Describes (e.join f) := by
  constructor
  · intro v hv
    exact SortedSet.mem_union.2 ((SortedSet.mem_union.1 hv).imp (h.sure v) (h'.sure v))
  · intro v hv
    exact mem_all_conj.2 ((SortedSet.mem_union.1 hv).imp (h.may v) (h'.may v))

theorem Describes.either (h : s.Describes e) (h' : t.Describes f) :
    (s.either t).Describes (e.either f) := by
  constructor
  · intro v hv
    obtain ⟨hs, ht⟩ := SortedSet.mem_inter.1 hv
    exact SortedSet.mem_inter.2 ⟨h.sure v hs, h'.sure v ht⟩
  · intro v hv
    exact mem_all_either.2 ((SortedSet.mem_union.1 hv).imp (h.may v) (h'.may v))

theorem Describes.maybe (h : s.Describes e) (h' : t.Describes f) :
    (s.maybe t).Describes (e.leftJoin f) := by
  refine ⟨h.sure, fun v hv => ?_⟩
  exact mem_all_maybe.2 ((SortedSet.mem_union.1 hv).imp (h.may v) (h'.may v))

theorem Describes.minus (h : s.Describes e) (t : Scope) : (s.minus t).Describes e :=
  ⟨h.sure, fun v hv => mem_all_minus.2 (.inl (h.may v hv))⟩

theorem Describes.project (h : s.Describes e) (vars : List Var) :
    (s.project vars).Describes (e.project vars) := by
  constructor
  · intro v hv
    obtain ⟨hv, hk⟩ := SortedSet.mem_filter.1 hv
    exact SortedSet.mem_filter.2 ⟨h.sure v hv, hk⟩
  · intro v hv
    obtain ⟨hv, hk⟩ := SortedSet.mem_filter.1 hv
    exact mem_all_project.2 ⟨of_decide_eq_true hk, h.may v hv⟩

theorem Describes.fixing (h : s.Describes e) (vars : List Var) :
    (s.fixing vars).Describes ((Extent.ofVars vars vars).join e.abroad) := by
  constructor
  · intro v hv
    exact SortedSet.mem_union.2 ((SortedSet.mem_addAll.1 hv).imp SortedSet.mem_ofList.2 (h.sure v))
  · intro v hv
    exact mem_all_fixing.2 ((SortedSet.mem_union.1 hv).imp SortedSet.mem_ofList.1 (h.may v))

end Scope

namespace Op

theorem split_scopeSteps {steps : List Op} {s : Scope} (h : s.Split) :
    (scopeSteps s steps).Split := by
  induction steps generalizing s with
  | nil => exact h
  | cons op rest ih => exact ih (Scope.split_conj _ _)

theorem split_scope (op : Op) : op.scope.Split := by
  induction op using operands_induction with
  | step op ih =>
    -- Every combination takes the fixed variables out of the optional ones, or keeps what it gets.
    cases op with
    | join l r => exact Scope.split_conj _ _
    | leftJoin l r exprs => exact Scope.split_maybe l.scope r.scope
    | union l r => exact Scope.split_either _ _
    | diff l r => exact (ih l (by simp [operands])).minus _
    | conditional l r => exact Scope.split_maybe _ _
    | graph name sub => exact Scope.split_fixing _ _
    | service endpoint sub silent => exact Scope.split_fixing _ _
    | propFunc property subject object sub => exact Scope.split_fixing _ _
    | sequence steps => exact split_scopeSteps Scope.split_empty
    | project vars sub => exact (ih sub (by simp [operands])).project vars
    | assign assignments sub => exact Scope.split_fixing _ _
    | filter exprs sub => exact fun v => ih sub (by simp [operands]) v
    | procedure name args sub => exact fun v => ih sub (by simp [operands]) v
    | label name sub => exact ih sub (by simp [operands])
    | list sub => exact ih sub (by simp [operands])
    | order keys sub => exact ih sub (by simp [operands])
    | slice offset length sub => exact ih sub (by simp [operands])
    | distinct sub => exact ih sub (by simp [operands])
    | reduced sub => exact ih sub (by simp [operands])
    | _ => exact fun _ _ => SortedSet.not_mem_empty

mutual

/-- Operators of which the scope knows what their rows bind: their tables are complete, and nothing
in them binds a variable that it may leave open. -/
def summarized : Op → Bool
  | bgp _ => true
  | triple _ => true
  | quad q => q.graph.isNone
  | path _ => true
  | join l r => summarized l && summarized r
  | leftJoin l r _ => summarized l && summarized r
  | union l r => summarized l && summarized r
  | diff l r => summarized l && summarized r
  | filter _ sub => summarized sub
  | graph _ sub => summarized sub
  | table t => t.complete
  | sequence steps => summarizedSteps steps
  | marker _ => true
  | label _ sub => summarized sub
  | list sub => summarized sub
  | null => true
  | project _ sub => summarized sub
  | slice _ _ sub => summarized sub
  | distinct sub => summarized sub
  | _ => false

/-- All steps are of this kind. -/
def summarizedSteps : List Op → Bool
  | [] => true
  | op :: rest => summarized op && summarizedSteps rest

end

theorem summarizedSteps_eq (steps : List Op) : summarizedSteps steps = steps.all summarized :=
  steps_eq_all rfl (fun _ _ => rfl) steps

theorem describes_steps {steps : List Op} (h : ∀ op ∈ steps, op.scope.Describes op.extent)
    {s : Scope} {e : Extent} (hs : s.Describes e) :
    (scopeSteps s steps).Describes (e.join (extentSteps steps)) := by
  induction steps generalizing s e with
  | nil =>
    refine ⟨fun v hv => SortedSet.mem_union.2 (.inl (hs.sure v hv)), fun v hv => ?_⟩
    exact hs.may v ((SortedSet.mem_union.1 hv).resolve_right SortedSet.not_mem_empty)
  | cons op rest ih =>
    have hrest := ih (fun o ho => h o (List.mem_cons_of_mem op ho))
      (hs.conj (h op List.mem_cons_self))
    -- The scope goes down the steps from the left, the extent is joined from the right.
    have hassoc {v : Var} {a b c : SortedSet Var} :
        v ∈ (a.union b).union c ↔ v ∈ a.union (b.union c) := by
      simp only [SortedSet.mem_union, or_assoc]
    exact ⟨fun v hv => hassoc.1 (hrest.sure v hv), fun v hv => hrest.may v (hassoc.2 hv)⟩

/-- The scope is right about summarized operators. -/
theorem describes {op : Op} (h : op.summarized = true) : op.scope.Describes op.extent := by
  induction op using operands_induction with
  | step op ih =>
    cases op with
    | bgp p => exact Scope.describes_ofVars _ _
    | triple t => exact Scope.describes_ofVars _ _
    | quad q =>
      obtain ⟨g, p⟩ := q
      cases g with
      | some g => cases h
      | none =>
        have hvars : (quad ⟨none, p⟩).scope = .ofVars p.vars := by simp [scope]
        rw [hvars]
        exact Scope.describes_ofVars _ _
    | path p => exact Scope.describes_ofVars _ _
    | join l r =>
      obtain ⟨hl, hr⟩ := Bool.and_eq_true_iff.1 h
      exact (ih l (by simp [operands]) hl).conj (ih r (by simp [operands]) hr)
    | leftJoin l r exprs =>
      obtain ⟨hl, hr⟩ := Bool.and_eq_true_iff.1 h
      have hm := (ih l (by simp [operands]) hl).maybe (ih r (by simp [operands]) hr)
      exact ⟨hm.sure, hm.may⟩
    | union l r =>
      obtain ⟨hl, hr⟩ := Bool.and_eq_true_iff.1 h
      exact (ih l (by simp [operands]) hl).either (ih r (by simp [operands]) hr)
    | diff l r =>
      obtain ⟨hl, -⟩ := Bool.and_eq_true_iff.1 h
      exact (ih l (by simp [operands]) hl).minus _
    | filter exprs sub =>
      have hs := ih sub (by simp [operands]) h
      exact ⟨hs.sure, hs.may⟩
    | graph name sub => exact (ih sub (by simp [operands]) h).fixing _
    | table t =>
      refine ⟨fun v hv => t.mem_sure_of_complete h (SortedSet.mem_ofList.1 hv), fun v hv => ?_⟩
      exact Scope.mem_all.2 (.inl (SortedSet.mem_ofList.2 (t.mem_vars_of_complete h hv)))
    | sequence steps =>
      have hall : steps.all summarized = true := (summarizedSteps_eq steps).symm.trans h
      have hs := describes_steps (fun op ho => ih op ho (List.all_eq_true.1 hall op ho))
        Scope.describes_empty
      have hnone {v : Var} {a : SortedSet Var} : v ∈ SortedSet.union ∅ a ↔ v ∈ a := by simp
      exact ⟨fun v hv => hnone.1 (hs.sure v hv), fun v hv => hs.may v (hnone.2 hv)⟩
    | marker name => exact Scope.describes_empty
    | label name sub => exact ih sub (by simp [operands]) h
    | list sub => exact ih sub (by simp [operands]) h
    | null => exact Scope.describes_empty
    | project vars sub => exact (ih sub (by simp [operands]) h).project vars
    | slice offset length sub => exact ih sub (by simp [operands]) h
    | distinct sub => exact ih sub (by simp [operands]) h
    | _ => cases h

end Op

end SparqlAlgebra
