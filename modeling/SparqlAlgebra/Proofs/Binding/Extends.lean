import SparqlAlgebra.Proofs.Binding.Merge

/-!
Rows in the order of what they bind: a row extends another one when it keeps every binding of it and
perhaps adds some. A merge is the least extension of both of its parts.
-/

namespace SparqlAlgebra

namespace Binding

/-- The first row binds all that the second one binds, to the same terms. -/
def Extends (c b : Binding) : Prop := ∀ v t, b.get? v = some t → c.get? v = some t

variable {a b c : Binding}

theorem Extends.refl (b : Binding) : b.Extends b := fun _ _ h => h

theorem Extends.trans (h : c.Extends b) (h' : b.Extends a) : c.Extends a :=
  fun v t ht => h v t (h' v t ht)

theorem extends_empty (c : Binding) : c.Extends ∅ := by
  intro v t ht
  rw [SortedMap.get?_empty] at ht
  cases ht

theorem Extends.contains (h : c.Extends b) {v : Var} (hv : b.contains v = true) :
    c.contains v = true := by
  obtain ⟨t, ht⟩ := Option.isSome_iff_exists.1 hv
  rw [SortedMap.contains, h v t ht]
  rfl

/-- An extension that binds no further variable is the row itself. -/
theorem Extends.eq_of_contains (h : c.Extends b)
    (hv : ∀ v, c.contains v = true → b.contains v = true) : c = b := by
  ext v
  cases hb : b.get? v with
  | some t => rw [h v t hb]
  | none =>
    -- A value of `c` here would be a variable that `b` leaves open.
    cases hc : c.get? v with
    | none => rfl
    | some t =>
      have hbv : (b.get? v).isSome := hv v (by simp [SortedMap.contains, hc])
      rw [hb] at hbv
      cases hbv

theorem Extends.antisymm (h : c.Extends b) (h' : b.Extends c) : c = b :=
  h.eq_of_contains fun _ hv => h'.contains hv

/-- Rows that have an extension in common agree. -/
theorem Extends.agree (ha : c.Extends a) (hb : c.Extends b) : Agree a b :=
  fun v s t hs ht => Option.some.inj ((ha v s hs).symm.trans (hb v t ht))

theorem Extends.compatible (h : c.Extends b) : b.compatible c = true :=
  compatible_iff.2 (h.agree (.refl c))

theorem extends_merge_left (h : a.merge b = some c) : c.Extends a :=
  fun _ _ ht => get?_of_merge_left h ht

theorem extends_merge_right (h : a.merge b = some c) : c.Extends b :=
  fun _ _ ht => get?_of_merge_right h ht

/-- What extends both parts of a merge extends the merge. -/
theorem Extends.merge {x : Binding} (ha : x.Extends a) (hb : x.Extends b)
    (h : a.merge b = some c) : x.Extends c := by
  intro v t ht
  rcases get?_of_merge h ht with hs | hs
  · exact ha v t hs
  · exact hb v t hs

/-- A merge is the least row that extends both of its parts. -/
theorem merge_eq_some_iff_least : a.merge b = some c ↔
    c.Extends a ∧ c.Extends b ∧ ∀ x : Binding, x.Extends a → x.Extends b → x.Extends c := by
  constructor
  · intro h
    exact ⟨extends_merge_left h, extends_merge_right h, fun x ha hb => ha.merge hb h⟩
  · rintro ⟨ha, hb, hleast⟩
    have hm : a.merge b = some (a.fill b) := if_pos (compatible_iff.2 (ha.agree hb))
    -- The merge and the least extension extend each other.
    have hle : (a.fill b).Extends c :=
      hleast _ (extends_merge_left hm) (extends_merge_right hm)
    rw [hm, hle.antisymm (ha.merge hb hm)]

theorem dom_merge (h : a.merge b = some c) : c.dom = a.dom.union b.dom := by
  refine SortedSet.ext_iff.2 fun v => ?_
  rw [SortedSet.mem_union, mem_dom, mem_dom, mem_dom, contains_merge h, Bool.or_eq_true]

theorem compatible_comm (a b : Binding) : a.compatible b = b.compatible a := by
  rw [← merge_isSome, ← merge_isSome, merge_comm]

theorem merge_self (a : Binding) : a.merge a = some a :=
  merge_eq_some_iff_least.2 ⟨.refl a, .refl a, fun _ h _ => h⟩

/-- Rows under `merge` are a partial commutative idempotent monoid. A merge is defined for
compatible rows, is the least row that extends both, and binds the variables of both. -/
theorem merge_monoid (a b c : Binding) :
    a.compatible b = b.compatible a ∧ (a.merge b).isSome = a.compatible b ∧
    a.merge b = b.merge a ∧ a.merge a = some a ∧
    a.merge ∅ = some a ∧ Binding.merge ∅ a = some a ∧
    ((b.merge c).bind fun bc => a.merge bc) = ((a.merge b).bind fun ab => ab.merge c) ∧
    (∀ m, a.merge b = some m ↔
      m.Extends a ∧ m.Extends b ∧ ∀ x : Binding, x.Extends a → x.Extends b → x.Extends m) ∧
    (a.merge b).map dom = if a.compatible b then some (a.dom.union b.dom) else none := by
  refine ⟨compatible_comm a b, merge_isSome a b, merge_comm a b, merge_self a, merge_empty a,
    empty_merge a, (merge_assoc a b c).symm, fun m => merge_eq_some_iff_least, ?_⟩
  cases h : a.merge b with
  | some m =>
    have hcompatible : a.compatible b = true := by rw [← merge_isSome, h, Option.isSome_some]
    rw [if_pos hcompatible, Option.map_some, dom_merge h]
  | none =>
    have hcompatible : ¬ a.compatible b = true := by
      rw [← merge_isSome, h, Option.isSome_none]
      exact Bool.false_ne_true
    rw [if_neg hcompatible, Option.map_none]

theorem extends_insert {v : Var} (h : b.get? v = none) (t : Term) :
    Extends (b.insert v t) b := by
  intro w u hw
  have hne : w ≠ v := by
    intro e
    rw [e, h] at hw
    cases hw
  rw [SortedMap.get?_insert, if_neg hne]
  exact hw

end Binding

end SparqlAlgebra
