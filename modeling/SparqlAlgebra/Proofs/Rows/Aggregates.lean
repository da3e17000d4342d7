import SparqlAlgebra.Proofs.Number.Sums
import SparqlAlgebra.Proofs.Rows.Apart

/-!
Aggregates over integers, and the order of the rows. Counts, the least and the greatest value do not
depend on it: equal numbers that are written differently have an order of their own. The sum does,
as it is checked for range on the way.
-/

namespace SparqlAlgebra

open Number Std

namespace Term

/-- The value of a literal of an integer type. -/
def integer? (t : Term) : Option Int64 :=
  match t.numeric? with
  | some (.integer v) => some v
  | _ => none

variable {a b c t : Term} {v w : Int64}

theorem integer?_eq_some_iff : t.integer? = some v ↔ t.numeric? = some (.integer v) := by
  unfold integer?
  split
  · rename_i h
    rw [h]
    simp
  · rename_i h
    exact iff_of_false nofun (h v)

/-- Integers by their value, and those of one value by what they look like. -/
def byValue : Term → Term → Ordering :=
  compareLex (compareOn fun t => (t.integer?.map Int64.toInt).getD 0) compare

instance : TransCmp byValue := inferInstanceAs (TransCmp (compareLex _ _))

theorem eq_of_byValue (h : byValue a b = .eq) : a = b :=
  LawfulEqOrd.eq_of_compare (compareLex_eq_eq.1 h).2

/-- The order of sorting is that by value on integers. -/
theorem sortCmp_integer (ha : a.integer? = some v) (hb : b.integer? = some w) :
    sortCmp a b = byValue a b := by
  have hkind {t : Term} {x : Numeric} (h : t.numeric? = some x) : t.kindRank = 2 := by
    cases t with
    | literal l => rfl
    | _ => cases h
  have hna := integer?_eq_some_iff.1 ha
  have hnb := integer?_eq_some_iff.1 hb
  have hvalue : byValue a b = (compare v.toInt w.toInt).then (compare a b) := by
    simp [byValue, compareLex, compareOn, ha, hb]
  rw [hvalue, sortCmp, hkind hna, hkind hnb, hna, hnb]
  simp only [compare_self, Numeric.cmp?]
  cases compare v.toInt w.toInt <;> rfl

end Term

/-- A choice between two things with `P`: the one that comes first in an order of all things. -/
structure Chooses {α : Type} (P : α → Prop) (cmp : α → α → Ordering) (pick : α → α → α) : Prop where
  eq : ∀ a b, cmp a b = .eq → a = b
  pick : ∀ a b, P a → P b → pick a b = if (cmp a b).isLE then a else b

namespace Chooses

variable {α : Type} {P : α → Prop} {cmp : α → α → Ordering} [TransCmp cmp] {pick : α → α → α}
  {a b : α} {k l : List α}

theorem isLE_self (cmp : α → α → Ordering) [TransCmp cmp] (c : α) : (cmp c c).isLE := by
  have hself : cmp c c = .eq := ReflCmp.compare_self
  rw [hself]
  rfl

/-- Of two, one is chosen, and neither comes before it. -/
theorem pair (h : Chooses P cmp pick) (ha : P a) (hb : P b) :
    (pick a b = a ∨ pick a b = b) ∧ (cmp (pick a b) a).isLE ∧ (cmp (pick a b) b).isLE := by
  rw [h.pick a b ha hb]
  split
  · rename_i hle
    exact ⟨.inl rfl, isLE_self cmp a, hle⟩
  · rename_i hgt
    have hflip : cmp b a = (cmp a b).swap := OrientedCmp.eq_swap
    refine ⟨.inr rfl, ?_, isLE_self cmp b⟩
    rw [hflip]
    cases hab : cmp a b <;> simp_all

/-- Of many, one is chosen, and none of them comes before it. -/
theorem foldl (h : Chooses P cmp pick) (hl : ∀ c ∈ a :: l, P c) :
    l.foldl pick a ∈ a :: l ∧ ∀ c ∈ a :: l, (cmp (l.foldl pick a) c).isLE := by
  induction l generalizing a with
  | nil =>
    refine ⟨List.mem_singleton_self a, fun c hc => ?_⟩
    rw [List.mem_singleton.1 hc]
    exact isLE_self cmp a
  | cons b l ih =>
    obtain ⟨ha, hb, hl⟩ : P a ∧ P b ∧ ∀ c ∈ l, P c := by simpa using hl
    obtain ⟨heq, hlea, hleb⟩ := h.pair ha hb
    have hpick : P (pick a b) := by rcases heq with heq | heq <;> rwa [heq]
    obtain ⟨hmem, hfirst⟩ := ih (a := pick a b) (List.forall_mem_cons.2 ⟨hpick, hl⟩)
    -- The choice of the first two stands in for both.
    have hle : (cmp (l.foldl pick (pick a b)) (pick a b)).isLE := hfirst _ List.mem_cons_self
    rw [List.foldl_cons]
    constructor
    · rcases List.mem_cons.1 hmem with hmem | hmem
      · rw [hmem]
        rcases heq with heq | heq <;> simp [heq]
      · exact List.mem_cons_of_mem a (List.mem_cons_of_mem b hmem)
    · intro c hc
      rcases List.mem_cons.1 hc with rfl | hc
      · exact TransCmp.isLE_trans hle hlea
      · rcases List.mem_cons.1 hc with rfl | hc
        · exact TransCmp.isLE_trans hle hleb
        · exact hfirst c (List.mem_cons_of_mem _ hc)

/-- Which one is chosen does not depend on the order in which they come. -/
theorem foldl_perm (h : Chooses P cmp pick) (hl : ∀ c ∈ a :: l, P c)
    (hp : (a :: l).Perm (b :: k)) : k.foldl pick b = l.foldl pick a := by
  obtain ⟨hmem, hfirst⟩ := h.foldl hl
  obtain ⟨hmem', hfirst'⟩ := h.foldl fun c hc => hl c (hp.mem_iff.2 hc)
  have hle := hfirst _ (hp.mem_iff.2 hmem')
  have hle' := hfirst' _ (hp.mem_iff.1 hmem)
  exact h.eq _ _ (OrientedCmp.isLE_antisymm hle' hle)

theorem perm (h : Chooses P cmp pick) {f : List α → Option α}
    (hcons : ∀ a l, f (a :: l) = some (l.foldl pick a)) (hl : ∀ c ∈ l, P c) (hp : l.Perm k) :
    f k = f l := by
  cases l with
  | nil => rw [List.nil_perm.1 hp]
  | cons a l =>
    cases k with
    | nil => cases hp.length_eq
    | cons b k => rw [hcons, hcons, h.foldl_perm hl hp]

end Chooses

namespace Aggregator

/-- Whether a term is an integer. -/
def IsInteger (t : Term) : Prop := ∃ v, t.integer? = some v

theorem chooses_least : Chooses IsInteger Term.byValue
    fun a b => if Term.sortCmp a b = .gt then b else a where
  eq _ _ := Term.eq_of_byValue
  pick a b := by
    rintro ⟨v, ha⟩ ⟨w, hb⟩
    rw [Term.sortCmp_integer ha hb]
    cases Term.byValue a b <;> rfl

/-- Of equal values the last one is taken, but equal values are the same term. -/
theorem chooses_greatest : Chooses IsInteger (fun a b => Term.byValue b a)
    fun a b => if Term.sortCmp a b = .gt then a else b where
  eq _ _ h := (Term.eq_of_byValue h).symm
  pick a b := by
    rintro ⟨v, ha⟩ ⟨w, hb⟩
    have hflip : Term.byValue b a = (Term.byValue a b).swap := OrientedCmp.eq_swap
    rw [Term.sortCmp_integer ha hb, hflip]
    cases h : Term.byValue a b with
    | eq => exact (Term.eq_of_byValue h).symm
    | lt | gt => rfl

variable {ts us : List Term}

theorem least_perm (ht : ∀ t ∈ ts, IsInteger t) (hp : ts.Perm us) : least us = least ts :=
  chooses_least.perm (fun _ _ => rfl) ht hp

theorem greatest_perm (ht : ∀ t ∈ ts, IsInteger t) (hp : ts.Perm us) :
    greatest us = greatest ts :=
  chooses_greatest.perm (fun _ _ => rfl) ht hp

/-- The number that a term writes, if it is an integer. -/
def amount? (t : Term) : Option Int := t.integer?.map Int64.toInt

/-- One summand: the sum so far goes on if it stays in range. -/
theorem addTo_integer {t : Term} {v : Int64} (ht : t.integer? = some v) (s : Int64) :
    addTo (.integer s) t = Numeric.checked (s.toInt + v.toInt) := by
  rw [addTo, Term.integer?_eq_some_iff.1 ht]
  rfl

/-- A sum of integers has a value if all running sums are in range: the exact sum. -/
theorem foldlM_addTo (ht : ∀ t ∈ ts, IsInteger t) (s : Int64) :
    (ts.foldlM addTo (.integer s)).toOption =
      if Fits s.toInt (ts.filterMap amount?) then
        (toInt64? (s.toInt + (ts.filterMap amount?).sum)).map .integer
      else none := by
  induction ts generalizing s with
  | nil =>
    have hs : toInt64? s.toInt = some s := toInt64?_eq_some_iff.2 rfl
    rw [List.filterMap_nil, if_pos (fits_nil.2 (inRange_toInt s)), List.sum_nil, Int.add_zero, hs]
    rfl
  | cons t ts ih =>
    obtain ⟨⟨v, hv⟩, ht⟩ := List.forall_mem_cons.1 ht
    have hamount : (t :: ts).filterMap amount? = v.toInt :: ts.filterMap amount? :=
      List.filterMap_cons_some (by rw [amount?, hv]; rfl)
    rw [List.foldlM_cons, addTo_integer hv, hamount, List.sum_cons, ← Int.add_assoc]
    -- The checked addition fails exactly where the running sum leaves the range.
    cases hsum : toInt64? (s.toInt + v.toInt) with
    | none =>
      have hover : ¬ InRange (s.toInt + v.toInt) := by rw [← isSome_toInt64?, hsum]; simp
      have hnot : ¬ Fits s.toInt (v.toInt :: ts.filterMap amount?) := fun h =>
        hover (fits_cons.1 h).2.start
      rw [Numeric.checked, hsum, if_neg hnot]
      rfl
    | some w =>
      have hw : w.toInt = s.toInt + v.toInt := toInt64?_eq_some_iff.1 hsum
      have hfits : Fits w.toInt (ts.filterMap amount?) ↔
          Fits s.toInt (v.toInt :: ts.filterMap amount?) := by
        rw [fits_cons, ← hw]
        exact (and_iff_right (inRange_toInt s)).symm
      rw [Numeric.checked, hsum, ← hw]
      exact (ih ht w).trans (if_congr hfits rfl rfl)

/-- The numbers that an expression gives on some rows. -/
def amounts (fs : Functions) (e : Expr) (rows : List Binding) : List Int :=
  (values fs e rows).filterMap amount?

variable {fs : Functions} {e : Expr} {k l : List Binding}

theorem values_perm (hp : l.Perm k) : (values fs e l).Perm (values fs e k) := hp.filterMap _

theorem amounts_perm (hp : l.Perm k) : (amounts fs e l).Perm (amounts fs e k) :=
  (values_perm hp).filterMap _

theorem eval_sum (h : ∀ t ∈ values fs e l, IsInteger t) :
    (sum e).eval fs l =
      if Fits 0 (amounts fs e l) then (toInt64? (amounts fs e l).sum).map Term.int else none := by
  have htotal := foldlM_addTo h 0
  rw [Int64.toInt_zero, Int.zero_add] at htotal
  rw [eval, total, htotal, amounts]
  split
  · rw [Option.map_map]
    rfl
  · rfl

/-- What a list gives can be brought into any order by bringing the list into an order. -/
theorem exists_perm_filterMap {α β : Type} {g : α → Option β} {l : List α} {j : List β}
    (hp : (l.filterMap g).Perm j) : ∃ k, l.Perm k ∧ k.filterMap g = j := by
  induction j generalizing l with
  | nil => exact ⟨l, .refl l, List.perm_nil.1 hp⟩
  | cons b j ih =>
    obtain ⟨a, ha, hb⟩ := List.mem_filterMap.1 (hp.mem_iff.2 List.mem_cons_self)
    obtain ⟨l₁, l₂, rfl⟩ := List.append_of_mem ha
    have hfront : (l₁ ++ a :: l₂).Perm (a :: (l₁ ++ l₂)) := List.perm_middle
    have hrest : ((l₁ ++ l₂).filterMap g).Perm j := by
      have hcons := (hfront.filterMap g).symm.trans hp
      rw [List.filterMap_cons_some hb] at hcons
      exact hcons.cons_inv
    obtain ⟨k, hk, hj⟩ := ih hrest
    exact ⟨a :: k, hfront.trans (hk.cons a), by rw [List.filterMap_cons_some hb, hj]⟩

/-- In another order of the rows the sum is the same if and only if it fits in both or in none. -/
theorem eval_sum_eq_iff (h : ∀ t ∈ values fs e l, IsInteger t) (hp : l.Perm k) :
    (sum e).eval fs k = (sum e).eval fs l ↔
      (Fits 0 (amounts fs e k) ↔ Fits 0 (amounts fs e l)) := by
  have hk : ∀ t ∈ values fs e k, IsInteger t := fun t ht => h t ((values_perm hp).mem_iff.2 ht)
  rw [eval_sum h, eval_sum hk, (amounts_perm hp).sum_eq]
  -- A sum that fits has a value, so it differs from one that does not.
  have hvalue (j : List Int) (hj : Fits 0 j) (hsum : j.sum = (amounts fs e k).sum) :
      (toInt64? (amounts fs e k).sum).map Term.int ≠ none := by
    have hrange : InRange (amounts fs e k).sum := by
      have htotal := hj.total
      rwa [Int.zero_add, hsum] at htotal
    rw [Ne, Option.map_eq_none_iff, ← Option.not_isSome_iff_eq_none, not_not, isSome_toInt64?]
    exact hrange
  by_cases hfk : Fits 0 (amounts fs e k) <;> by_cases hfl : Fits 0 (amounts fs e l)
  · simp [hfk, hfl]
  · simpa [hfk, hfl] using hvalue _ hfk rfl
  · simpa [hfk, hfl] using (hvalue _ hfl (amounts_perm hp).sum_eq).symm
  · simp [hfk, hfl]

/-- The sum is the same in every order of the rows if and only if the running sum stays in range in
every order, or leaves it in every order. -/
theorem eval_sum_perm_iff (h : ∀ t ∈ values fs e l, IsInteger t) :
    (∀ k, l.Perm k → (sum e).eval fs k = (sum e).eval fs l) ↔
      Spread (amounts fs e l) ∨ ¬ InRange (amounts fs e l).sum := by
  have hrange : ∀ a ∈ amounts fs e l, InRange a := by
    intro a ha
    obtain ⟨t, -, hta⟩ := List.mem_filterMap.1 ha
    obtain ⟨v, -, rfl⟩ := Option.map_eq_some_iff.1 hta
    exact inRange_toInt v
  rw [← fits_perm_iff hrange]
  constructor
  · intro hall j hj
    -- An order of the numbers comes from an order of the rows.
    have hamounts : amounts fs e = fun rows => rows.filterMap fun b =>
        (e.eval fs b).toOption.bind amount? := by
      funext rows
      rw [amounts, values, List.filterMap_filterMap]
    obtain ⟨k, hk, rfl⟩ : ∃ k, l.Perm k ∧ amounts fs e k = j := by
      rw [hamounts] at hj ⊢
      exact exists_perm_filterMap hj
    exact (eval_sum_eq_iff h hk).1 (hall k hk)
  · exact fun hall k hk => (eval_sum_eq_iff h hk).2 (hall _ (amounts_perm hk))

end Aggregator

end SparqlAlgebra
