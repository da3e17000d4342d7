import SparqlAlgebra.Proofs.Number.Doubles

/-!
How far the order of `ORDER BY` is an order. It compares two numbers by value and all other terms by
their spelling; each of the two is a strict order, but they take turns.
-/

namespace SparqlAlgebra

namespace Numeric

variable {x y z : Numeric} {r s : Int}

/-- Where the double of a number stands among all doubles. -/
def rank? (x : Numeric) : Option Int := Number.rank? x.toDouble

theorem rank?_mono {a b : Int64} (h : a.toInt ≤ b.toInt) :
    ∃ r s, (integer a).rank? = some r ∧ (integer b).rank? = some s ∧ r ≤ s :=
  Number.rank?_ofInt_mono h

/-- Numbers compare by their ranks, two integers exactly. -/
theorem cmp?_eq (x y : Numeric) : x.cmp? y =
    match x, y with
    | integer a, integer b => some (compare a.toInt b.toInt)
    | _, _ => x.rank?.bind fun r => y.rank?.map fun s => compare r s := by
  cases x with
  | integer a =>
    cases y with
    | integer b => rfl
    | double y => exact Number.cmpDouble?_eq ..
  | double x => exact Number.cmpDouble?_eq ..

theorem cmp?_swap (x y : Numeric) : y.cmp? x = (x.cmp? y).map Ordering.swap := by
  have hranks : (y.rank?.bind fun s => x.rank?.map fun r => compare s r) =
      (x.rank?.bind fun r => y.rank?.map fun s => compare r s).map Ordering.swap := by
    cases x.rank? <;> cases y.rank? <;> simp [Int.compare_swap]
  rw [cmp?_eq, cmp?_eq]
  cases x with
  | integer a =>
    cases y with
    | integer b => simp [Int.compare_swap]
    | double y => exact hranks
  | double x => cases y <;> exact hranks

theorem cmp?_eq_lt_of_rank (hx : x.rank? = some r) (hy : y.rank? = some s) (h : r < s) :
    x.cmp? y = some .lt := by
  have hranks : (x.rank?.bind fun r => y.rank?.map fun s => compare r s) = some .lt := by
    rw [hx, hy]
    exact congrArg some (compare_lt_iff_lt.2 h)
  rw [cmp?_eq]
  cases x with
  | integer a =>
    cases y with
    | integer b =>
      -- Rounding keeps the order, so that integers with different doubles are in the same order.
      refine congrArg some (compare_lt_iff_lt.2 (lt_of_not_ge fun hle => ?_))
      obtain ⟨s', r', hs, hr, hle⟩ := rank?_mono hle
      rw [hx, Option.some_inj] at hr
      rw [hy, Option.some_inj] at hs
      omega
    | double y => exact hranks
  | double x => exact hranks

theorem rank_of_cmp?_eq_lt (h : x.cmp? y = some .lt) :
    ∃ r s, x.rank? = some r ∧ y.rank? = some s ∧
      (r < s ∨ r ≤ s ∧ ∃ a b, x = integer a ∧ y = integer b) := by
  have hranks (h : (x.rank?.bind fun r => y.rank?.map fun s => compare r s) = some .lt) :
      ∃ r s, x.rank? = some r ∧ y.rank? = some s ∧
        (r < s ∨ r ≤ s ∧ ∃ a b, x = integer a ∧ y = integer b) := by
    obtain ⟨r, hr, h⟩ := Option.bind_eq_some_iff.1 h
    obtain ⟨s, hs, h⟩ := Option.map_eq_some_iff.1 h
    exact ⟨r, s, hr, hs, .inl (compare_lt_iff_lt.1 h)⟩
  rw [cmp?_eq] at h
  cases x with
  | integer a =>
    cases y with
    | integer b =>
      have hab : a.toInt < b.toInt := compare_lt_iff_lt.1 (Option.some_inj.1 h)
      obtain ⟨r, s, hr, hs, hle⟩ := rank?_mono (Int.le_of_lt hab)
      exact ⟨r, s, hr, hs, .inr ⟨hle, a, b, rfl, rfl⟩⟩
    | double y => exact hranks h
  | double x => exact hranks h

/-- Numbers that stand somewhere among the doubles and do not differ stand at the same place. -/
theorem rank_eq_of_getD_cmp? (hx : x.rank? = some r) (hy : y.rank? = some s)
    (h : (x.cmp? y).getD .eq = .eq) : r = s := by
  by_contra hne
  rcases lt_or_gt_of_ne hne with hlt | hgt
  · rw [cmp?_eq_lt_of_rank hx hy hlt] at h
    cases h
  · rw [cmp?_swap y x, cmp?_eq_lt_of_rank hy hx hgt] at h
    cases h

theorem cmp?_lt_trans (hxy : x.cmp? y = some .lt) (hyz : y.cmp? z = some .lt) :
    x.cmp? z = some .lt := by
  obtain ⟨r, s, hr, hs, hrs⟩ := rank_of_cmp?_eq_lt hxy
  obtain ⟨s', t, hs', ht, hst⟩ := rank_of_cmp?_eq_lt hyz
  obtain rfl : s = s' := Option.some_inj.1 (hs.symm.trans hs')
  rcases hrs with hrs | ⟨hrs, a, b, rfl, rfl⟩
  · exact cmp?_eq_lt_of_rank hr ht (by omega)
  rcases hst with hst | ⟨-, b', c, hb, rfl⟩
  · exact cmp?_eq_lt_of_rank hr ht (by omega)
  · cases hb
    have hab : a.toInt < b.toInt := compare_lt_iff_lt.1 (Option.some_inj.1 hxy)
    have hbc : b.toInt < c.toInt := compare_lt_iff_lt.1 (Option.some_inj.1 hyz)
    exact congrArg some (compare_lt_iff_lt.2 (Int.lt_trans hab hbc))

end Numeric

namespace Term

variable {a b c : Option Term}

/-- The comparison by value, for terms that are numbers. -/
def valueCmp (a b : Option Term) : Ordering :=
  ((a.bind numeric?).bind fun x => (b.bind numeric?).bind x.cmp?).getD .eq

/-- The comparison by kind and spelling. -/
def spelledCmp : Option Term → Option Term → Ordering :=
  compareLex (compareOn (Option.map kindRank)) compare

instance : Std.TransCmp spelledCmp := inferInstanceAs (Std.TransCmp (compareLex _ _))

instance : Std.LawfulEqCmp spelledCmp where
  eq_of_compare h := Std.LawfulEqCmp.eq_of_compare (compareLex_eq_eq.1 h).2

theorem valueCmp_swap (a b : Option Term) : valueCmp b a = (valueCmp a b).swap := by
  unfold valueCmp
  cases a.bind numeric? with
  | none => cases b.bind numeric? <;> rfl
  | some x =>
    cases b.bind numeric? with
    | none => rfl
    | some y =>
      show (y.cmp? x).getD .eq = ((x.cmp? y).getD .eq).swap
      rw [Numeric.cmp?_swap]
      cases x.cmp? y <;> rfl

theorem valueCmp_eq_lt : valueCmp a b = .lt ↔
    ∃ x y, a.bind numeric? = some x ∧ b.bind numeric? = some y ∧ x.cmp? y = some .lt := by
  unfold valueCmp
  cases a.bind numeric? <;> cases b.bind numeric? <;>
    simp [Option.getD_eq_iff]

theorem valueCmp_lt_trans (hab : valueCmp a b = .lt) (hbc : valueCmp b c = .lt) :
    valueCmp a c = .lt := by
  obtain ⟨x, y, hx, hy, hxy⟩ := valueCmp_eq_lt.1 hab
  obtain ⟨y', z, hy', hz, hyz⟩ := valueCmp_eq_lt.1 hbc
  obtain rfl : y = y' := Option.some_inj.1 (hy.symm.trans hy')
  exact valueCmp_eq_lt.2 ⟨x, z, hx, hz, Numeric.cmp?_lt_trans hxy hyz⟩

theorem kindRank_of_numeric? {t : Term} {x : Numeric} (h : t.numeric? = some x) :
    t.kindRank = 2 := by
  cases t with
  | iri v => cases h
  | blank l => cases h
  | literal l => rfl

/-- Values decide before kinds and spellings do. -/
theorem sortCmp?_eq (a b : Option Term) :
    sortCmp? a b = (valueCmp a b).then (spelledCmp a b) := by
  cases a with
  | none => cases b <;> rfl
  | some a =>
    cases b with
    | none => cases ha : a.numeric? <;> simp [valueCmp, ha] <;> rfl
    | some b =>
      have hspelled : spelledCmp (some a) (some b) =
          (compare a.kindRank b.kindRank).then (compare a b) := rfl
      show sortCmp a b = _
      rw [hspelled]
      -- Only literals are numbers: where kinds differ, values do not decide.
      unfold sortCmp valueCmp
      cases ha : a.numeric? with
      | none => cases compare a.kindRank b.kindRank <;> simp [ha]
      | some x =>
        cases hb : b.numeric? with
        | none => cases compare a.kindRank b.kindRank <;> simp [ha, hb]
        | some y =>
          rw [kindRank_of_numeric? ha, kindRank_of_numeric? hb]
          rcases hxy : x.cmp? y with _ | ⟨_ | _ | _⟩ <;> simp [ha, hb, hxy]

theorem sortCmp?_swap (a b : Option Term) : sortCmp? b a = (sortCmp? a b).swap := by
  have hspelled : spelledCmp b a = (spelledCmp a b).swap := Std.OrientedCmp.eq_swap
  rw [sortCmp?_eq, sortCmp?_eq, valueCmp_swap a b, hspelled]
  cases valueCmp a b <;> rfl

theorem sortCmp?_self (a : Option Term) : sortCmp? a a = .eq := by
  have h := sortCmp?_swap a a
  cases hc : sortCmp? a a <;> simp_all

theorem sortCmp?_eq_eq : sortCmp? a b = .eq ↔ a = b := by
  refine ⟨fun h => ?_, fun h => h ▸ sortCmp?_self a⟩
  rw [sortCmp?_eq, Ordering.then_eq_eq] at h
  exact Std.LawfulEqCmp.eq_of_compare h.2

/-- The term `t` is between two numbers in spelling that are the other way round in value, and its
own value, if it has one, does not tell it from them. -/
structure Wedged (t x y : Option Term) : Prop where
  value_lt : valueCmp x y = .lt
  value_left : valueCmp y t = .eq
  value_right : valueCmp t x = .eq
  spelled_left : spelledCmp y t = .lt
  spelled_right : spelledCmp t x = .lt

theorem sortCmp?_eq_lt : sortCmp? a b = .lt ↔
    valueCmp a b = .lt ∨ valueCmp a b = .eq ∧ spelledCmp a b = .lt := by
  rw [sortCmp?_eq, Ordering.then_eq_lt]

/-- Terms in a circle: neither values alone nor spellings alone lead back, and two values make a
third. -/
theorem wedged_of_cycle (hab : sortCmp? a b = .lt) (hbc : sortCmp? b c = .lt)
    (hca : sortCmp? c a = .lt) : Wedged c a b ∨ Wedged a b c ∨ Wedged b c a := by
  have hback {a b : Option Term} (h : valueCmp a b = .lt) : valueCmp b a = .gt := by
    rw [valueCmp_swap a b, h]
    rfl
  -- Each of the three is by value or by spelling. Two by value make a third, which goes the other
  -- way than the circle, and three by spelling do not close it.
  rcases sortCmp?_eq_lt.1 hab with hab | ⟨hab, hsab⟩ <;>
    rcases sortCmp?_eq_lt.1 hbc with hbc | ⟨hbc, hsbc⟩ <;>
    rcases sortCmp?_eq_lt.1 hca with hca | ⟨hca, hsca⟩
  · have := hback (valueCmp_lt_trans hab hbc); simp_all
  · have := hback (valueCmp_lt_trans hab hbc); simp_all
  · have := hback (valueCmp_lt_trans hca hab); simp_all
  · exact .inl ⟨hab, hbc, hca, hsbc, hsca⟩
  · have := hback (valueCmp_lt_trans hbc hca); simp_all
  · exact .inr (.inl ⟨hbc, hca, hab, hsca, hsab⟩)
  · exact .inr (.inr ⟨hca, hab, hbc, hsab, hsbc⟩)
  · have hloop := Std.TransCmp.lt_trans (Std.TransCmp.lt_trans hsab hsbc) hsca
    have hself : spelledCmp a a = .eq := Std.ReflCmp.compare_self
    rw [hself] at hloop
    cases hloop

theorem Wedged.cycle {t x y : Option Term} (h : Wedged t x y) :
    sortCmp? x y = .lt ∧ sortCmp? y t = .lt ∧ sortCmp? t x = .lt :=
  ⟨sortCmp?_eq_lt.2 (.inl h.value_lt), sortCmp?_eq_lt.2 (.inr ⟨h.value_left, h.spelled_left⟩),
    sortCmp?_eq_lt.2 (.inr ⟨h.value_right, h.spelled_right⟩)⟩

/-- What is wedged is no number, or a NaN, or a double that two integers are both rounded to. -/
theorem Wedged.unvalued {t x y : Option Term} (h : Wedged t x y) :
    (∀ w, t.bind numeric? = some w → w.rank? = none) ∨
    ∃ i j d, x.bind numeric? = some (.integer i) ∧ y.bind numeric? = some (.integer j) ∧
      t.bind numeric? = some (.double d) ∧ i.toInt < j.toInt := by
  obtain ⟨u, v, hu, hv, huv⟩ := valueCmp_eq_lt.1 h.value_lt
  obtain ⟨r, s, hr, hs, hrs⟩ := Numeric.rank_of_cmp?_eq_lt huv
  refine or_iff_not_imp_left.2 fun hvalued => ?_
  push Not at hvalued
  obtain ⟨w, hw, hrank⟩ := hvalued
  obtain ⟨q, hq⟩ := Option.ne_none_iff_exists'.1 hrank
  have hleft : (v.cmp? w).getD .eq = .eq := by simpa [valueCmp, hv, hw] using h.value_left
  have hright : (w.cmp? u).getD .eq = .eq := by simpa [valueCmp, hu, hw] using h.value_right
  have hsq := Numeric.rank_eq_of_getD_cmp? hs hq hleft
  have hqr := Numeric.rank_eq_of_getD_cmp? hq hr hright
  rcases hrs with hrs | ⟨-, i, j, rfl, rfl⟩
  · omega
  have hij : i.toInt < j.toInt := compare_lt_iff_lt.1 (Option.some_inj.1 huv)
  cases w with
  | integer k =>
    have hjk : j.toInt = k.toInt := compare_eq_iff_eq.1 hleft
    have hki : k.toInt = i.toInt := compare_eq_iff_eq.1 hright
    omega
  | double d => exact ⟨i, j, d, hu, hv, hw, hij⟩

/-- Transitivity on three terms fails only if one of them is wedged between the others. -/
theorem trans_iff_not_wedged (a b c : Option Term) :
    (sortCmp? a b ≠ .gt → sortCmp? b c ≠ .gt → sortCmp? a c ≠ .gt) ↔
      ¬ (Wedged c a b ∨ Wedged a b c ∨ Wedged b c a) := by
  constructor
  · intro htrans hwedged
    have hcycle : sortCmp? a b = .lt ∧ sortCmp? b c = .lt ∧ sortCmp? c a = .lt := by
      rcases hwedged with h | h | h
      · exact h.cycle
      · exact ⟨h.cycle.2.2, h.cycle.1, h.cycle.2.1⟩
      · exact ⟨h.cycle.2.1, h.cycle.2.2, h.cycle.1⟩
    obtain ⟨hab, hbc, hca⟩ := hcycle
    refine htrans (by simp [hab]) (by simp [hbc]) ?_
    rw [sortCmp?_swap c a, hca]
    rfl
  · intro hno hab hbc hac
    have hca : sortCmp? c a = .lt := by
      rw [sortCmp?_swap a c, hac]
      rfl
    -- Equal terms compare alike, so that the three comparisons are strict.
    rcases hab' : sortCmp? a b with _ | _ | _
    · rcases hbc' : sortCmp? b c with _ | _ | _
      · exact hno (wedged_of_cycle hab' hbc' hca)
      · obtain rfl := sortCmp?_eq_eq.1 hbc'
        rw [hac] at hab'
        cases hab'
      · exact hbc hbc'
    · obtain rfl := sortCmp?_eq_eq.1 hab'
      exact hbc hac
    · exact hab hab'

/-- Whether the order of optional terms is transitive on those of a list. -/
def SortTransOn (l : List (Option Term)) : Prop :=
  ∀ a ∈ l, ∀ b ∈ l, ∀ c ∈ l, sortCmp? a b ≠ .gt → sortCmp? b c ≠ .gt → sortCmp? a c ≠ .gt

instance (l : List (Option Term)) : Decidable (SortTransOn l) :=
  inferInstanceAs (Decidable (∀ a ∈ l, ∀ b ∈ l, ∀ c ∈ l,
    sortCmp? a b ≠ .gt → sortCmp? b c ≠ .gt → sortCmp? a c ≠ .gt))

theorem sortTransOn_iff {l : List (Option Term)} :
    SortTransOn l ↔ ∀ t ∈ l, ∀ x ∈ l, ∀ y ∈ l, ¬ Wedged t x y := by
  constructor
  · intro h t ht x hx y hy hwedged
    exact (trans_iff_not_wedged x y t).1 (h x hx y hy t ht) (.inl hwedged)
  · intro h a ha b hb c hc
    rw [trans_iff_not_wedged]
    rintro (hwedged | hwedged | hwedged)
    · exact h c hc a ha b hb hwedged
    · exact h a ha b hb c hc hwedged
    · exact h b hb c hc a ha hwedged

/-- The order of optional terms can be turned round and tells all terms apart. It is transitive on
three terms if and only if none of them is wedged between the other two. -/
theorem sortCmp?_order (a b c : Option Term) :
    sortCmp? b a = (sortCmp? a b).swap ∧ (sortCmp? a b = .eq ↔ a = b) ∧
    ((sortCmp? a b ≠ .gt → sortCmp? b c ≠ .gt → sortCmp? a c ≠ .gt) ↔
      ¬ (Wedged c a b ∨ Wedged a b c ∨ Wedged b c a)) :=
  ⟨sortCmp?_swap a b, sortCmp?_eq_eq, trans_iff_not_wedged a b c⟩

/-- As a string, 15 comes after the number 10 and before the number 2. -/
theorem sortCmp?_not_trans :
    let two : Option Term := some (.int 2)
    let ten : Option Term := some (.int 10)
    let text : Option Term := some (.string "15")
    sortCmp? two ten = .lt ∧ sortCmp? ten text = .lt ∧ sortCmp? two text = .gt := by
  decide

end Term

end SparqlAlgebra
