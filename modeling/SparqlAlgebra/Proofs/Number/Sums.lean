import Mathlib.Algebra.BigOperators.Group.List.Basic
import Mathlib.Algebra.Order.BigOperators.Group.List
import Mathlib.Algebra.Ring.Int.Defs
import Mathlib.Data.List.Infix
import SparqlAlgebra.Text.Basic

/-!
Sums that are checked for range after each summand. Whether such a sum has a value depends on the
order of the summands: the running sum goes highest if the positive summands come first, and lowest
if the negative ones do.
-/

namespace SparqlAlgebra.Number

/-- The integers that 64 bits hold. -/
def InRange (n : Int) : Prop := Int64.minValue.toInt ≤ n ∧ n ≤ Int64.maxValue.toInt

instance (n : Int) : Decidable (InRange n) := inferInstanceAs (Decidable (_ ∧ _))

/-- All running sums, from `s` on, are in range. -/
def Fits (s : Int) (l : List Int) : Prop := ∀ p ∈ l.inits, InRange (s + p.sum)

instance (s : Int) (l : List Int) : Decidable (Fits s l) :=
  inferInstanceAs (Decidable (∀ p ∈ l.inits, InRange (s + p.sum)))

/-- The highest running sum, over all orders of the summands, and the lowest one are in range. -/
def Spread (l : List Int) : Prop :=
  InRange (l.filter (0 < ·)).sum ∧ InRange (l.filter (· < 0)).sum

instance (l : List Int) : Decidable (Spread l) := inferInstanceAs (Decidable (_ ∧ _))

variable {s n : Int} {k l : List Int}

theorem isSome_toInt64? : (toInt64? n).isSome ↔ InRange n := by
  unfold toInt64? InRange
  split <;> simp_all

theorem inRange_toInt (v : Int64) : InRange v.toInt :=
  ⟨v.le_toInt, Int.le_of_lt_add_one v.toInt_lt⟩

theorem InRange.between {a b : Int} (ha : InRange a) (hb : InRange b) (han : a ≤ n) (hnb : n ≤ b) :
    InRange n := ⟨Int.le_trans ha.1 han, Int.le_trans hnb hb.2⟩

theorem fits_nil : Fits s [] ↔ InRange s := by simp [Fits]

theorem fits_cons {a : Int} : Fits s (a :: l) ↔ InRange s ∧ Fits (s + a) l := by
  simp [Fits, Int.add_assoc]

theorem fits_iff : Fits s l ↔ ∀ p, p <+: l → InRange (s + p.sum) := by
  simp only [Fits, List.mem_inits]

theorem Fits.start (h : Fits s l) : InRange s := by
  have hnil := fits_iff.1 h [] List.nil_prefix
  rwa [List.sum_nil, Int.add_zero] at hnil

theorem Fits.total (h : Fits s l) : InRange (s + l.sum) := fits_iff.1 h l (List.prefix_refl l)

/-- A sum is made of what its positive and what its negative summands come to. -/
theorem sum_signs (l : List Int) :
    l.sum = (l.filter (0 < ·)).sum + (l.filter (· < 0)).sum ∧
      0 ≤ (l.filter (0 < ·)).sum ∧ (l.filter (· < 0)).sum ≤ 0 := by
  induction l with
  | nil => simp
  | cons a l ih =>
    obtain ⟨hsum, hpos, hneg⟩ := ih
    simp only [List.filter_cons, List.sum_cons]
    rcases Int.lt_trichotomy a 0 with ha | rfl | ha
    · have hnot : ¬ 0 < a := by omega
      simp only [ha, hnot, decide_true, decide_false, Bool.false_eq_true, if_true, if_false,
        List.sum_cons]
      omega
    · simp only [Int.lt_irrefl, decide_false, Bool.false_eq_true, if_false]
      omega
    · have hnot : ¬ a < 0 := by omega
      simp only [ha, hnot, decide_true, decide_false, Bool.false_eq_true, if_true, if_false,
        List.sum_cons]
      omega

theorem sum_nonpos (h : ∀ a ∈ l, a ≤ 0) : l.sum ≤ 0 := by
  have hnone : l.filter (0 < ·) = [] :=
    List.filter_eq_nil_iff.2 fun a ha => by simpa using h a ha
  obtain ⟨hsum, -, hneg⟩ := sum_signs l
  rw [hnone, List.sum_nil, Int.zero_add] at hsum
  exact hsum ▸ hneg

/-- Every running sum lies between the sums of the negative and of the positive summands. -/
theorem Spread.fits (h : Spread l) (hk : l.Perm k) : Fits 0 k := by
  refine fits_iff.2 fun p ⟨q, hpq⟩ => ?_
  have hperm : l.Perm (p ++ q) := hpq ▸ hk
  have hpos : (l.filter (0 < ·)).sum = (p.filter (0 < ·)).sum + (q.filter (0 < ·)).sum := by
    rw [(hperm.filter _).sum_eq, List.filter_append, List.sum_append]
  have hneg : (l.filter (· < 0)).sum = (p.filter (· < 0)).sum + (q.filter (· < 0)).sum := by
    rw [(hperm.filter _).sum_eq, List.filter_append, List.sum_append]
  obtain ⟨hp, hpp, hpn⟩ := sum_signs p
  obtain ⟨-, hqp, hqn⟩ := sum_signs q
  exact h.2.between h.1 (by omega) (by omega)

/-- Without spread the running sum leaves the range when the summands of one sign come first. -/
theorem exists_perm_not_fits (h : ¬ Spread l) : ∃ k, l.Perm k ∧ ¬ Fits 0 k := by
  have hfirst (c : Int → Bool) (hc : ¬ InRange (l.filter c).sum) : ∃ k, l.Perm k ∧ ¬ Fits 0 k := by
    refine ⟨_, (List.filter_append_perm c l).symm, fun hfits => hc ?_⟩
    have hrun := fits_iff.1 hfits _ (List.prefix_append _ _)
    rwa [Int.zero_add] at hrun
  by_cases hpos : InRange (l.filter (0 < ·)).sum
  · exact hfirst _ fun hneg => h ⟨hpos, hneg⟩
  · exact hfirst _ hpos

/-- With a sum in range there is an order of the summands in which no running sum leaves it: the
next summand is one of the sign that leads back to zero, as long as there is one. -/
theorem exists_perm_fits (hs : InRange s) (hl : ∀ a ∈ l, InRange a) (htotal : InRange (s + l.sum)) :
    ∃ k, l.Perm k ∧ Fits s k := by
  induction hn : l.length generalizing s l with
  | zero =>
    obtain rfl : l = [] := List.length_eq_zero_iff.1 hn
    exact ⟨[], .refl _, fits_nil.2 hs⟩
  | succ n ih =>
    -- A summand that keeps the running sum in range may come next.
    have hnext (a : Int) (ha : a ∈ l) (hsa : InRange (s + a)) : ∃ k, l.Perm k ∧ Fits s k := by
      have hperm : l.Perm (a :: l.erase a) := List.perm_cons_erase ha
      have hrest : InRange (s + a + (l.erase a).sum) := by
        rwa [hperm.sum_eq, List.sum_cons, ← Int.add_assoc] at htotal
      have hlen : (l.erase a).length = n := by rw [List.length_erase_of_mem ha, hn]; rfl
      obtain ⟨k, hk, hfits⟩ := ih hsa (fun b hb => hl b (List.mem_of_mem_erase hb)) hrest hlen
      exact ⟨a :: k, hperm.trans (hk.cons a), fits_cons.2 ⟨hs, hfits⟩⟩
    have hzero : InRange 0 := by decide
    by_cases hdown : ∃ a ∈ l, a ≤ 0 ∧ 0 ≤ s
    · obtain ⟨a, ha, hneg, hpos⟩ := hdown
      exact hnext a ha ((hl a ha).between hs (by omega) (by omega))
    · by_cases hup : ∃ a ∈ l, 0 ≤ a ∧ s ≤ 0
      · obtain ⟨a, ha, hpos, hneg⟩ := hup
        exact hnext a ha (hs.between (hl a ha) (by omega) (by omega))
      · -- All summands lead away from zero, but no further than to the sum.
        refine ⟨l, .refl l, fits_iff.2 fun p ⟨q, hpq⟩ => ?_⟩
        subst hpq
        rw [List.sum_append] at htotal
        rcases Int.le_total 0 s with hpos | hneg
        · have hup : ∀ a ∈ p ++ q, 0 ≤ a := fun a ha => by
            by_contra hlt
            exact hdown ⟨a, ha, by omega, hpos⟩
          have hp : 0 ≤ p.sum := List.sum_nonneg fun a ha => hup a (List.mem_append_left q ha)
          have hq : 0 ≤ q.sum := List.sum_nonneg fun a ha => hup a (List.mem_append_right p ha)
          exact hs.between htotal (by omega) (by omega)
        · have hdown : ∀ a ∈ p ++ q, a ≤ 0 := fun a ha => by
            by_contra hlt
            exact hup ⟨a, ha, by omega, hneg⟩
          have hp : p.sum ≤ 0 := sum_nonpos fun a ha => hdown a (List.mem_append_left q ha)
          have hq : q.sum ≤ 0 := sum_nonpos fun a ha => hdown a (List.mem_append_right p ha)
          exact htotal.between hs (by omega) (by omega)

/-- The order of the summands has no say in whether their sum has a value if the running sum can
leave the range in no order, or does so in all of them. -/
theorem fits_perm_iff (hl : ∀ a ∈ l, InRange a) :
    (∀ k, l.Perm k → (Fits 0 k ↔ Fits 0 l)) ↔ Spread l ∨ ¬ InRange l.sum := by
  constructor
  · intro h
    by_contra hnot
    obtain ⟨hspread, htotal⟩ := not_or.1 hnot
    have hsum : InRange (0 + l.sum) := by rwa [Int.zero_add, ← not_not (a := InRange _)]
    obtain ⟨k, hk, hfits⟩ := exists_perm_fits (by decide) hl hsum
    obtain ⟨j, hj, hover⟩ := exists_perm_not_fits hspread
    exact hover ((h j hj).2 ((h k hk).1 hfits))
  · rintro (hspread | htotal) k hk
    · exact iff_of_true (hspread.fits hk) (hspread.fits (.refl l))
    · have hover : ∀ j, l.Perm j → ¬ Fits 0 j := fun j hj hfits =>
        htotal (by simpa [hj.sum_eq] using hfits.total)
      exact iff_of_false (hover k hk) (hover l (.refl l))

end SparqlAlgebra.Number
