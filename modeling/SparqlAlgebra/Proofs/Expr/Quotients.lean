import SparqlAlgebra.Proofs.Expr.Integers

/-!
Quotients of integers. Where the divisor goes into the dividend the quotient is the exact integer,
but for the one quotient of 64-bit integers that 64 bits do not hold, which is computed in doubles
like those that are not whole.
-/

namespace SparqlAlgebra

open Number

namespace Numeric

variable {l r p q : Int64}

/-- The quotient that 64 bits do not hold is that of the least integer by minus one. -/
theorem inRange_tdiv_iff :
    InRange (l.toInt.tdiv r.toInt) ↔ ¬ (l = Int64.minValue ∧ r = -1) := by
  constructor
  · rintro h ⟨rfl, rfl⟩
    exact absurd h (by decide)
  · intro h
    have hdiv : (l / r).toInt = l.toInt.tdiv r.toInt := by
      rcases not_and_or.1 h with hl | hr
      · exact Int64.toInt_div_of_ne_left l r hl
      · exact Int64.toInt_div_of_ne_right l r hr
    rw [← hdiv]
    exact inRange_toInt (l / r)

theorem toInt_ne_zero (hr : r ≠ 0) : r.toInt ≠ 0 := fun h => hr (Int64.toInt_inj.1 h)

theorem dividesExactly_iff : dividesExactly l r = true ↔
    r ≠ 0 ∧ r.toInt ∣ l.toInt ∧ InRange (l.toInt.tdiv r.toInt) := by
  rw [inRange_tdiv_iff, Int.dvd_iff_tmod_eq_zero]
  simp only [dividesExactly, Bool.and_eq_true, decide_eq_true_eq, Bool.not_eq_true',
    Bool.and_eq_false_iff, decide_eq_false_iff_not, not_and_or]
  tauto

theorem dividesExactly_eq_false_iff (hr : r ≠ 0) : dividesExactly l r = false ↔
    ¬ r.toInt ∣ l.toInt ∨ l = Int64.minValue ∧ r = -1 := by
  rw [← Bool.not_eq_true, dividesExactly_iff, inRange_tdiv_iff]
  tauto

theorem quotient_unique (hr : r ≠ 0) (hp : r.toInt * p.toInt = l.toInt)
    (hq : r.toInt * q.toInt = l.toInt) : p = q :=
  Int64.toInt_inj.1 (Int.eq_of_mul_eq_mul_left (toInt_ne_zero hr) (hp.trans hq.symm))

/-- A divisor has a quotient among the 64-bit integers if it goes into the dividend and the
quotient is in range. -/
theorem exists_quotient_iff (hr : r ≠ 0) :
    (∃ q : Int64, r.toInt * q.toInt = l.toInt) ↔ dividesExactly l r = true := by
  have hr0 := toInt_ne_zero hr
  rw [dividesExactly_iff]
  constructor
  · rintro ⟨q, hq⟩
    refine ⟨hr, ⟨q.toInt, hq.symm⟩, ?_⟩
    rw [← hq, Int.mul_tdiv_cancel_left _ hr0]
    exact inRange_toInt q
  · rintro ⟨-, hdvd, hrange⟩
    obtain ⟨q, hq⟩ := exists_toInt_eq hrange
    exact ⟨q, by rw [hq, Int.mul_tdiv_cancel' hdvd]⟩

theorem apply_divide_zero (l : Int64) :
    apply .divide (.integer l) (.integer 0) = .error .divideByZero := rfl

theorem apply_divide_exact (hr : r ≠ 0) (hq : r.toInt * q.toInt = l.toInt) :
    apply .divide (.integer l) (.integer r) = .ok (.integer q) := by
  have hexact : dividesExactly l r = true := (exists_quotient_iff hr).1 ⟨q, hq⟩
  rw [apply]
  simp only [if_neg hr, if_pos hexact]
  rw [← hq, Int.mul_tdiv_cancel_left _ (toInt_ne_zero hr), checked_toInt]

theorem apply_divide_inexact (hr : r ≠ 0) (h : dividesExactly l r = false) :
    apply .divide (.integer l) (.integer r) =
      .ok (.double (ofInt l.toInt / ofInt r.toInt)) := by
  rw [apply]
  simp only [if_neg hr, h, Bool.false_eq_true, if_false]
  rfl

end Numeric

namespace Expr

open Term

variable {fs : Functions} {row : Binding} {e f : Expr} {a b : Term} {l r : Int64}

theorem eval_divide_apply (ha : e.eval fs row = .ok a) (hb : f.eval fs row = .ok b)
    (hl : a.numeric? = some (.integer l)) (hr : b.numeric? = some (.integer r)) :
    (binary .divide e f).eval fs row =
      (Numeric.apply .divide (.integer l) (.integer r)).map Numeric.toTerm := by
  rw [eval, ha, hb]
  show arithmetic .divide a b = _
  rw [arithmetic, hl, hr]

/-- The quotient of two integers is an error for zero alone, the integer that makes the dividend
when multiplied by the divisor if there is one in 64 bits, and otherwise the quotient of the
doubles. For a divisor of the dividend that happens once, at the least integer and minus one. -/
theorem eval_divide (ha : e.eval fs row = .ok a) (hb : f.eval fs row = .ok b)
    (hl : a.numeric? = some (.integer l)) (hr : b.numeric? = some (.integer r)) :
    let outcome := (binary .divide e f).eval fs row
    (outcome = .error .divideByZero ↔ r = 0) ∧
    (∀ q : Int64, outcome = .ok (.int q) ↔ r ≠ 0 ∧ r.toInt * q.toInt = l.toInt) ∧
    (outcome = .ok (.double (ofInt l.toInt / ofInt r.toInt)) ↔
      r ≠ 0 ∧ (¬ r.toInt ∣ l.toInt ∨ l = Int64.minValue ∧ r = -1)) := by
  intro outcome
  have happly : outcome = (Numeric.apply .divide (.integer l) (.integer r)).map Numeric.toTerm :=
    eval_divide_apply ha hb hl hr
  by_cases hzero : r = 0
  · subst hzero
    rw [Numeric.apply_divide_zero] at happly
    rw [happly]
    exact ⟨iff_of_true rfl rfl, fun q => iff_of_false nofun fun h => h.1 rfl,
      iff_of_false nofun fun h => h.1 rfl⟩
  -- The divisor has a quotient in 64 bits or it has none, and nothing else is a double.
  rw [← Numeric.dividesExactly_eq_false_iff hzero]
  cases hdivides : Numeric.dividesExactly l r with
  | true =>
    obtain ⟨q, hq⟩ := (Numeric.exists_quotient_iff hzero).2 hdivides
    rw [Numeric.apply_divide_exact hzero hq] at happly
    have hvalue : outcome = .ok (.int q) := happly
    rw [hvalue]
    refine ⟨iff_of_false nofun hzero, fun p => ?_, ?_⟩
    · rw [Except.ok.injEq, int_inj]
      constructor
      · rintro rfl
        exact ⟨hzero, hq⟩
      · rintro ⟨-, hp⟩
        exact Numeric.quotient_unique hzero hq hp
    · rw [Except.ok.injEq]
      exact iff_of_false (int_ne_double q _) fun h => nomatch h.2
  | false =>
    rw [Numeric.apply_divide_inexact hzero hdivides] at happly
    have hvalue : outcome = .ok (.double (ofInt l.toInt / ofInt r.toInt)) := happly
    rw [hvalue]
    refine ⟨iff_of_false nofun hzero, fun p => ?_, iff_of_true rfl ⟨hzero, rfl⟩⟩
    rw [Except.ok.injEq]
    refine iff_of_false (int_ne_double p _).symm fun hp => ?_
    have hexact := (Numeric.exists_quotient_iff hzero).1 ⟨p, hp.2⟩
    rw [hdivides] at hexact
    cases hexact

/-- Half of the least integer, with the divisor written in another type and with blanks. -/
theorem eval_divide_halved :
    let two : Term := .typed " +02 " (xsd "short")
    let row := Binding.single ⟨"x"⟩ two
    let half : Expr := binary .divide (.const (.int Int64.minValue)) (.var ⟨"x"⟩)
    row.get? ⟨"x"⟩ = some two ∧ two.numeric? = some (.integer 2) ∧
      half.eval .none row = .ok (.int (-4611686018427387904)) := by
  intro two row half
  have hrow : row.get? ⟨"x"⟩ = some two := by decide
  have htwo : two.numeric? = some (.integer 2) := rfl
  have hleast : (const (.int Int64.minValue)).eval .none row = .ok (.int Int64.minValue) := by
    rw [eval]
  have hvar : (var ⟨"x"⟩).eval .none row = .ok two := by rw [eval, hrow]
  obtain ⟨-, hquotient, -⟩ := eval_divide hleast hvar (numeric?_int Int64.minValue) htwo
  exact ⟨hrow, htwo, (hquotient _).2 (by decide)⟩

/-- Minus one goes into the least integer, but 64 bits do not hold the quotient: it comes out as a
rounded double and not as an overflow. -/
theorem eval_divide_least :
    (-1 : Int64).toInt ∣ Int64.minValue.toInt ∧
      ¬ InRange (Int64.minValue.toInt.tdiv (-1 : Int64).toInt) ∧
      (binary .divide (.const (.int Int64.minValue)) (.const (.int (-1)))).eval .none ∅ =
        .ok (.typed "9223372036854776000" (xsd "double")) := by
  decide

end Expr

end SparqlAlgebra
