import Mathlib
import SparqlAlgebra.Term.Order

/-!
The order of the doubles. Their bits, read as a sign and a number after it, stand in the same order
as they do, so that comparisons of doubles are comparisons of integers. Rounding an integer to a
double keeps the order of integers.
-/

namespace SparqlAlgebra.Number

open Float.Model (Format UnpackedFloat)
open Float.Model.UnpackedFloat (Sign)

def signOf (bits : Nat) : Sign := if signBit ≤ bits then .negative else .positive

/-- What the bits after the sign make as a number, with the sign: where the double with these bits
stands among all doubles. A NaN stands nowhere. -/
def rankOf? (bits : Nat) : Option Int :=
  if infinityBits < bits % signBit then none else some ((signOf bits).apply (bits % signBit : Nat))

def rank? (x : Float) : Option Int := rankOf? x.toBits.toNat

/-- The significand of a finite double, from its bits after the sign. -/
def significand (m : Nat) : Nat := if m < hiddenBit then m else hiddenBit + m % hiddenBit

/-- The exponent of the unit that the significand counts. -/
def unitExponent (m : Nat) : Int := if m < hiddenBit then -1074 else (m / hiddenBit : Nat) - 1075

/-- What a sign and the bits after it stand for. -/
inductive Unpacks (s : Sign) (m : Nat) : UnpackedFloat → Prop
  | notANumber : infinityBits < m → Unpacks s m .notANumber
  | infinity : m = infinityBits → Unpacks s m (.infinity s)
  | zero : m = 0 → Unpacks s m (.zero s)
  | finite (h : 0 < significand m) : 0 < m → m < infinityBits →
    Unpacks s m (.finite s (significand m) (unitExponent m) h)

section Unpack

variable (b : BitVec 64)

theorem ofBitVec_unpackSign :
    Sign.ofBitVec (@UnpackedFloat.unpackSign Format.binary64 b) = signOf b.toNat := by
  have hlt := b.isLt
  have hbit : (@UnpackedFloat.unpackSign Format.binary64 b).toNat = b.toNat / signBit := by
    rw [UnpackedFloat.unpackSign_def, BitVec.extractLsb'_toNat, Nat.shiftRight_eq_div_pow]
    simp only [signBit]
    omega
  have hzero : @UnpackedFloat.unpackSign Format.binary64 b = 0#1 ↔
      ¬ signBit ≤ b.toNat := by
    rw [← BitVec.toNat_inj, hbit]
    simp [signBit]
  unfold Sign.ofBitVec signOf
  by_cases hs : signBit ≤ b.toNat
  · rw [if_pos hs, if_neg (mt hzero.1 (not_not.2 hs))]
  · rw [if_neg hs, if_pos (hzero.2 hs)]

theorem toNat_unpackMantissa :
    (@UnpackedFloat.unpackMantissa Format.binary64 b).toNat =
      b.toNat % signBit % hiddenBit := by
  rw [UnpackedFloat.unpackMantissa_def, BitVec.extractLsb'_toNat, Nat.shiftRight_eq_div_pow]
  simp only [signBit, hiddenBit]
  omega

theorem toNat_unpackExponent :
    (@UnpackedFloat.unpackExponent Format.binary64 b).toNat =
      b.toNat % signBit / hiddenBit := by
  have hlt := b.isLt
  rw [UnpackedFloat.unpackExponent_def, BitVec.extractLsb'_toNat, Nat.shiftRight_eq_div_pow]
  simp only [signBit, hiddenBit]
  omega

theorem unpacks :
    Unpacks (signOf b.toNat) (b.toNat % signBit) (UnpackedFloat.unpack Format.binary64 b) := by
  have hmant := toNat_unpackMantissa b
  have hexp := toNat_unpackExponent b
  have hsign := ofBitVec_unpackSign b
  have hbound : b.toNat % signBit < signBit := Nat.mod_lt _ (by decide)
  generalize b.toNat % signBit = m at *
  generalize signOf b.toNat = s at *
  simp only [signBit, hiddenBit] at hmant hexp hbound
  have hones : @UnpackedFloat.unpackExponent Format.binary64 b = -1#11 ↔
      m / 4503599627370496 = 2047 := by
    rw [← hexp]
    exact BitVec.toNat_inj.symm
  have hnone : @UnpackedFloat.unpackExponent Format.binary64 b = 0#11 ↔
      m / 4503599627370496 = 0 := by
    rw [← hexp]
    exact BitVec.toNat_inj.symm
  have hrest : @UnpackedFloat.unpackMantissa Format.binary64 b = 0#52 ↔
      m % 4503599627370496 = 0 := by
    rw [← hmant]
    exact BitVec.toNat_inj.symm
  -- The cases are those of the exponent, all ones or zero or neither, and of the bits behind it.
  fun_cases UnpackedFloat.unpack Format.binary64 b with
  | case1 mant exp sign s' he hz =>
    have he := hones.1 he
    have hz := hrest.1 hz
    obtain rfl : s' = s := hsign
    exact .infinity (by rw [infinityBits]; omega)
  | case2 mant exp he hz =>
    have he := hones.1 he
    have hz := mt hrest.2 hz
    exact .notANumber (by rw [infinityBits]; omega)
  | case3 mant exp sign s' hne he hz =>
    have he := hnone.1 he
    have hz := hrest.1 hz
    obtain rfl : s' = s := hsign
    exact .zero (by omega)
  | case4 mant exp e sign s' hne he hz =>
    have he := hnone.1 he
    have hz := mt hrest.2 hz
    obtain rfl : s' = s := hsign
    have hpos : 0 < significand m := by rw [significand, hiddenBit]; split <;> omega
    have hsig : significand m = mant.toNat := by
      rw [hmant, significand, hiddenBit]
      split <;> omega
    have hunit : unitExponent m = e + 1 := by
      show _ = ((@UnpackedFloat.unpackExponent Format.binary64 b).toNat : Int) -
        ((1023 : Nat) + (52 : Nat)) + 1
      rw [hexp, unitExponent, hiddenBit]
      split <;> omega
    have hfinite := Unpacks.finite (s := s') hpos (by omega) (by rw [infinityBits]; omega)
    simpa only [hsig, hunit] using hfinite
  | case5 mant exp e sign s' hmax hzero =>
    have hmax := mt hones.2 hmax
    have hzero := mt hnone.2 hzero
    obtain rfl : s' = s := hsign
    have hpos : 0 < significand m := by rw [significand, hiddenBit]; split <;> omega
    -- The hidden bit stands in front of the others.
    have hsig : significand m = (1#1 ++ mant).toNat := by
      have hor : 2 ^ 52 * 1 + mant.toNat = 2 ^ 52 * 1 ||| mant.toNat :=
        Nat.two_pow_add_eq_or_of_lt mant.isLt 1
      rw [BitVec.toNat_append]
      show _ = 1 <<< 52 ||| mant.toNat
      rw [Nat.one_shiftLeft, ← Nat.mul_one (2 ^ 52), ← hor, hmant, significand, hiddenBit]
      split <;> omega
    have hunit : unitExponent m = e := by
      show _ = ((@UnpackedFloat.unpackExponent Format.binary64 b).toNat : Int) -
        ((1023 : Nat) + (52 : Nat))
      rw [hexp, unitExponent, hiddenBit]
      split <;> omega
    have hfinite := Unpacks.finite (s := s') hpos (by omega) (by rw [infinityBits]; omega)
    simpa only [hsig, hunit] using hfinite

end Unpack

section Compare

variable {s t : Sign} {m k : Nat} {u v : UnpackedFloat}

/-- Exponents and, where these are equal, significands compare as the bits do. -/
theorem compare_unitExponent_then (m k : Nat) :
    (compare (unitExponent m) (unitExponent k)).then
      (compare (significand m) (significand k)) = compare m k := by
  have hless {m k : Nat} (h : m < k) : unitExponent m < unitExponent k ∨
      unitExponent m = unitExponent k ∧ significand m < significand k := by
    unfold unitExponent significand hiddenBit
    split <;> split <;> omega
  rcases Nat.lt_trichotomy m k with h | rfl | h
  · rw [compare_lt_iff_lt.2 h]
    rcases hless h with he | ⟨he, hs⟩
    · rw [compare_lt_iff_lt.2 he]
      rfl
    · rw [he, compare_lt_iff_lt.2 hs, compare_eq_iff_eq.2 rfl]
      rfl
  · simp
  · rw [compare_gt_iff_gt.2 h]
    rcases hless h with he | ⟨he, hs⟩
    · rw [compare_gt_iff_gt.2 he]
      rfl
    · rw [he, compare_gt_iff_gt.2 hs, compare_eq_iff_eq.2 rfl]
      rfl

theorem compare_neg (a b : Int) : compare (-a) (-b) = (compare a b).swap := by
  rcases lt_trichotomy a b with h | rfl | h
  · rw [compare_lt_iff_lt.2 h, compare_gt_iff_gt.2 (by omega)]
    rfl
  · simp
  · rw [compare_gt_iff_gt.2 h, compare_lt_iff_lt.2 (by omega)]
    rfl

theorem compare_cast (a b : Nat) : compare (a : Int) b = compare a b := by
  rcases lt_trichotomy a b with h | rfl | h
  · rw [compare_lt_iff_lt.2 h, compare_lt_iff_lt.2 (by omega)]
  · simp
  · rw [compare_gt_iff_gt.2 h, compare_gt_iff_gt.2 (by omega)]

/-- The sign of the one with the larger bits decides. -/
theorem compare_apply_of_lt (s : Sign) (h : m < k) :
    compare (s.apply m) (t.apply k) =
      match t with
      | .negative => .gt
      | .positive => .lt := by
  cases s <;> cases t <;> simp only [Sign.apply, compare_lt_iff_lt, compare_gt_iff_gt] <;> omega

theorem compare_apply_of_gt (t : Sign) (h : k < m) :
    compare (s.apply m) (t.apply k) =
      match s with
      | .negative => .lt
      | .positive => .gt := by
  cases s <;> cases t <;> simp only [Sign.apply, compare_lt_iff_lt, compare_gt_iff_gt] <;> omega

theorem Unpacks.compare (hu : Unpacks s m u) (hv : Unpacks t k v) (hm : m ≤ infinityBits)
    (hk : k ≤ infinityBits) : u.compare v = some (compare (s.apply m) (t.apply k)) := by
  have hpos : 0 < infinityBits := by decide
  -- Of different kinds the larger bits decide, of finite doubles the exponents and significands.
  cases hu with
  | notANumber h => omega
  | infinity h =>
    cases hv with
    | notANumber h' => omega
    | infinity h' =>
      subst h h'
      cases s <;> cases t <;> decide
    | zero h' =>
      rw [compare_apply_of_gt t (by omega)]
      cases s <;> rfl
    | finite _ hk' hk =>
      rw [compare_apply_of_gt t (by omega)]
      cases s <;> rfl
  | zero h =>
    cases hv with
    | notANumber h' => omega
    | infinity h' =>
      rw [compare_apply_of_lt s (by omega)]
      cases t <;> rfl
    | zero h' =>
      subst h h'
      cases s <;> cases t <;> decide
    | finite _ hk' hk =>
      rw [compare_apply_of_lt s (by omega)]
      cases t <;> rfl
  | finite _ hm' hm =>
    cases hv with
    | notANumber h' => omega
    | infinity h' =>
      rw [compare_apply_of_lt s (by omega)]
      cases t <;> rfl
    | zero h' =>
      rw [compare_apply_of_gt t (by omega)]
      cases s <;> rfl
    | finite _ hk' hk =>
      have hparts := compare_unitExponent_then m k
      cases s with
      | negative =>
        cases t with
        | negative =>
          show some (Ordering.then _ _).swap = some (Ord.compare (-(m : Int)) (-(k : Int)))
          rw [hparts, compare_neg, compare_cast]
        | positive =>
          exact congrArg some (compare_lt_iff_lt.2 (by simp only [Sign.apply]; omega)).symm
      | positive =>
        cases t with
        | negative =>
          exact congrArg some (compare_gt_iff_gt.2 (by simp only [Sign.apply]; omega)).symm
        | positive =>
          show some (Ordering.then _ _) = some (Ord.compare (m : Int) (k : Int))
          rw [hparts, compare_cast]

theorem Unpacks.eq_notANumber (hu : Unpacks s m u) (hm : infinityBits < m) : u = .notANumber := by
  cases hu <;> first | rfl | omega

/-- Doubles compare as their ranks do. -/
theorem compare_unpack (x y : Float) :
    x.toModel.unpack.compare y.toModel.unpack =
      (rank? x).bind fun a => (rank? y).map fun b => compare a b := by
  have hx : Unpacks _ _ x.toModel.unpack := unpacks x.toBits.toBitVec
  have hy : Unpacks _ _ y.toModel.unpack := unpacks y.toBits.toBitVec
  unfold rank? rankOf?
  by_cases hm : infinityBits < x.toBits.toNat % signBit
  · rw [hx.eq_notANumber hm, if_pos hm]
    cases y.toModel.unpack <;> rfl
  · rw [if_neg hm]
    by_cases hk : infinityBits < y.toBits.toNat % signBit
    · rw [hy.eq_notANumber hk, if_pos hk]
      cases x.toModel.unpack <;> rfl
    · rw [if_neg hk]
      exact hx.compare hy (Nat.le_of_not_lt hm) (Nat.le_of_not_lt hk)

/-- Doubles compare as their ranks do, and a NaN compares with nothing. -/
theorem cmpDouble?_eq (x y : Float) :
    Numeric.cmpDouble? x y = (rank? x).bind fun a => (rank? y).map fun b => compare a b := by
  have hlt (x y : Float) : x < y ↔ x.toModel.unpack.compare y.toModel.unpack = some .lt := by
    show decide (x.toModel.unpack.lt y.toModel.unpack = true) = true ↔ _
    rw [decide_eq_true_iff, UnpackedFloat.lt, beq_iff_eq]
  have heq : (x == y) = true ↔ x.toModel.unpack.compare y.toModel.unpack = some .eq := by
    show x.toModel.unpack.beq y.toModel.unpack = true ↔ _
    rw [UnpackedFloat.beq, beq_iff_eq]
  unfold Numeric.cmpDouble?
  simp only [hlt, heq, compare_unpack]
  cases rank? x with
  | none => cases rank? y <;> rfl
  | some a =>
    cases rank? y with
    | none => rfl
    | some b =>
      rcases lt_trichotomy a b with h | rfl | h
      · simp [compare_lt_iff_lt.2 h]
      · simp
      · simp [compare_gt_iff_gt.2 h, compare_lt_iff_lt.2 h]

end Compare

section Round

variable {n k d : Nat}

theorem toBits_ofBits {w : UInt64} (hw : w.toNat % signBit ≤ infinityBits) :
    (Float.ofBits w).toBits = w := by
  -- Packing undoes unpacking, except for a NaN, which may have other bits afterwards.
  have hnan : @UnpackedFloat.isNaNBits Format.binary64 w.toBitVec = false := by
    refine decide_eq_false fun ⟨he, hz⟩ => hz (BitVec.eq_of_toNat_eq ?_)
    have he : w.toNat % signBit / hiddenBit = 2047 :=
      (toNat_unpackExponent w.toBitVec).symm.trans (congrArg BitVec.toNat he)
    rw [toNat_unpackMantissa]
    show w.toNat % signBit % hiddenBit = 0
    simp only [infinityBits, hiddenBit] at hw he ⊢
    omega
  apply UInt64.toBitVec_inj.1
  show UnpackedFloat.pack Format.binary64 (UnpackedFloat.unpack Format.binary64 w.toBitVec) = _
  rw [UnpackedFloat.pack_unpack, hnan]
  rfl

/-- The bits of a double that is no NaN are its rank. -/
theorem rank?_signed (minus : Bool) (h : n ≤ infinityBits) :
    rank? (signed minus n) = some (if minus then -(n : Int) else n) := by
  have hlt : infinityBits < signBit := by decide
  have hsize : (if minus then signBit + n else n) < 2 ^ 64 := by
    simp only [infinityBits, signBit] at h ⊢
    split <;> omega
  have hnat : (UInt64.ofNat (if minus then signBit + n else n)).toNat =
      if minus then signBit + n else n := UInt64.toNat_ofNat_of_lt hsize
  have hmod : (if minus then signBit + n else n) % signBit = n := by
    cases minus
    · exact Nat.mod_eq_of_lt (Nat.lt_of_le_of_lt h hlt)
    · exact (Nat.add_mod_left ..).trans (Nat.mod_eq_of_lt (Nat.lt_of_le_of_lt h hlt))
  rw [rank?, signed, toBits_ofBits (by rw [hnat, hmod]; exact h), hnat, rankOf?, hmod,
    if_neg (Nat.not_lt.2 h), signOf]
  cases minus
  · rw [if_neg (by simp; omega)]
    rfl
  · rw [if_pos (by simp)]
    rfl

theorem roundHalfEven_mono (d : Nat) (h : n ≤ k) : roundHalfEven n d ≤ roundHalfEven k d := by
  unfold roundHalfEven
  have hquot : n / d ≤ k / d := Nat.div_le_div_right h
  have hn := Nat.div_add_mod n d
  have hk := Nat.div_add_mod k d
  -- Rounding adds at most one, which a larger quotient makes up for.
  rcases Nat.eq_or_lt_of_le hquot with he | hl
  · rw [he] at hn ⊢
    have hrest : n % d ≤ k % d := by omega
    dsimp only
    split <;> split <;> omega
  · dsimp only
    split <;> split <;> omega

/-- The significand that an integer is rounded to, between two powers of two. -/
def rounded (n : Nat) : Nat :=
  if 52 ≤ n.log2 then roundHalfEven n (2 ^ (n.log2 - 52)) else n * 2 ^ (52 - n.log2)

theorem rounded_bounds (h : 0 < n) : hiddenBit ≤ rounded n ∧ rounded n ≤ 2 * hiddenBit := by
  have hlow : 2 ^ n.log2 ≤ n := Nat.log2_self_le (Nat.ne_of_gt h)
  have hhigh : n < 2 ^ (n.log2 + 1) := Nat.lt_log2_self
  have hhidden : hiddenBit = 2 ^ 52 := rfl
  rw [hhidden, rounded]
  split
  · have hpos : 0 < 2 ^ (n.log2 - 52) := Nat.two_pow_pos _
    have hlow : 2 ^ 52 ≤ n / 2 ^ (n.log2 - 52) := by
      rw [Nat.le_div_iff_mul_le hpos, ← Nat.pow_add]
      rwa [Nat.add_sub_cancel' (by omega)]
    have hhigh : n / 2 ^ (n.log2 - 52) < 2 ^ 53 := by
      rw [Nat.div_lt_iff_lt_mul hpos, ← Nat.pow_add]
      rwa [show 53 + (n.log2 - 52) = n.log2 + 1 by omega]
    unfold roundHalfEven
    dsimp only
    split <;> omega
  · have hlow : 2 ^ 52 ≤ n * 2 ^ (52 - n.log2) := by
      have hmul := Nat.mul_le_mul_right (2 ^ (52 - n.log2)) hlow
      rwa [← Nat.pow_add, Nat.add_sub_cancel' (by omega)] at hmul
    have hhigh : n * 2 ^ (52 - n.log2) ≤ 2 ^ 53 := by
      have hmul := Nat.mul_le_mul_right (2 ^ (52 - n.log2)) (Nat.le_of_lt hhigh)
      rwa [← Nat.pow_add, show n.log2 + 1 + (52 - n.log2) = 53 by omega] at hmul
    omega

theorem nearestBits_one (h : 0 < n) :
    nearestBits n 1 = min ((n.log2 + 1022) * hiddenBit + rounded n) infinityBits := by
  have hlow : 2 ^ n.log2 ≤ n := Nat.log2_self_le (Nat.ne_of_gt h)
  have hexp : binaryExponent n 1 = (n.log2 : Int) - 52 := by
    have hone : Nat.log2 1 = 0 := by decide
    unfold binaryExponent
    simp only [hone, Int.natCast_zero, Int.sub_zero, Int.natCast_nonneg, if_true, Int.toNat_natCast,
      Nat.one_mul, Nat.pow_eq, hlow, decide_true]
    omega
  have hone (m : Nat) : roundHalfEven m 1 = m := by
    unfold roundHalfEven
    simp [Nat.mod_one]
  unfold nearestBits
  rw [if_neg (Nat.ne_of_gt h), hexp, rounded]
  dsimp only
  have hexp : ((n.log2 : Int) - 52 + 1074).toNat = n.log2 + 1022 := by omega
  rw [hexp]
  by_cases hl : 52 ≤ n.log2
  · have htoNat : ((n.log2 : Int) - 52).toNat = n.log2 - 52 := by omega
    rw [if_pos (by omega), if_pos hl, htoNat, Nat.one_mul]
    rfl
  · have htoNat : (-((n.log2 : Int) - 52)).toNat = 52 - n.log2 := by omega
    rw [if_neg (by omega), if_neg hl, htoNat, hone]
    rfl

theorem nearestBits_mono (h : n ≤ k) : nearestBits n 1 ≤ nearestBits k 1 := by
  rcases Nat.eq_zero_or_pos n with rfl | hn
  · exact Nat.zero_le _
  have hk : 0 < k := Nat.lt_of_lt_of_le hn h
  have hlog : n.log2 ≤ k.log2 := by
    rw [Nat.le_log2 (Nat.ne_of_gt hk)]
    exact Nat.le_trans (Nat.log2_self_le (Nat.ne_of_gt hn)) h
  have hparts : (n.log2 + 1022) * hiddenBit + rounded n ≤
      (k.log2 + 1022) * hiddenBit + rounded k := by
    obtain ⟨-, hhigh⟩ := rounded_bounds hn
    obtain ⟨hlow, -⟩ := rounded_bounds hk
    -- A larger exponent adds as much as the significands can differ by.
    rcases Nat.eq_or_lt_of_le hlog with he | hl
    · have hround : rounded n ≤ rounded k := by
        unfold rounded
        rw [he]
        split
        · exact roundHalfEven_mono _ h
        · exact Nat.mul_le_mul_right _ h
      rw [he]
      exact Nat.add_le_add_left hround _
    · have hnext : n.log2 + 1022 + 1 ≤ k.log2 + 1022 := by omega
      have hstep := Nat.mul_le_mul_right hiddenBit hnext
      rw [Nat.add_mul _ 1, Nat.one_mul] at hstep
      omega
  rw [nearestBits_one hn, nearestBits_one hk]
  omega

theorem nearestBits_le (n d : Nat) : nearestBits n d ≤ infinityBits := by
  unfold nearestBits
  split
  · exact Nat.zero_le _
  · exact Nat.min_le_right ..

/-- Integers in order are rounded to doubles in order. -/
theorem rank?_ofInt_mono {a b : Int} (h : a ≤ b) :
    ∃ r s, rank? (ofInt a) = some r ∧ rank? (ofInt b) = some s ∧ r ≤ s := by
  refine ⟨_, _, rank?_signed _ (nearestBits_le ..), rank?_signed _ (nearestBits_le ..), ?_⟩
  simp only [decide_eq_true_eq]
  split <;> split
  · have := nearestBits_mono (n := b.natAbs) (k := a.natAbs) (by omega)
    omega
  · omega
  · omega
  · have := nearestBits_mono (n := a.natAbs) (k := b.natAbs) (by omega)
    omega

end Round

end SparqlAlgebra.Number
