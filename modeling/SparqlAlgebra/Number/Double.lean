import SparqlAlgebra.Text.Basic

/-!
Doubles: the one nearest to a ratio of naturals, by exact arithmetic on its bits, and the one that a
decimal text writes, which has digits with an optional point and exponent or is the name of an
infinity or of NaN.
-/

namespace SparqlAlgebra.Number

/-- The natural nearest to `n / d`; a half goes to the even neighbour. -/
def roundHalfEven (n d : Nat) : Nat :=
  let m := n / d
  let r := n % d
  if 2 * r > d ∨ (2 * r = d ∧ m % 2 = 1) then m + 1 else m

def infinityBits : Nat := 0x7ff0000000000000

def signBit : Nat := 0x8000000000000000

/-- `2^52`: the leading bit of a significand, which its double does not hold, and the least
exponent bit. -/
def hiddenBit : Nat := 0x10000000000000

/-- The exponent `q` for which `num / den` lies in `2^52 · 2^q ..< 2^53 · 2^q`, but no less than
that of the subnormal doubles. -/
def binaryExponent (num den : Nat) : Int :=
  let e : Int := num.log2 - den.log2
  let atLeast := if 0 ≤ e then decide (den * Nat.pow 2 e.toNat ≤ num)
    else decide (den ≤ num * Nat.pow 2 (-e).toNat)
  max ((if atLeast then e else e - 1) - 52) (-1074)

/-- The bits of the double nearest to `num / den`; a half goes to the even neighbour. -/
def nearestBits (num den : Nat) : Nat :=
  if num = 0 then 0 else
    let q := binaryExponent num den
    let m := if 0 ≤ q then roundHalfEven num (den * Nat.pow 2 q.toNat)
      else roundHalfEven (num * Nat.pow 2 (-q).toNat) den
    min ((q + 1074).toNat * hiddenBit + m) infinityBits

/-- The double with the given sign and magnitude bits. -/
def signed (minus : Bool) (bits : Nat) : Float :=
  .ofBits (.ofNat (if minus then signBit + bits else bits))

/-- The double nearest to an integer. -/
def ofInt (n : Int) : Float := signed (n < 0) (nearestBits n.natAbs 1)

/-- Exponents beyond this one leave the range of doubles whatever the digits are worth. -/
def exponentLimit : Int := 400

def ofDecimal (minus : Bool) (m : Nat) (e : Int) : Float :=
  let size : Int := (Nat.toDigits 10 m).length
  signed minus <|
    if m = 0 ∨ size + e < -exponentLimit then 0
    else if exponentLimit < size + e then infinityBits
    else if 0 ≤ e then nearestBits (m * Nat.pow 10 e.toNat) 1
    else nearestBits m (Nat.pow 10 (-e).toNat)

/-- The exponent after `e`: nothing is zero, otherwise an optional sign and digits. -/
def readExponent : List Char → Option Int
  | [] => some 0
  | c :: s => if c = 'e' ∨ c = 'E' then readInt s else none

/-- Digits, an optional point with digits, at least one digit in all, and an optional exponent;
gives the digits as a number and the power of ten they are scaled by. -/
def readScientific (s : List Char) : Option (Nat × Int) :=
  let whole := s.takeWhile Char.isDigit
  let rest := s.dropWhile Char.isDigit
  let (frac, rest) := match rest with
    | '.' :: r => (r.takeWhile Char.isDigit, r.dropWhile Char.isDigit)
    | r => ([], r)
  if whole.isEmpty && frac.isEmpty then none
  else (readExponent rest).map fun e => (pushDigits 0 (whole ++ frac), e - frac.length)

/-- The double that a text writes, rounded to nearest; letters may have either case. -/
def readDouble (s : List Char) : Option Float :=
  let (minus, s) := splitSign s
  let word := s.map Char.toLower
  if word = "inf".toList ∨ word = "infinity".toList then some (signed minus infinityBits)
  else if word = "nan".toList then some (0.0 / 0.0)
  else (readScientific s).map fun (m, e) => ofDecimal minus m e

end SparqlAlgebra.Number
