import SparqlAlgebra.Number.Double

/-!
Doubles written with the fewest digits that read back to the same value, always positionally.
-/

namespace SparqlAlgebra.Number

/-- A positive ratio of naturals. -/
structure Ratio where
  num : Nat
  den : Nat

/-- `n · 2^e`. -/
def Ratio.binary (n : Nat) (e : Int) : Ratio :=
  if 0 ≤ e then ⟨n * Nat.pow 2 e.toNat, 1⟩ else ⟨n, Nat.pow 2 (-e).toNat⟩

/-- `n · 10^e`. -/
def Ratio.decimal (n : Nat) (e : Int) : Ratio :=
  if 0 ≤ e then ⟨n * Nat.pow 10 e.toNat, 1⟩ else ⟨n, Nat.pow 10 (-e).toNat⟩

def Ratio.cmp (a b : Ratio) : Ordering := compare (a.num * b.den) (b.num * a.den)

/-- The reals that round to a given double: a lower and an upper end, and whether they belong. -/
structure Interval where
  lower : Ratio
  upper : Ratio
  closed : Bool

def Interval.contains (i : Interval) (r : Ratio) : Bool :=
  match i.lower.cmp r, r.cmp i.upper with
  | .lt, .lt => true
  | .eq, .lt | .lt, .eq | .eq, .eq => i.closed
  | _, _ => false

/-- What rounds to `m · 2^q`: half a unit either way, a quarter below a power of two; the ends
belong when `m` is even. -/
def Interval.ofDouble (m : Nat) (q : Int) : Interval where
  lower := .binary (if m = hiddenBit ∧ -1074 < q then 4 * m - 1 else 4 * m - 2) (q - 2)
  upper := .binary (4 * m + 2) (q - 2)
  closed := m % 2 = 0

/-- How many digits stand before the point of `r`; not positive when `r` is below one and zeros
follow the point. -/
def Ratio.magnitude (r : Ratio) : Int :=
  if r.den ≤ r.num then (Nat.toDigits 10 (r.num / r.den)).length
  else
    let t := r.den / r.num
    let j := (Nat.toDigits 10 t).length
    if r.den = r.num * Nat.pow 10 (j - 1) then 2 - (j : Int) else 1 - (j : Int)

/-- The multiple of `10^p` in the interval that is nearest to `r`, the upper one at a tie. -/
def onGrid (i : Interval) (r : Ratio) (p : Int) : Option Nat :=
  let (n, d) := if 0 ≤ p then (r.num, r.den * Nat.pow 10 p.toNat)
    else (r.num * Nat.pow 10 (-p).toNat, r.den)
  let low := n / d
  let lowIn := 0 < low && i.contains (.decimal low p)
  let highIn := i.contains (.decimal (low + 1) p)
  if lowIn && (!highIn || decide (2 * (n % d) < d)) then some low
  else if highIn then some (low + 1)
  else none

/-- Seventeen digits tell any two doubles apart. -/
def maxDigits : Nat := 17

/-- The shortest decimal `c · 10^p` that rounds to `m · 2^q`, nearest to it among those. -/
def shortest (m : Nat) (q : Int) : Nat × Int :=
  let r := Ratio.binary m q
  let i := Interval.ofDouble m q
  let found := (List.range maxDigits).findSome? fun (k : Nat) =>
    let p := r.magnitude - (k + 1)
    (onGrid i r p).map (·, p)
  found.getD (0, 0)

def zeros (n : Nat) : List Char := List.replicate n '0'

/-- `c · 10^p` without exponent, and without a point when it is whole. -/
def positional (c : Nat) (p : Int) : List Char :=
  let ds := Nat.toDigits 10 c
  if 0 ≤ p then ds ++ zeros p.toNat
  else
    let k := (-p).toNat
    let ds := zeros (k + 1 - ds.length) ++ ds
    let frac := ((ds.drop (ds.length - k)).reverse.dropWhile (· == '0')).reverse
    ds.take (ds.length - k) ++ if frac.isEmpty then [] else '.' :: frac

/-- The shortest text of a double: `NaN`, `inf`, `-inf`, or positional digits. -/
def doubleText (x : Float) : String :=
  let bits := x.toBits.toNat
  let minus := signBit ≤ bits
  let e : Nat := bits / hiddenBit % 0x800
  let f : Nat := bits % hiddenBit
  if e = 0x7ff ∧ f ≠ 0 then "NaN" else
    let magnitude :=
      if e = 0x7ff then "inf".toList
      else if e = 0 ∧ f = 0 then ['0']
      else
        let (c, p) := if e = 0 then shortest f (-1074) else shortest (hiddenBit + f) (e - 1075)
        positional c p
    String.ofList (if minus then '-' :: magnitude else magnitude)

end SparqlAlgebra.Number
