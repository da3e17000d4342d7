import SparqlAlgebra.Number.Double
import SparqlAlgebra.Toml.Table

/-!
TOML scalars that stand without quotes: booleans, integers, floats, dates and times.
-/

namespace SparqlAlgebra.Toml

/-- Digits that single underscores may part. -/
def ungroup (digit : Char → Bool) : List Char → Option (List Char)
  | [] => none
  | [c] => if digit c then some [c] else none
  | c :: '_' :: rest => if digit c then (ungroup digit rest).map (c :: ·) else none
  | c :: rest => if digit c then (ungroup digit rest).map (c :: ·) else none

/-- The same, without a zero in front of other digits. -/
def ungroupWhole (s : List Char) : Option (List Char) :=
  if s.head? == some '0' && 1 < s.length then none else ungroup Char.isDigit s

/-- An integer in base 16, 8 or 2, after its mark. -/
def readBased (base : Nat) (s : List Char) : Option Int := do
  let ds ← ungroup (fun c => (Number.hexValue? c).any (· < base)) s
  return ds.foldl (fun n c => n * base + (Number.hexValue? c).getD 0) 0

def integer? (s : List Char) : Option Int64 := do
  let n ← match s with
    | '0' :: 'x' :: ds => readBased 16 ds
    | '0' :: 'o' :: ds => readBased 8 ds
    | '0' :: 'b' :: ds => readBased 2 ds
    | _ =>
      let (minus, ds) := Number.splitSign s
      (ungroupWhole ds).map fun ds =>
        if minus then -(Number.pushDigits 0 ds : Int) else Number.pushDigits 0 ds
  Number.toInt64? n

def inRun (c : Char) : Bool := c.isDigit || c == '_'

/-- The exponent of a float with its letter, underscores left out. -/
def exponent? : List Char → Option (List Char)
  | c :: s =>
    if c = 'e' ∨ c = 'E' then
      let (minus, ds) := Number.splitSign s
      (ungroup Char.isDigit ds).map fun ds => 'e' :: if minus then '-' :: ds else ds
    else none
  | [] => none

/-- A float after its sign, underscores left out: a whole part, and a fraction or an exponent or
both. -/
def floatDigits? (s : List Char) : Option (List Char) := do
  let whole ← ungroupWhole (s.takeWhile inRun)
  match s.dropWhile inRun with
  | '.' :: rest =>
    let frac ← ungroup Char.isDigit (rest.takeWhile inRun)
    match rest.dropWhile inRun with
    | [] => return whole ++ '.' :: frac
    | rest => return whole ++ '.' :: frac ++ (← exponent? rest)
  | rest => return whole ++ (← exponent? rest)

/-- A float; one too large for a double is none, infinity has a name of its own. -/
def float? (s : List Char) : Option String :=
  let (minus, rest) := Number.splitSign s
  if rest = "inf".toList ∨ rest = "nan".toList then some (String.ofList s)
  else do
    let ds ← floatDigits? rest
    let ds := if minus then '-' :: ds else ds
    let x ← Number.readDouble ds
    if x.isInf && !minus then none else some (String.ofList ds)

/-- The number that two digits write, and what follows them. -/
def twoDigits : List Char → Option (Nat × List Char)
  | a :: b :: rest =>
    if a.isDigit && b.isDigit then some (Number.pushDigits 0 [a, b], rest) else none
  | _ => none

def daysIn (year month : Nat) : Nat :=
  if month = 2 then if year % 4 = 0 ∧ (year % 100 ≠ 0 ∨ year % 400 = 0) then 29 else 28
  else if month ∈ [4, 6, 9, 11] then 30
  else 31

def skipDate (s : List Char) : Option (List Char) := do
  let (century, s) ← twoDigits s
  let (year, s) ← twoDigits s
  let '-' :: s := s | none
  let (month, s) ← twoDigits s
  let '-' :: s := s | none
  let (day, s) ← twoDigits s
  if 1 ≤ month ∧ month ≤ 12 ∧ 1 ≤ day ∧ day ≤ daysIn (century * 100 + year) month then some s
  else none

/-- What follows a time of day; a second may be a leap second. -/
def skipTime (s : List Char) : Option (List Char) := do
  let (hour, s) ← twoDigits s
  let ':' :: s := s | none
  let (minute, s) ← twoDigits s
  let ':' :: s := s | none
  let (second, s) ← twoDigits s
  if hour < 24 ∧ minute < 60 ∧ second ≤ 60 then
    match s with
    | '.' :: c :: s => if c.isDigit then some (s.dropWhile Char.isDigit) else none
    | '.' :: _ => none
    | s => some s
  else none

/-- Whether a text is an offset from universal time, or nothing. -/
def isOffset : List Char → Bool
  | [] => true
  | ['Z'] => true
  | ['z'] => true
  | c :: s =>
    (c == '+' || c == '-') && match twoDigits s with
      | some (hour, ':' :: s) =>
        match twoDigits s with
        | some (minute, []) => hour < 24 && minute < 60
        | _ => false
      | _ => false

/-- Whether a text is a time of day with an optional offset. -/
def isZonedTime (s : List Char) : Bool := (skipTime s).any isOffset

/-- Whether a text is a date, a date with a time, or a time. -/
def isMoment (s : List Char) : Bool :=
  match skipDate s with
  | some [] => true
  | some (c :: rest) => (c == 'T' || c == 't' || c == ' ') && isZonedTime rest
  | none => skipTime s == some []

def scalar? (s : List Char) : Option Value :=
  if s = "true".toList then some (.bool true)
  else if s = "false".toList then some (.bool false)
  else if isMoment s then some (.moment (String.ofList s))
  else
    match integer? s with
    | some n => some (.int n)
    | none => (float? s).map .float

def endsScalar (c : Char) : Bool := c ∈ [' ', '\t', '\n', '\r', '#', ',', ']', '\x7d']

/-- A scalar and what follows it. One blank may stand between a date and a time. -/
def readScalar (s : List Char) : Option (Value × List Char) :=
  let first := s.takeWhile (!endsScalar ·)
  let rest := s.dropWhile (!endsScalar ·)
  let second := match rest with
    | ' ' :: r => if skipDate first == some [] then r.takeWhile (!endsScalar ·) else []
    | _ => []
  if second.isEmpty then (scalar? first).map (·, rest)
  else (scalar? (first ++ ' ' :: second)).map (·, rest.drop (second.length + 1))

end SparqlAlgebra.Toml
