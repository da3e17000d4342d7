/-!
Texts: white space at their ends, escapes for what is quoted, and the decimal integers that they
write, 64-bit ones among them.
-/

namespace SparqlAlgebra

namespace Text

/-- The characters with the Unicode property White_Space. -/
def blanks : List Char :=
  ['\t', '\n', '\x0b', '\x0c', '\r', ' ', '\x85', '\u00a0', '\u1680', '\u2000', '\u2001', '\u2002',
    '\u2003', '\u2004', '\u2005', '\u2006', '\u2007', '\u2008', '\u2009', '\u200a', '\u2028',
    '\u2029', '\u202f', '\u205f', '\u3000']

def isBlank (c : Char) : Bool := blanks.contains c

def trimRight (s : List Char) : List Char := (s.reverse.dropWhile isBlank).reverse

def trim (s : List Char) : List Char := trimRight (s.dropWhile isBlank)

/-- A number in lower-case hexadecimal, without leading zeros. -/
def hex (n : Nat) : List Char := Nat.toDigits 16 n

/-- The escaped form of one character: a short escape, itself, or its code point in hexadecimal. -/
def escapeChar (c : Char) : List Char :=
  if c = '\t' then ['\\', 't']
  else if c = '\r' then ['\\', 'r']
  else if c = '\n' then ['\\', 'n']
  else if c = '\'' ∨ c = '"' ∨ c = '\\' then ['\\', c]
  else if 0x20 ≤ c.toNat ∧ c.toNat ≤ 0x7e then [c]
  else ['\\', 'u', '\x7b'] ++ hex c.toNat ++ ['\x7d']

def escape (s : String) : String := String.ofList (s.toList.flatMap escapeChar)

end Text

namespace Number

def digitValue (c : Char) : Nat := c.toNat - '0'.toNat

def hexValue? (c : Char) : Option Nat :=
  if c.isDigit then some (digitValue c)
  else if 'a' ≤ c ∧ c ≤ 'f' then some (c.toNat - 'a'.toNat + 10)
  else if 'A' ≤ c ∧ c ≤ 'F' then some (c.toNat - 'A'.toNat + 10)
  else none

def pushDigits (n : Nat) (ds : List Char) : Nat := ds.foldl (fun n c => 10 * n + digitValue c) n

/-- The number that a non-empty run of ASCII digits writes. -/
def readNat (s : List Char) : Option Nat :=
  if s ≠ [] ∧ s.all Char.isDigit then some (pushDigits 0 s) else none

/-- Takes one leading sign off a text; `true` means minus. -/
def splitSign : List Char → Bool × List Char
  | '-' :: s => (true, s)
  | '+' :: s => (false, s)
  | s => (false, s)

/-- The integer that an optional sign and digits write. -/
def readInt (s : List Char) : Option Int :=
  let (minus, ds) := splitSign s
  (readNat ds).map fun n => if minus then -(n : Int) else n

def toInt64? (n : Int) : Option Int64 :=
  if Int64.minValue.toInt ≤ n ∧ n ≤ Int64.maxValue.toInt then some (Int64.ofInt n) else none

/-- The 64-bit integer that a text writes; none out of range. -/
def readInt64 (s : List Char) : Option Int64 := (readInt s).bind toInt64?

def natText (n : Nat) : String := String.ofList (Nat.toDigits 10 n)

def intText : Int → String
  | .ofNat n => natText n
  | .negSucc n => "-" ++ natText (n + 1)

/-- The value of an integer in range is the integer itself. -/
theorem toInt64?_eq_some_iff {n : Int} {v : Int64} : toInt64? n = some v ↔ v.toInt = n := by
  unfold toInt64?
  constructor
  · intro h
    split at h
    · rename_i hn
      cases h
      exact Int64.toInt_ofInt_of_le hn.1 (Int.lt_add_one_of_le hn.2)
    · cases h
  · rintro rfl
    rw [if_pos ⟨v.le_toInt, Int.le_of_lt_add_one v.toInt_lt⟩, Int64.ofInt_toInt]

end Number

end SparqlAlgebra
