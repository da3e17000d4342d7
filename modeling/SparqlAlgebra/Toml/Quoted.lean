import SparqlAlgebra.Text.Basic

/-!
TOML texts in quotes, on one line or several, with or without escapes.
-/

namespace SparqlAlgebra.Toml

/-- Whether a character may stand in a comment, and in quotes unless it has a meaning there. -/
def isPlain (c : Char) : Bool := c == '\t' || (0x20 ≤ c.toNat && c.toNat != 0x7f)

/-- Drops blanks in front; a line break is none. -/
def skipBlank (s : List Char) : List Char := s.dropWhile fun c => c == ' ' || c == '\t'

def skipBreak : List Char → Option (List Char)
  | '\n' :: s => some s
  | '\r' :: '\n' :: s => some s
  | _ => none

def skipBreaks : List Char → List Char
  | ' ' :: s => skipBreaks s
  | '\t' :: s => skipBreaks s
  | '\n' :: s => skipBreaks s
  | '\r' :: '\n' :: s => skipBreaks s
  | s => s

/-- A number of hexadecimal digits, continuing `acc`. -/
def readHex : (digits acc : Nat) → List Char → Option (Nat × List Char)
  | 0, acc, s => some (acc, s)
  | n + 1, acc, c :: s => do readHex n (acc * 16 + (← Number.hexValue? c)) s
  | _ + 1, _, [] => none

/-- The character with a code point, surrogates excluded. -/
def scalarChar? (n : Nat) : Option Char :=
  if h : n.isValidChar then some (Char.ofNatAux n h) else none

/-- The character of an escape after its backslash. -/
def readEscape : List Char → Option (Char × List Char)
  | 'b' :: s => some ('\x08', s)
  | 'f' :: s => some ('\x0c', s)
  | 'n' :: s => some ('\n', s)
  | 'r' :: s => some ('\r', s)
  | 't' :: s => some ('\t', s)
  | '"' :: s => some ('"', s)
  | '\\' :: s => some ('\\', s)
  | 'u' :: s => do
    let (n, s) ← readHex 4 0 s
    return (← scalarChar? n, s)
  | 'U' :: s => do
    let (n, s) ← readHex 8 0 s
    return (← scalarChar? n, s)
  | _ => none

/-- Between double quotes on one line; `acc` holds what was read, last character first. -/
def readBasic : (fuel : Nat) → List Char → List Char → Option (String × List Char)
  | _, acc, '"' :: s => some (String.ofList acc.reverse, s)
  | n + 1, acc, '\\' :: s => do
    let (c, s) ← readEscape s
    readBasic n (c :: acc) s
  | n + 1, acc, c :: s => if isPlain c then readBasic n (c :: acc) s else none
  | _, _, _ => none

def readVerbatim (s : List Char) : Option (String × List Char) :=
  let text := s.takeWhile fun c => c != '\'' && isPlain c
  match s.drop text.length with
  | '\'' :: rest => some (String.ofList text, rest)
  | _ => none

/-- A run of quotes inside a text of several lines: fewer than three are text, and three end it,
with up to two more before them as text. -/
def closeRun (quote : Char) (s : List Char) : Option (Nat × Bool × List Char) :=
  let n := (s.takeWhile (· == quote)).length
  if n < 3 then some (n, false, s.drop n)
  else if n ≤ 5 then some (n - 3, true, s.drop n)
  else none

/-- Between triple quotes, with escapes or without. A backslash at the end of a line takes the line
break and the blanks after it away. -/
def readLines (quote : Char) (escapes : Bool) : (fuel : Nat) → List Char → List Char →
    Option (String × List Char)
  | 0, _, _ => none
  | n + 1, acc, s => do
    let (run, closed, rest) ← closeRun quote s
    let acc := List.replicate run quote ++ acc
    if closed then return (String.ofList acc.reverse, rest)
    match rest with
    | [] => none
    | c :: tail =>
      if c == '\\' && escapes then
        match skipBreak (skipBlank tail) with
        | some tail => readLines quote escapes n acc (skipBreaks tail)
        | none =>
          let (e, tail) ← readEscape tail
          readLines quote escapes n (e :: acc) tail
      else
        match skipBreak rest with
        | some tail => readLines quote escapes n ('\n' :: acc) tail
        | none => if isPlain c then readLines quote escapes n (c :: acc) tail else none

/-- A text of several lines after its opening quotes; a line break right there is left out. -/
def readBlock (quote : Char) (escapes : Bool) (s : List Char) : Option (String × List Char) :=
  let s := (skipBreak s).getD s
  readLines quote escapes (s.length + 1) [] s

end SparqlAlgebra.Toml
