import SparqlAlgebra.Json.Value
import SparqlAlgebra.Number.Double

/-!
Reading JSON text. Every reader takes the text that is left and gives back what follows the part it
has read.
-/

namespace SparqlAlgebra.Json

def isSpace (c : Char) : Bool := c == ' ' || c == '\t' || c == '\n' || c == '\r'

def skipSpace (s : List Char) : List Char := s.dropWhile isSpace

/-- The code unit that four hexadecimal digits name. -/
def codeUnit? (a b c d : Char) : Option Nat := do
  let a ← Number.hexValue? a
  let b ← Number.hexValue? b
  let c ← Number.hexValue? c
  let d ← Number.hexValue? d
  return ((a * 16 + b) * 16 + c) * 16 + d

/-- Whether a code unit is the first of a surrogate pair. -/
def isHigh (unit : Nat) : Bool := 0xd800 ≤ unit && unit < 0xdc00

/-- Whether a code unit is the second of a surrogate pair. -/
def isLow (unit : Nat) : Bool := 0xdc00 ≤ unit && unit < 0xe000

/-- The character that an escape of one letter stands for. -/
def shortEscape? : Char → Option Char
  | '"' => some '"'
  | '\\' => some '\\'
  | '/' => some '/'
  | 'b' => some '\x08'
  | 'f' => some '\x0c'
  | 'n' => some '\n'
  | 'r' => some '\r'
  | 't' => some '\t'
  | _ => none

def joinSurrogates (high low : Nat) : Nat := 0x10000 + (high - 0xd800) * 0x400 + (low - 0xdc00)

/-- What was read of a string: its characters, last character first, and a first half of a
surrogate pair that waits for the second. -/
structure Spelled where
  chars : List Char := []
  high : Option Nat := none

namespace Spelled

/-- A character more; it cannot follow half a pair. -/
def char (c : Char) (s : Spelled) : Option Spelled :=
  if s.high.isSome then none else some { chars := c :: s.chars }

/-- A code unit more. Half a pair gives no character. -/
def unit (n : Nat) (s : Spelled) : Option Spelled :=
  match s.high with
  | some high =>
    if isLow n then some { chars := .ofNat (joinSurrogates high n) :: s.chars } else none
  | none =>
    if isHigh n then some { s with high := some n }
    else if isLow n then none
    else some { chars := .ofNat n :: s.chars }

def text? (s : Spelled) : Option String :=
  if s.high.isSome then none else some (String.ofList s.chars.reverse)

end Spelled

/-- The rest of a string after its opening quote; `acc` holds what was read, or nothing once half a
surrogate pair was met alone. -/
def readString (acc : Option Spelled) : List Char → Option (Option String × List Char)
  | '"' :: rest => some (acc.bind Spelled.text?, rest)
  | '\\' :: 'u' :: a :: b :: c :: d :: rest => do
    let n ← codeUnit? a b c d
    readString (acc.bind (·.unit n)) rest
  | '\\' :: c :: rest => do
    let c ← shortEscape? c
    readString (acc.bind (·.char c)) rest
  | c :: rest =>
    if c.toNat < 0x20 ∨ c = '\\' then none else readString (acc.bind (·.char c)) rest
  | [] => none

def readDigits (s : List Char) : Option (List Char × List Char) :=
  match s.takeWhile Char.isDigit with
  | [] => none
  | ds => some (ds, s.dropWhile Char.isDigit)

/-- The fraction of a number, point included; nothing without a point. -/
def readFraction : List Char → Option (List Char × List Char)
  | '.' :: s => (readDigits s).map fun (ds, rest) => ('.' :: ds, rest)
  | s => some ([], s)

/-- The exponent of a number, letter included; nothing without one. -/
def readExponent : List Char → Option (List Char × List Char)
  | c :: s =>
    if c = 'e' ∨ c = 'E' then
      match s with
      | '+' :: r => (readDigits r).map fun (ds, rest) => (c :: ds, rest)
      | '-' :: r => (readDigits r).map fun (ds, rest) => (c :: '-' :: ds, rest)
      | r => (readDigits r).map fun (ds, rest) => (c :: ds, rest)
    else some ([], c :: s)
  | [] => some ([], [])

/-- A number within the doubles; only a negative zero or one with a fraction or an exponent is not
an integer. -/
def number (minus : Bool) (whole frac expo : List Char) : Json :=
  let lexeme := (if minus then ['-'] else []) ++ whole ++ frac ++ expo
  if (Number.readDouble lexeme).all Float.isInf then unusable
  else if frac.isEmpty && expo.isEmpty && !(minus && whole == ['0']) then
    let n : Int := Number.pushDigits 0 whole
    int (if minus then -n else n)
  else real (String.ofList lexeme)

/-- A number after its sign; no zero stands in front of other digits. -/
def readNumber (minus : Bool) (s : List Char) : Option (Json × List Char) := do
  let (whole, rest) ← readDigits s
  if whole.head? == some '0' && 1 < whole.length then none
  let (frac, rest) ← readFraction rest
  let (expo, rest) ← readExponent rest
  return (number minus whole frac expo, rest)

/-- A container, usable only while levels of nesting are left. -/
def container (depth : Nat) (j : Json) : Json := if depth = 0 then unusable else j

/-- An object; a name that is no text spoils it. -/
def ofFields (fields : List (Option String × Json)) : Json :=
  match fields.mapM fun f => f.1.map (·, f.2) with
  | some fields => obj fields
  | none => unusable

mutual

/-- A value with white space in front. `depth` is how many more levels may be entered; `fuel` is
the length of the text, of which every call takes something. -/
def readValue : (fuel depth : Nat) → List Char → Option (Json × List Char)
  | 0, _, _ => none
  | fuel + 1, depth, s =>
    match skipSpace s with
    | '\x7b' :: rest =>
      match skipSpace rest with
      | '\x7d' :: rest => some (container depth (obj []), rest)
      | rest => (readFields fuel (depth - 1) rest).map fun (fs, r) => (container depth (ofFields fs), r)
    | '[' :: rest =>
      match skipSpace rest with
      | ']' :: rest => some (container depth (arr []), rest)
      | rest => (readItems fuel (depth - 1) rest).map fun (js, r) => (container depth (arr js), r)
    | '"' :: rest =>
      (readString (some {}) rest).map fun (s, r) => ((s.map str).getD unusable, r)
    | '-' :: rest => readNumber true rest
    | 't' :: 'r' :: 'u' :: 'e' :: rest => some (bool true, rest)
    | 'f' :: 'a' :: 'l' :: 's' :: 'e' :: rest => some (bool false, rest)
    | 'n' :: 'u' :: 'l' :: 'l' :: rest => some (null, rest)
    | rest => readNumber false rest

def readItems : (fuel depth : Nat) → List Char → Option (List Json × List Char)
  | 0, _, _ => none
  | fuel + 1, depth, s => do
    let (j, rest) ← readValue fuel depth s
    match skipSpace rest with
    | ',' :: rest => (readItems fuel depth rest).map fun (js, r) => (j :: js, r)
    | ']' :: rest => return ([j], rest)
    | _ => none

def readFields : (fuel depth : Nat) → List Char → Option (List (Option String × Json) × List Char)
  | 0, _, _ => none
  | fuel + 1, depth, s =>
    match skipSpace s with
    | '"' :: rest => do
      let (key, rest) ← readString (some {}) rest
      match skipSpace rest with
      | ':' :: rest =>
        let (j, rest) ← readValue fuel depth rest
        match skipSpace rest with
        | ',' :: rest => (readFields fuel depth rest).map fun (fs, r) => ((key, j) :: fs, r)
        | '\x7d' :: rest => return ([(key, j)], rest)
        | _ => none
      | _ => none
    | _ => none

end

/-- How deep the containers of a document may nest. -/
def maxDepth : Nat := 127

/-- The value that a text holds, with nothing but white space around it. -/
def parse (s : String) : Option Json :=
  let cs := s.toList
  match readValue (cs.length + 1) maxDepth cs with
  | some (j, rest) => if (skipSpace rest).isEmpty then some j else none
  | none => none

end SparqlAlgebra.Json
