import SparqlAlgebra.Toml.Quoted
import SparqlAlgebra.Toml.Scalar

/-!
Reading TOML documents. Every reader takes the text that is left and gives back what follows the
part it has read.
-/

namespace SparqlAlgebra.Toml

/-- How deep arrays and tables between braces may nest, and how many parts a key may have. -/
def maxDepth : Nat := 79

/-- Drops a comment in front, up to the end of its line. -/
def skipComment : List Char → List Char
  | '#' :: s => s.dropWhile isPlain
  | s => s

/-- Drops blanks, line breaks and comments in front. -/
def skipFiller : (fuel : Nat) → List Char → List Char
  | 0, s => s
  | n + 1, s =>
    let rest := skipBreaks s
    match rest with
    | '#' :: _ => skipFiller n (skipComment rest)
    | _ => rest

/-- Whether a character may stand in a key without quotes. -/
def isBare (c : Char) : Bool := c.isAlphanum || c == '_' || c == '-'

def readPart : List Char → Option (String × List Char)
  | '"' :: s => readBasic s.length [] s
  | '\'' :: s => readVerbatim s
  | s =>
    let bare := s.takeWhile isBare
    if bare.isEmpty then none else some (String.ofList bare, s.drop bare.length)

/-- A key: parts with dots between them, blanks around each. -/
def readParts : (fuel : Nat) → List Char → Option (List String × List Char)
  | 0, _ => none
  | n + 1, s => do
    let (part, s) ← readPart (skipBlank s)
    match skipBlank s with
    | '.' :: s => (readParts n s).map fun (parts, s) => (part :: parts, s)
    | s => return ([part], s)

/-- A key as the parts on the way and the last part. -/
def readKey (s : List Char) : Option (List String × String × List Char) := do
  let (parts, s) ← readParts maxDepth s
  return (parts.dropLast, ← parts.getLast?, s)

def readQuoted : List Char → Option (String × List Char)
  | '"' :: '"' :: '"' :: s => readBlock '"' true s
  | '\'' :: '\'' :: '\'' :: s => readBlock '\'' false s
  | '"' :: s => readBasic s.length [] s
  | '\'' :: s => readVerbatim s
  | _ => none

mutual

/-- A value. `depth` is how many more levels may be entered. -/
def readValue : (fuel depth : Nat) → List Char → Option (Value × List Char)
  | 0, _, _ => none
  | fuel + 1, depth, s =>
    match s with
    | '"' :: _ => (readQuoted s).map fun (t, s) => (.string t, s)
    | '\'' :: _ => (readQuoted s).map fun (t, s) => (.string t, s)
    | '[' :: s =>
      if depth = 0 then none
      else (readItems fuel (depth - 1) s).map fun (items, s) => (.array items, s)
    | '\x7b' :: s =>
      if depth = 0 then none
      else do
        let (pairs, s) ← match skipBlank s with
          | '\x7d' :: s => pure ([], s)
          | s => readPairs fuel (depth - 1) s
        return (.inline (← Entries.addAll [] pairs), s)
    | s => readScalar s

/-- Items up to the closing bracket; a comma may follow the last one. -/
def readItems : (fuel depth : Nat) → List Char → Option (List Value × List Char)
  | 0, _, _ => none
  | fuel + 1, depth, s =>
    match skipFiller s.length s with
    | ']' :: s => some ([], s)
    | s => do
      let (v, s) ← readValue fuel depth s
      match skipFiller s.length s with
      | ',' :: s => (readItems fuel depth s).map fun (vs, s) => (v :: vs, s)
      | ']' :: s => return ([v], s)
      | _ => none

def readPairs : (fuel depth : Nat) → List Char → Option (List Entry × List Char)
  | 0, _, _ => none
  | fuel + 1, depth, s => do
    let (entry, s) ← readPair fuel depth s
    match skipBlank s with
    | ',' :: s => (readPairs fuel depth s).map fun (rest, s) => (entry :: rest, s)
    | '\x7d' :: s => return ([entry], s)
    | _ => none

def readPair : (fuel depth : Nat) → List Char → Option (Entry × List Char)
  | 0, _, _ => none
  | fuel + 1, depth, s => do
    let (path, key, s) ← readKey s
    let '=' :: s := s | none
    let (value, s) ← readValue fuel depth (skipBlank s)
    return ({ path, key, value }, s)

end

def readHeader : List Char → Option (Header × List Char)
  | '[' :: '[' :: s => do
    let (path, key, s) ← readKey s
    let ']' :: ']' :: s := s | none
    return ({ path, key, isArray := true }, s)
  | '[' :: s => do
    let (path, key, s) ← readKey s
    let ']' :: s := s | none
    return ({ path, key, isArray := false }, s)
  | _ => none

/-- What follows the rest of a line, which may hold a comment only. -/
def finishLine (s : List Char) : Option (List Char) :=
  match skipComment (skipBlank s) with
  | [] => some []
  | s => skipBreak s

/-- The pairs up to the next header, then the headers with their pairs. -/
def readSections : (fuel : Nat) → List Char → Option (List Entry × List Section)
  | 0, _ => none
  | fuel + 1, s =>
    match skipFiller s.length s with
    | [] => some ([], [])
    | '[' :: s => do
      let (header, s) ← readHeader ('[' :: s)
      let (entries, rest) ← readSections fuel (← finishLine s)
      return ([], { header, entries } :: rest)
    | s => do
      let (entry, s) ← readPair s.length maxDepth s
      let (entries, rest) ← readSections fuel (← finishLine s)
      return (entry :: entries, rest)

/-- The byte order mark that may stand in front of a document. -/
def skipMark : List Char → List Char
  | '\ufeff' :: s => s
  | s => s

def parse (text : String) : Option Entries := do
  let s := skipMark text.toList
  let (first, rest) ← readSections (s.length + 1) s
  Entries.ofSections first rest

end SparqlAlgebra.Toml
