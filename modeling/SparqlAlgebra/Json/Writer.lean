import SparqlAlgebra.Json.Value
import SparqlAlgebra.Text.Basic

/-!
Writing JSON: compactly, or over several lines with two spaces for each level.
-/

namespace SparqlAlgebra.Json

def unitEscape (c : Char) : List Char :=
  let ds := Text.hex c.toNat
  ['\\', 'u'] ++ List.replicate (4 - ds.length) '0' ++ ds

def escapeChar (c : Char) : List Char :=
  if c = '"' ∨ c = '\\' then ['\\', c]
  else if c = '\x08' then ['\\', 'b']
  else if c = '\x0c' then ['\\', 'f']
  else if c = '\n' then ['\\', 'n']
  else if c = '\r' then ['\\', 'r']
  else if c = '\t' then ['\\', 't']
  else if c.toNat < 0x20 then unitEscape c
  else [c]

def quote (s : String) : String := "\"" ++ String.ofList (s.toList.flatMap escapeChar) ++ "\""

mutual

def compact : Json → String
  | null => "null"
  | bool b => if b then "true" else "false"
  | int n => Number.intText n
  | real text => text
  | str s => quote s
  | arr items => "[" ++ ",".intercalate (compactItems items) ++ "]"
  | obj fields => "\x7b" ++ ",".intercalate (compactFields fields) ++ "\x7d"
  | unusable => "null"

def compactItems : List Json → List String
  | [] => []
  | j :: rest => compact j :: compactItems rest

def compactFields : List (String × Json) → List String
  | [] => []
  | (k, j) :: rest => (quote k ++ ":" ++ compact j) :: compactFields rest

end

def newline (level : Nat) : String := "\n" ++ String.ofList (List.replicate (2 * level) ' ')

/-- Parts of a container, each on its own line, between two brackets. -/
def block (opening closing : String) (level : Nat) (parts : List String) : String :=
  if parts.isEmpty then opening ++ closing
  else
    opening ++ newline (level + 1) ++ ("," ++ newline (level + 1)).intercalate parts ++
      newline level ++ closing

mutual

/-- The text of a value over several lines, starting at a level of nesting. -/
def pretty (level : Nat) : Json → String
  | arr items => block "[" "]" level (prettyItems (level + 1) items)
  | obj fields => block "\x7b" "\x7d" level (prettyFields (level + 1) fields)
  | j => compact j

def prettyItems (level : Nat) : List Json → List String
  | [] => []
  | j :: rest => pretty level j :: prettyItems level rest

def prettyFields (level : Nat) : List (String × Json) → List String
  | [] => []
  | (k, j) :: rest => (quote k ++ ": " ++ pretty level j) :: prettyFields level rest

end

end SparqlAlgebra.Json
