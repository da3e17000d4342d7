import SparqlAlgebra.Term.Basic

/-!
The numbers and booleans that literals write, terms as plans and result rows show them, and the
order of `ORDER BY`: unbound, blank nodes, IRIs, literals, with numbers by value.
-/

namespace SparqlAlgebra

/-- A number in an expression: an exact 64-bit integer or a double. -/
inductive Numeric where
  | integer (v : Int64)
  | double (x : Float)
deriving Inhabited

namespace Numeric

def toDouble : Numeric → Float
  | integer v => Number.ofInt v.toInt
  | double x => x

def toTerm : Numeric → Term
  | integer v => .int v
  | double x => .double x

/-- How two doubles compare; a NaN compares with nothing. -/
def cmpDouble? (x y : Float) : Option Ordering :=
  if x < y then some .lt else if x == y then some .eq else if y < x then some .gt else none

/-- How two numbers compare: integers exactly, others as doubles. -/
def cmp? : Numeric → Numeric → Option Ordering
  | integer a, integer b => some (compare a.toInt b.toInt)
  | a, b => cmpDouble? a.toDouble b.toDouble

end Numeric

namespace Term

/-- The datatypes whose values are 64-bit integers. -/
def integerTypes : List String :=
  ["integer", "int", "long", "short", "nonNegativeInteger", "positiveInteger"].map xsd

/-- The datatypes whose values are doubles. -/
def doubleTypes : List String := ["decimal", "double", "float"].map xsd

/-- The number that a literal of a numeric datatype writes, white space around it aside. -/
def numeric? : Term → Option Numeric
  | literal ⟨lexical, some datatype, _⟩ =>
    let s := Text.trim lexical.toList
    if datatype ∈ integerTypes then (Number.readInt64 s).map .integer
    else if datatype ∈ doubleTypes then (Number.readDouble s).map .double
    else none
  | _ => none

def bool? : Term → Option Bool
  | literal ⟨lexical, some datatype, _⟩ =>
    if datatype ≠ xsd "boolean" then none
    else if lexical = "true" ∨ lexical = "1" then some true
    else if lexical = "false" ∨ lexical = "0" then some false
    else none
  | _ => none

/-- Brackets for IRIs, quotes with tag or datatype for literals; numbers and booleans stand bare. -/
def text (t : Term) : String :=
  match t with
  | iri v => "<" ++ v ++ ">"
  | blank l => "_:" ++ l
  | literal l =>
    if t.numeric?.isSome || t.bool?.isSome then l.lexical
    else
      "\"" ++ Text.escape l.lexical ++ "\"" ++
        match l.lang, l.datatype with
        | some tag, _ => "@" ++ tag
        | none, some d => "^^<" ++ d ++ ">"
        | none, none => ""

def kindRank : Term → Nat
  | blank _ => 0
  | iri _ => 1
  | literal _ => 2

/-- Kinds first, then numbers that differ in value by value, then the structural order. -/
def sortCmp (a b : Term) : Ordering :=
  match compare a.kindRank b.kindRank with
  | .eq =>
    match a.numeric?, b.numeric? with
    | some x, some y =>
      match x.cmp? y with
      | some .lt => .lt
      | some .gt => .gt
      | _ => compare a b
    | _, _ => compare a b
  | o => o

/-- The order of optional terms: nothing comes before every term. -/
def sortCmp? : Option Term → Option Term → Ordering
  | none, none => .eq
  | none, some _ => .lt
  | some _, none => .gt
  | some a, some b => sortCmp a b

end Term

end SparqlAlgebra
