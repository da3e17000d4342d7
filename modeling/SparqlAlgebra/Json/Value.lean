/-!
JSON values, and building lists, absent values and variants.
-/

namespace SparqlAlgebra

/-- A JSON value. `unusable` stands for one that is well formed but that nothing may take: a number
beyond the doubles, a text with half a surrogate pair, or a container nested too deep. -/
inductive Json where
  | null
  | bool (b : Bool)
  | int (n : Int)
  | real (text : String)
  | str (s : String)
  | arr (items : List Json)
  | obj (fields : List (String × Json))
  | unusable
deriving Repr, BEq, Inhabited

namespace Json

mutual

/-- How many levels of nesting a value has, itself included. -/
def height : Json → Nat
  | arr items => heightItems items + 1
  | obj fields => heightFields fields + 1
  | _ => 1

def heightItems : List Json → Nat
  | [] => 0
  | j :: rest => max (height j) (heightItems rest)

def heightFields : List (String × Json) → Nat
  | [] => 0
  | (_, j) :: rest => max (height j) (heightFields rest)

end

mutual

def usable : Json → Bool
  | unusable => false
  | arr items => usableItems items
  | obj fields => usableFields fields
  | _ => true

def usableItems : List Json → Bool
  | [] => true
  | j :: rest => usable j && usableItems rest

def usableFields : List (String × Json) → Bool
  | [] => true
  | (_, j) :: rest => usable j && usableFields rest

end

/-- The value of the last field named `key`. -/
def get? (key : String) : Json → Option Json
  | obj fields => (fields.reverse.find? (·.1 == key)).map (·.2)
  | _ => none

def ofList {α : Type} (item : α → Json) (l : List α) : Json := arr (l.map item)

def ofOption {α : Type} (value : α → Json) : Option α → Json
  | none => null
  | some a => value a

def variant (name : String) (content : Json) : Json := obj [(name, content)]

def uint64 (n : UInt64) : Json := int n.toNat

end Json

end SparqlAlgebra
