import SparqlAlgebra.Sorted.Set
import SparqlAlgebra.Term.Order

/-!
Solution rows: finite maps from variables to terms, their compatibility, merge and projection.
-/

namespace SparqlAlgebra

open Std

/-- A solution row; an unbound variable has no entry. -/
abbrev Binding := SortedMap Var Term

namespace Binding

def single (v : Var) (t : Term) : Binding := SortedMap.insert ∅ v t

/-- Whether `b` binds no variable of `a` to another term. -/
def admits (b a : Binding) : Bool := a.entries.all fun e => (b.get? e.1).all (· == e.2)

/-- Whether every variable bound in both rows has the same term in both; the variables of the
smaller row are looked up in the larger one. -/
def compatible (a b : Binding) : Bool := if a.size ≤ b.size then b.admits a else a.admits b

/-- The bindings of `b` for variables that `a` leaves open, put into `a`. -/
def fill (a b : Binding) : Binding := b.entries.foldl (fun m e => m.insertNew e.1 e.2) a

/-- The union of two compatible rows. -/
def merge (a b : Binding) : Option Binding :=
  if compatible a b then some (fill a b) else none

def project (a : Binding) (vars : List Var) : Binding :=
  SortedMap.ofList (vars.filterMap fun v => (a.get? v).map (v, ·))

def dom (a : Binding) : SortedSet Var := SortedSet.ofList a.keys

/-- Rows compare entry by entry. -/
def cmp (a b : Binding) : Ordering :=
  List.compareLex (compareLex (compareOn (·.1)) (compareOn (·.2))) a.entries b.entries

def text (a : Binding) : String :=
  "\x7b" ++ ", ".intercalate (a.entries.map fun e => e.1.text ++ "=" ++ e.2.text) ++ "\x7d"

end Binding

end SparqlAlgebra
