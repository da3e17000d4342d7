import SparqlAlgebra.Number.Shortest

/-!
Query variables and RDF terms, with the structural order that sorts them in maps and sets.
-/

namespace SparqlAlgebra

open Std

/-- A query variable, named without its question mark. -/
structure Var where
  name : String
deriving DecidableEq, Repr, Inhabited

namespace Var

instance : Ord Var := ⟨compareOn name⟩

instance : TransOrd Var := inferInstanceAs (TransCmp (compareOn name))

instance : LawfulEqOrd Var where
  compare_self {a} := by show compare a.name a.name = .eq; simp
  eq_of_compare {a b} h := by
    have h : compare a.name b.name = .eq := h
    cases a; cases b; simp_all

/-- The variable a query text names, with any number of question marks in front. -/
def parse (s : String) : Var := ⟨String.ofList (s.toList.dropWhile (· == '?'))⟩

def text (v : Var) : String := "?" ++ v.name

end Var

/-- A literal: its lexical form, and a datatype or a language tag unless it is a simple string. -/
structure Literal where
  lexical : String
  datatype : Option String := none
  lang : Option String := none
deriving DecidableEq, Repr, Inhabited

/-- An RDF term. -/
inductive Term where
  | iri (value : String)
  | blank (label : String)
  | literal (lit : Literal)
deriving DecidableEq, Repr, Inhabited

def xsd (name : String) : String := "http://www.w3.org/2001/XMLSchema#" ++ name

namespace Term

/-- The place of a kind in the structural order. -/
def kind : Term → Nat
  | iri _ => 0
  | blank _ => 1
  | literal _ => 2

/-- The text of a term without its decoration. -/
def lexical : Term → String
  | iri v => v
  | blank l => l
  | literal l => l.lexical

def datatype? : Term → Option String
  | literal l => l.datatype
  | _ => none

def lang? : Term → Option String
  | literal l => l.lang
  | _ => none

/-- Terms compare by kind, then text, datatype and language, absent ones first. -/
def structural : Term → Term → Ordering :=
  compareLex (compareOn kind) <| compareLex (compareOn lexical) <|
    compareLex (compareOn datatype?) (compareOn lang?)

instance : Ord Term := ⟨structural⟩

instance : TransOrd Term := inferInstanceAs (TransCmp (compareLex _ _))

instance : LawfulEqOrd Term where
  compare_self {a} := by show structural a a = .eq; simp [structural, compareLex, compareOn]
  eq_of_compare {a b} h := by
    have h : structural a b = .eq := h
    simp only [structural, compareLex_eq_eq, compareOn, LawfulEqCmp.compare_eq_iff_eq] at h
    obtain ⟨hk, hx, hd, hl⟩ := h
    cases a <;> cases b <;> simp_all [kind, lexical, datatype?, lang?]
    rename_i l r
    cases l; cases r; simp_all

def string (s : String) : Term := literal { lexical := s }

def langString (s tag : String) : Term := literal { lexical := s, lang := some tag }

/-- A literal with a datatype; `xsd:string` is left out. -/
def typed (s datatype : String) : Term :=
  literal { lexical := s, datatype := if datatype = xsd "string" then none else some datatype }

def int (v : Int64) : Term := typed (Number.intText v.toInt) (xsd "integer")

def double (x : Float) : Term := typed (Number.doubleText x) (xsd "double")

def boolean (b : Bool) : Term := typed (if b then "true" else "false") (xsd "boolean")

def isIri : Term → Bool
  | iri _ => true
  | _ => false

def isBlank : Term → Bool
  | blank _ => true
  | _ => false

def isLiteral : Term → Bool
  | literal _ => true
  | _ => false

def literal? : Term → Option Literal
  | literal l => some l
  | _ => none

/-- Whether a term is a literal with neither datatype nor language. -/
def isSimpleString : Term → Bool
  | literal l => l.datatype.isNone && l.lang.isNone
  | _ => false

end Term

end SparqlAlgebra
