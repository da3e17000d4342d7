import SparqlAlgebra.Sorted.Set
import SparqlAlgebra.Term.Basic

/-!
Graphs as finite sets of triples, read by matching slots; datasets, which are a default graph and
named graphs; and the document form in which datasets are stored.
-/

namespace SparqlAlgebra

open Std

/-- A ground triple. -/
structure Triple where
  subject : Term
  predicate : Term
  object : Term
deriving DecidableEq, Repr, Inhabited

namespace Triple

/-- Triples compare by subject, then predicate, then object. -/
def cmp : Triple → Triple → Ordering :=
  compareLex (compareOn subject) (compareLex (compareOn predicate) (compareOn object))

instance : Ord Triple := ⟨cmp⟩

instance : TransOrd Triple := inferInstanceAs (TransCmp (compareLex _ _))

instance : LawfulEqOrd Triple where
  compare_self {a} := by show cmp a a = .eq; simp [cmp, compareLex, compareOn]
  eq_of_compare {a b} h := by
    have h : cmp a b = .eq := h
    simp only [cmp, compareLex_eq_eq, compareOn, LawfulEqCmp.compare_eq_iff_eq] at h
    cases a; cases b; simp_all

end Triple

/-- A finite set of triples. -/
abbrev Graph := SortedSet Triple

namespace Graph

/-- Whether a term fits a slot; an open slot takes every term. -/
def fits (slot : Option Term) (t : Term) : Bool := slot.all (· == t)

/-- The triples that fit three slots, ascending. -/
def find (g : Graph) (s p o : Option Term) : List Triple :=
  g.toList.filter fun t => fits s t.subject && fits p t.predicate && fits o t.object

/-- Every subject and object, ascending. -/
def nodes (g : Graph) : List Term :=
  (SortedSet.ofList (g.toList.flatMap fun t => [t.subject, t.object])).toList

theorem mem_find {g : Graph} {s p o : Option Term} {t : Triple} :
    t ∈ g.find s p o ↔
      t ∈ g ∧ fits s t.subject = true ∧ fits p t.predicate = true ∧ fits o t.object = true := by
  simp [find, and_assoc]

theorem mem_nodes {g : Graph} {x : Term} :
    x ∈ g.nodes ↔ ∃ t ∈ g, x = t.subject ∨ x = t.object := by
  simp [nodes]

theorem nodup_nodes (g : Graph) : g.nodes.Nodup := SortedSet.nodup_toList _

end Graph

/-- A default graph together with graphs under names. -/
structure Dataset where
  default : Graph := ∅
  named : SortedMap Term Graph := ∅
deriving DecidableEq

/-- A dataset as it is written down: lists of triples, named graphs under the text of their name. -/
structure DatasetDocument where
  default : List Triple := []
  named : SortedMap String (List Triple) := ∅

namespace Dataset

instance : Inhabited Dataset := ⟨{}⟩

def names (d : Dataset) : List Term := d.named.keys

def addTriple (d : Dataset) (t : Triple) : Dataset := { d with default := SortedSet.add d.default t }

/-- Adds a triple to the graph `name`, which starts empty. -/
def addNamedTriple (d : Dataset) (name : Term) (t : Triple) : Dataset :=
  { d with named := d.named.insert name (SortedSet.add ((d.named.get? name).getD ∅) t) }

/-- Installs a graph under `name`, in place of any earlier one. -/
def install (d : Dataset) (name : Term) (g : Graph) : Dataset :=
  { d with named := d.named.insert name g }

/-- The dataset that a document describes; its graph names are IRIs. -/
def ofDocument (doc : DatasetDocument) : Dataset where
  default := SortedSet.ofList doc.default
  named := SortedMap.ofList (doc.named.entries.map fun e => (.iri e.1, SortedSet.ofList e.2))

/-- The document of a dataset; of names with the same text the last one stays. -/
def toDocument (d : Dataset) : DatasetDocument where
  default := d.default.toList
  named := SortedMap.ofList (d.named.entries.map fun e => (e.1.lexical, e.2.toList))

end Dataset

end SparqlAlgebra
