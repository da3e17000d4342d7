import SparqlAlgebra.Binding.Basic
import SparqlAlgebra.Path.Basic

/-!
The patterns that operators match: slots, triple patterns, quad patterns and path patterns. In a
graph, a triple pattern and a path pattern each make some rows of one row.
-/

namespace SparqlAlgebra

/-- A place in a pattern: a variable or a constant. -/
inductive Slot where
  | var (v : Var)
  | term (t : Term)
deriving DecidableEq, Repr, Inhabited

namespace Slot

def var? : Slot → Option Var
  | var v => some v
  | term _ => none

/-- The constant, or what a row binds the variable to. -/
def resolve (b : Binding) : Slot → Option Term
  | var v => b.get? v
  | term t => some t

/-- Extends a row so that the slot stands for `t`; nothing when it stands for another term. -/
def bind (b : Binding) (t : Term) : Slot → Option Binding
  | term c => if c = t then some b else none
  | var v =>
    match b.get? v with
    | some old => if old = t then some b else none
    | none => some (b.insert v t)

def text : Slot → String
  | var v => v.text
  | term t => t.text

end Slot

/-- A triple with slots. -/
structure TriplePattern where
  subject : Slot
  predicate : Slot
  object : Slot
deriving DecidableEq, Repr, Inhabited

namespace TriplePattern

def vars (t : TriplePattern) : List Var :=
  [t.subject, t.predicate, t.object].filterMap Slot.var?

def text (t : TriplePattern) : String :=
  t.subject.text ++ " " ++ t.predicate.text ++ " " ++ t.object.text

end TriplePattern

abbrev BasicPattern := List TriplePattern

namespace BasicPattern

def vars (p : BasicPattern) : List Var := p.flatMap TriplePattern.vars

def text (p : BasicPattern) : String := " . ".intercalate (p.map TriplePattern.text)

end BasicPattern

/-- A basic pattern in a graph; without a graph slot it is about the default graph. -/
structure QuadPattern where
  graph : Option Slot
  pattern : BasicPattern
deriving DecidableEq, Repr, Inhabited

/-- A path between two slots. -/
structure PathPattern where
  subject : Slot
  path : Path
  object : Slot
deriving DecidableEq, Repr, Inhabited

namespace PathPattern

def vars (p : PathPattern) : List Var := [p.subject, p.object].filterMap Slot.var?

def text (p : PathPattern) : String :=
  p.subject.text ++ " " ++ p.path.text ++ " " ++ p.object.text

end PathPattern

/-- An argument of a property function: one slot or a list of slots. -/
inductive Argument where
  | node (s : Slot)
  | list (slots : List Slot)
deriving DecidableEq, Repr, Inhabited

def Argument.vars : Argument → List Var
  | node s => s.var?.toList
  | list slots => slots.filterMap Slot.var?

def TriplePattern.bind (p : TriplePattern) (b : Binding) (t : Triple) : Option Binding := do
  let b ← p.subject.bind b t.subject
  let b ← p.predicate.bind b t.predicate
  p.object.bind b t.object

/-- The extensions of a row by matching triples, in the order of the graph. -/
def TriplePattern.extend (p : TriplePattern) (g : Graph) (b : Binding) : List Binding :=
  (g.find (p.subject.resolve b) (p.predicate.resolve b) (p.object.resolve b)).filterMap (p.bind b)

/-- The pairs of nodes that a path connects, as far as the row fixes its ends: from the start, else
back from the end, else from every node of the graph. -/
def PathPattern.pairs (p : PathPattern) (g : Graph) (b : Binding) : List (Term × Term) :=
  match p.subject.resolve b, p.object.resolve b with
  | some s, _ => (p.path.ends g true s).map (s, ·)
  | none, some o => (p.path.ends g false o).map (·, o)
  | none, none => g.nodes.flatMap fun s => (p.path.ends g true s).map (s, ·)

def PathPattern.extend (p : PathPattern) (g : Graph) (b : Binding) : List Binding :=
  (p.pairs g b).filterMap fun (s, o) => do
    let b ← p.subject.bind b s
    p.object.bind b o

end SparqlAlgebra
