import SparqlAlgebra.Op.Basic

/-!
Which variables an operator binds in every solution, which in some, and which its expressions
mention without binding them; and from that, which joins may feed their left rows into the right
side.
-/

namespace SparqlAlgebra

/-- The variables of an operator by what is known of them. -/
structure Scope where
  /-- Bound in every solution. -/
  fixed : SortedSet Var := ∅
  /-- Bound in some solutions only. -/
  optional : SortedSet Var := ∅
  /-- Mentioned by an expression whose own scope does not fix them. -/
  free : SortedSet Var := ∅
deriving DecidableEq

namespace Scope

open SortedSet

instance : Inhabited Scope := ⟨{}⟩

def all (s : Scope) : SortedSet Var := union s.fixed s.optional

def ofVars (vars : List Var) : Scope := { fixed := SortedSet.ofList vars }

def fixing (s : Scope) (vars : List Var) : Scope :=
  let fixed := addAll s.fixed vars
  { s with fixed, optional := diff s.optional fixed }

/-- Adds the mentions of an expression that is evaluated in this scope. -/
def mentioning (s : Scope) (vars : List Var) : Scope :=
  { s with free := union s.free (diff (SortedSet.ofList vars) s.fixed) }

/-- What holds where both sides hold. -/
def conj (s t : Scope) : Scope :=
  let fixed := union s.fixed t.fixed
  { fixed, optional := diff (union s.optional t.optional) fixed, free := union s.free t.free }

/-- What holds where either side holds. -/
def either (s t : Scope) : Scope :=
  let fixed := inter s.fixed t.fixed
  { fixed, optional := diff (union s.all t.all) fixed, free := union s.free t.free }

/-- What holds where the left side holds and the right side may. -/
def maybe (s t : Scope) : Scope :=
  { fixed := s.fixed
    optional := diff (union s.optional t.all) s.fixed
    free := union s.free t.free }

/-- The left side without the rows that agree with the right side. -/
def minus (s t : Scope) : Scope :=
  { fixed := s.fixed
    optional := union s.optional (diff t.all s.fixed)
    free := union s.free t.free }

/-- The scope left visible by a projection. -/
def project (s : Scope) (vars : List Var) : Scope :=
  { fixed := SortedSet.filter (· ∈ vars) s.fixed
    optional := SortedSet.filter (· ∈ vars) s.optional }

end Scope

namespace Op

mutual

/-- The scope of an operator. -/
def scope : Op → Scope
  | bgp p => .ofVars p.vars
  | triple t => .ofVars t.vars
  | quad q => .ofVars (q.pattern.vars ++ (q.graph.bind Slot.var?).toList)
  | path p => .ofVars p.vars
  | join l r => (scope l).conj (scope r)
  | leftJoin l r exprs =>
    let s := scope l
    let t := scope r
    let outer := s.maybe t
    let mentioned := SortedSet.ofList (Expr.mentionsAll (exprs.getD []))
    { outer with free := outer.free.union (mentioned.diff (s.all.union t.all)) }
  | union l r => (scope l).either (scope r)
  | diff l r => (scope l).minus (scope r)
  | conditional l r => (scope l).maybe (scope r)
  | filter exprs sub => (scope sub).mentioning (Expr.mentionsAll exprs)
  | graph name sub => (scope sub).fixing name.var?.toList
  | service endpoint sub _ => (scope sub).fixing endpoint.var?.toList
  | procedure _ args sub => (scope sub).mentioning (Expr.mentionsAll args)
  | propFunc _ subject object sub => (scope sub).fixing (subject.vars ++ object.vars)
  | datasetNames g => .ofVars g.var?.toList
  | table t => .ofVars t.vars
  | sequence steps => scopeSteps {} steps
  | marker _ => {}
  | label _ sub => scope sub
  | list sub => scope sub
  | null => {}
  | project vars sub => (scope sub).project vars
  | order _ sub => scope sub
  | slice _ _ sub => scope sub
  | distinct sub => scope sub
  | reduced sub => scope sub
  | group vars aggs _ => .ofVars (vars ++ aggs.map (·.var))
  | assign assignments sub =>
    ((scope sub).mentioning (Expr.mentionsAll (assignments.map (·.2)))).fixing (assignments.map (·.1))
  | ext _ => {}

def scopeSteps (s : Scope) : List Op → Scope
  | [] => s
  | op :: rest => scopeSteps (s.conj (scope op)) rest

end

/-- The operator inside labels and lists. -/
def core : Op → Op
  | label _ sub => core sub
  | list sub => core sub
  | op => op

/-- Whether an operator never takes rows from a left side. -/
def blocksStreaming (op : Op) : Bool :=
  op.isModifier || match op with
    | diff .. | service .. | ext _ | conditional .. | datasetNames _ => true
    | _ => false

/-- Whether rows that bind `vars` may be fed into `right` without changing what it finds. -/
def linear (vars : SortedSet Var) (right : Op) : Bool :=
  let s := right.scope
  !right.blocksStreaming && vars.disjoint s.optional && vars.disjoint s.free

/-- Whether the right side of a join may take the left rows as its input. -/
def joinStreams (left right : Op) : Bool := linear left.core.scope.all right.core

/-- Whether the right side of a left join may take each left row as its input. The expressions of
the left join see the merged row either way. -/
def leftJoinStreams (left right : Op) : Bool :=
  let s := left.core.scope
  linear (s.all.union s.free) right.core

/-- Whether a join or left join may stream; no other operator does. -/
def streams : Op → Bool
  | join l r => joinStreams l r
  | leftJoin l r _ => leftJoinStreams l r
  | _ => false

end Op

end SparqlAlgebra
