import SparqlAlgebra.Dataset.Basic

/-!
Property paths, and walking them through a graph, forwards or backwards. Closures visit each node
once, in breadth-first order; the other operators keep multiplicities.
-/

namespace SparqlAlgebra

/-- A property path. -/
inductive Path where
  | link (predicate : String)
  | inverse (p : Path)
  | sequence (p q : Path)
  | alternative (p q : Path)
  | zeroOrOne (p : Path)
  | zeroOrMore (p : Path)
  | oneOrMore (p : Path)
deriving DecidableEq, Repr, Inhabited

def Path.text : Path → String
  | link predicate => "<" ++ predicate ++ ">"
  | inverse p => "^" ++ text p
  | sequence p q => "(" ++ text p ++ "/" ++ text q ++ ")"
  | alternative p q => "(" ++ text p ++ "|" ++ text q ++ ")"
  | zeroOrOne p => text p ++ "?"
  | zeroOrMore p => text p ++ "*"
  | oneOrMore p => text p ++ "+"

namespace Graph

/-- The nodes one triple away from `x` along or against a predicate. -/
def neighbours (g : Graph) (predicate : String) (forward : Bool) (x : Term) : List Term :=
  if forward then (g.find (some x) (some (.iri predicate)) none).map (·.object)
  else (g.find none (some (.iri predicate)) (some x)).map (·.subject)

/-- The nodes that `next` reaches from a queue, first visits only, in the order of visits. At most
`fuel` nodes outside `seen` are visited. -/
def reach (next : Term → List Term) (fuel : Nat) (queue seen : List Term) : List Term :=
  match queue with
  | [] => []
  | x :: rest =>
    if x ∈ seen then reach next fuel rest seen
    else
      match fuel with
      | 0 => []
      | fuel + 1 => x :: reach next fuel (rest ++ next x) (x :: seen)
termination_by (fuel, queue.length)

/-- The closure of `next` over some seeds. Every node it meets is a seed or a node of the graph,
which bounds the visits. -/
def closure (g : Graph) (next : Term → List Term) (seeds : List Term) : List Term :=
  reach next (seeds.length + g.nodes.length) seeds []

end Graph

/-- Appends the members of a list that are not there yet. -/
def appendNew {α : Type} [DecidableEq α] (l new : List α) : List α :=
  new.foldl (fun out x => if x ∈ out then out else out ++ [x]) l

/-- The ends of the walks along `p` from `x`, or against it when not `forward`. -/
def Path.ends (g : Graph) : Path → (forward : Bool) → Term → List Term
  | link predicate, forward, x => g.neighbours predicate forward x
  | inverse p, forward, x => ends g p (!forward) x
  | sequence p q, true, x => (ends g p true x).flatMap fun y => ends g q true y
  | sequence p q, false, x => (ends g q false x).flatMap fun y => ends g p false y
  | alternative p q, forward, x => ends g p forward x ++ ends g q forward x
  | zeroOrOne p, forward, x => appendNew [x] (ends g p forward x)
  | zeroOrMore p, forward, x => g.closure (fun y => ends g p forward y) [x]
  | oneOrMore p, forward, x => g.closure (fun y => ends g p forward y) (ends g p forward x)

end SparqlAlgebra
