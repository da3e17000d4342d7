import SparqlAlgebra.Json.Data

/-!
The JSON form of property paths and of patterns.
-/

namespace SparqlAlgebra

open Json (variant)

namespace Path

def toJson : Path → Json
  | link predicate => variant "link" (.str predicate)
  | inverse p => variant "inverse" (toJson p)
  | sequence p q => variant "sequence" (.arr [toJson p, toJson q])
  | alternative p q => variant "alternative" (.arr [toJson p, toJson q])
  | zeroOrOne p => variant "zero_or_one" (toJson p)
  | zeroOrMore p => variant "zero_or_more" (toJson p)
  | oneOrMore p => variant "one_or_more" (toJson p)

/-- The path of a value with at most `n` levels. -/
def read : (n : Nat) → Json → Option Path
  | 0, _ => none
  | n + 1, j => do
    let (name, some content) ← j.variant? | none
    match name with
    | "link" => content.string?.map link
    | "inverse" => (read n content).map inverse
    | "sequence" => (content.pair? (read n) (read n)).map fun (p, q) => sequence p q
    | "alternative" => (content.pair? (read n) (read n)).map fun (p, q) => alternative p q
    | "zero_or_one" => (read n content).map zeroOrOne
    | "zero_or_more" => (read n content).map zeroOrMore
    | "one_or_more" => (read n content).map oneOrMore
    | _ => none

def ofJson? (j : Json) : Option Path := read j.height j

end Path

namespace Slot

def toJson : Slot → Json
  | var v => variant "var" v.toJson
  | term t => variant "term" t.toJson

def ofJson? (j : Json) : Option Slot := do
  let (name, some content) ← j.variant? | none
  match name with
  | "var" => (Var.ofJson? content).map var
  | "term" => (Term.ofJson? content).map term
  | _ => none

end Slot

namespace TriplePattern

def toJson (t : TriplePattern) : Json :=
  .obj [("subject", t.subject.toJson), ("predicate", t.predicate.toJson),
    ("object", t.object.toJson)]

def ofJson? (j : Json) : Option TriplePattern := do
  let [s, p, o] ← j.record ["subject", "predicate", "object"] | none
  return {
    subject := ← Json.required Slot.ofJson? s
    predicate := ← Json.required Slot.ofJson? p
    object := ← Json.required Slot.ofJson? o }

end TriplePattern

namespace BasicPattern

def toJson (p : BasicPattern) : Json := .ofList TriplePattern.toJson p

def ofJson? (j : Json) : Option BasicPattern := j.list? TriplePattern.ofJson?

end BasicPattern

namespace QuadPattern

def toJson (q : QuadPattern) : Json :=
  .obj [("graph", .ofOption Slot.toJson q.graph), ("pattern", q.pattern.toJson)]

def ofJson? (j : Json) : Option QuadPattern := do
  let [graph, pattern] ← j.record ["graph", "pattern"] | none
  return {
    graph := ← Json.withDefault none (Json.nullable? Slot.ofJson?) graph
    pattern := ← Json.required BasicPattern.ofJson? pattern }

end QuadPattern

namespace PathPattern

def toJson (p : PathPattern) : Json :=
  .obj [("subject", p.subject.toJson), ("path", p.path.toJson), ("object", p.object.toJson)]

def ofJson? (j : Json) : Option PathPattern := do
  let [s, p, o] ← j.record ["subject", "path", "object"] | none
  return {
    subject := ← Json.required Slot.ofJson? s
    path := ← Json.required Path.ofJson? p
    object := ← Json.required Slot.ofJson? o }

end PathPattern

namespace Argument

def toJson : Argument → Json
  | node s => variant "node" s.toJson
  | list slots => variant "list" (.ofList Slot.toJson slots)

def ofJson? (j : Json) : Option Argument := do
  let (name, some content) ← j.variant? | none
  match name with
  | "node" => (Slot.ofJson? content).map node
  | "list" => (content.list? Slot.ofJson?).map list
  | _ => none

end Argument

end SparqlAlgebra
