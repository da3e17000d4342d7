import SparqlAlgebra.Json.Modifier
import SparqlAlgebra.Json.Pattern

/-!
The JSON form of operators. Operators from outside have none and are written as `null`.
-/

namespace SparqlAlgebra.Op

open Json (variant required withDefault)

def sidesJson (l r : Json) : List (String × Json) := [("left", l), ("right", r)]

def assignmentJson (a : Var × Expr) : Json := .arr [a.1.toJson, a.2.toJson]

mutual

def toJson : Op → Json
  | bgp p => variant "bgp" p.toJson
  | triple t => variant "triple" t.toJson
  | quad q => variant "quad" q.toJson
  | path p => variant "path" p.toJson
  | join l r => variant "join" (.obj (sidesJson (toJson l) (toJson r)))
  | leftJoin l r exprs =>
    variant "left_join" <| .obj <| sidesJson (toJson l) (toJson r) ++
      [("exprs", .ofOption (.ofList Expr.toJson) exprs)]
  | union l r => variant "union" (.obj (sidesJson (toJson l) (toJson r)))
  | diff l r => variant "diff" (.obj (sidesJson (toJson l) (toJson r)))
  | conditional l r => variant "conditional" (.obj (sidesJson (toJson l) (toJson r)))
  | filter exprs sub =>
    variant "filter" (.obj [("exprs", .ofList Expr.toJson exprs), ("sub_op", toJson sub)])
  | graph name sub => variant "graph" (.obj [("name", name.toJson), ("sub_op", toJson sub)])
  | service endpoint sub silent =>
    variant "service"
      (.obj [("endpoint", endpoint.toJson), ("sub_op", toJson sub), ("silent", .bool silent)])
  | procedure name args sub =>
    variant "procedure"
      (.obj [("name", .str name), ("args", .ofList Expr.toJson args), ("sub_op", toJson sub)])
  | propFunc property subject object sub =>
    variant "prop_func"
      (.obj [("property", .str property), ("subject", subject.toJson), ("object", object.toJson),
        ("sub_op", toJson sub)])
  | datasetNames g => variant "dataset_names" (.obj [("graph", g.toJson)])
  | table t => variant "table" t.toJson
  | sequence steps => variant "sequence" (.arr (toJsonAll steps))
  | marker name => variant "label" (.obj [("label", .str name), ("sub_op", .null)])
  | label name sub => variant "label" (.obj [("label", .str name), ("sub_op", toJson sub)])
  | list sub => variant "list" (toJson sub)
  | null => .str "null"
  | project vars sub =>
    variant "project" (.obj [("vars", .ofList Var.toJson vars), ("sub_op", toJson sub)])
  | order keys sub =>
    variant "order" (.obj [("conditions", .ofList SortKey.toJson keys), ("sub_op", toJson sub)])
  | slice offset length sub =>
    variant "slice"
      (.obj [("offset", .ofOption .uint64 offset), ("length", .ofOption .uint64 length),
        ("sub_op", toJson sub)])
  | distinct sub => variant "distinct" (toJson sub)
  | reduced sub => variant "reduced" (toJson sub)
  | group vars aggs sub =>
    variant "group"
      (.obj [("group_vars", .ofList Var.toJson vars),
        ("aggregators", .ofList Aggregation.toJson aggs), ("sub_op", toJson sub)])
  | assign assignments sub =>
    variant "assign"
      (.obj [("assignments", .ofList assignmentJson assignments), ("sub_op", toJson sub)])
  | ext _ => .null

def toJsonAll : List Op → List Json
  | [] => []
  | op :: rest => toJson op :: toJsonAll rest

end

def readSides (f : Json → Option Op) (j : Json) : Option (Op × Op) := do
  let [l, r] ← j.record ["left", "right"] | none
  return (← required f l, ← required f r)

/-- A field with content of type `α` before an operand read with `f`. -/
def readOver {α : Type} (f : Json → Option Op) (name : String) (value : Json → Option α)
    (j : Json) : Option (α × Op) := do
  let [a, sub] ← j.record [name, "sub_op"] | none
  return (← required value a, ← required f sub)

/-- The operator of a variant with content, operands read with `f`. -/
def readVariant (f : Json → Option Op) (name : String) (j : Json) : Option Op :=
  match name with
  | "bgp" => (BasicPattern.ofJson? j).map bgp
  | "triple" => (TriplePattern.ofJson? j).map triple
  | "quad" => (QuadPattern.ofJson? j).map quad
  | "path" => (PathPattern.ofJson? j).map path
  | "join" => (readSides f j).map fun (l, r) => join l r
  | "left_join" => do
    let [l, r, exprs] ← j.record ["left", "right", "exprs"] | none
    return leftJoin (← required f l) (← required f r)
      (← withDefault none (Json.nullable? (Json.list? Expr.ofJson?)) exprs)
  | "union" => (readSides f j).map fun (l, r) => union l r
  | "diff" => (readSides f j).map fun (l, r) => diff l r
  | "conditional" => (readSides f j).map fun (l, r) => conditional l r
  | "filter" =>
    (readOver f "exprs" (Json.list? Expr.ofJson?) j).map fun (exprs, sub) => filter exprs sub
  | "graph" => (readOver f "name" Slot.ofJson? j).map fun (name, sub) => graph name sub
  | "service" => do
    let [endpoint, sub, silent] ← j.record ["endpoint", "sub_op", "silent"] | none
    return service (← required Slot.ofJson? endpoint) (← required f sub)
      (← withDefault false Json.bool? silent)
  | "procedure" => do
    let [name, args, sub] ← j.record ["name", "args", "sub_op"] | none
    return procedure (← required Json.string? name)
      (← withDefault [] (Json.list? Expr.ofJson?) args) (← required f sub)
  | "prop_func" => do
    let [property, subject, object, sub] ←
      j.record ["property", "subject", "object", "sub_op"] | none
    return propFunc (← required Json.string? property) (← required Argument.ofJson? subject)
      (← required Argument.ofJson? object) (← required f sub)
  | "dataset_names" => do
    let [g] ← j.record ["graph"] | none
    return datasetNames (← required Slot.ofJson? g)
  | "table" => (Table.ofJson? j).map table
  | "sequence" => (j.list? f).map sequence
  | "label" => do
    let [name, sub] ← j.record ["label", "sub_op"] | none
    let name ← required Json.string? name
    return match ← withDefault none (Json.nullable? f) sub with
      | none => marker name
      | some sub => label name sub
  | "list" => (f j).map list
  | "project" =>
    (readOver f "vars" (Json.list? Var.ofJson?) j).map fun (vars, sub) => project vars sub
  | "order" =>
    (readOver f "conditions" (Json.list? SortKey.ofJson?) j).map fun (keys, sub) => order keys sub
  | "slice" => do
    let [offset, length, sub] ← j.record ["offset", "length", "sub_op"] | none
    return slice (← withDefault none (Json.nullable? Json.uint64?) offset)
      (← withDefault none (Json.nullable? Json.uint64?) length) (← required f sub)
  | "distinct" => (f j).map distinct
  | "reduced" => (f j).map reduced
  | "group" => do
    let [vars, aggs, sub] ← j.record ["group_vars", "aggregators", "sub_op"] | none
    return group (← withDefault [] (Json.list? Var.ofJson?) vars)
      (← withDefault [] (Json.list? Aggregation.ofJson?) aggs) (← required f sub)
  | "assign" =>
    (readOver f "assignments" (Json.list? (Json.pair? Var.ofJson? Expr.ofJson?)) j).map
      fun (assignments, sub) => assign assignments sub
  | _ => none

/-- The operator of a value with at most `n` levels. -/
def read : (n : Nat) → Json → Option Op
  | 0, _ => none
  | n + 1, j =>
    if j.unit? = some "null" then some null
    else
      match j.variant? with
      | some (name, some content) => readVariant (read n) name content
      | _ => none

def ofJson? (j : Json) : Option Op := read j.height j

end SparqlAlgebra.Op
