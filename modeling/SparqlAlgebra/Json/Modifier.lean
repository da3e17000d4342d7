import SparqlAlgebra.Json.Expr

/-!
The JSON form of sort keys and aggregates.
-/

namespace SparqlAlgebra

open Json (variant)

namespace Direction

def toJson : Direction → Json
  | ascending => .str "ascending"
  | descending => .str "descending"

def ofJson? (j : Json) : Option Direction :=
  match j.unit? with
  | some "ascending" => some ascending
  | some "descending" => some descending
  | _ => none

end Direction

namespace SortKey

def toJson (k : SortKey) : Json :=
  .obj [("expr", k.expr.toJson), ("direction", k.direction.toJson)]

def ofJson? (j : Json) : Option SortKey := do
  let [expr, direction] ← j.record ["expr", "direction"] | none
  return {
    expr := ← Json.required Expr.ofJson? expr
    direction := ← Json.withDefault .ascending Direction.ofJson? direction }

end SortKey

namespace Aggregator

/-- What stands between concatenated texts where nothing is said. -/
def defaultSeparator : String := " "

def toJson : Aggregator → Json
  | count e d => variant "count" (.obj [("expr", .ofOption Expr.toJson e), ("distinct", .bool d)])
  | sum e => variant "sum" e.toJson
  | min e => variant "min" e.toJson
  | max e => variant "max" e.toJson
  | avg e => variant "avg" e.toJson
  | sample e => variant "sample" e.toJson
  | groupConcat e s => variant "group_concat" (.obj [("expr", e.toJson), ("separator", .str s)])

def ofJson? (j : Json) : Option Aggregator := do
  let (name, some content) ← j.variant? | none
  match name with
  | "count" =>
    let [expr, distinct] ← content.record ["expr", "distinct"] | none
    return count (← Json.withDefault none (Json.nullable? Expr.ofJson?) expr)
      (← Json.withDefault false Json.bool? distinct)
  | "sum" => (Expr.ofJson? content).map sum
  | "min" => (Expr.ofJson? content).map min
  | "max" => (Expr.ofJson? content).map max
  | "avg" => (Expr.ofJson? content).map avg
  | "sample" => (Expr.ofJson? content).map sample
  | "group_concat" =>
    let [expr, separator] ← content.record ["expr", "separator"] | none
    return groupConcat (← Json.required Expr.ofJson? expr)
      (← Json.withDefault defaultSeparator Json.string? separator)
  | _ => none

end Aggregator

namespace Aggregation

def toJson (a : Aggregation) : Json :=
  .obj [("var", a.var.toJson), ("aggregator", a.aggregator.toJson)]

def ofJson? (j : Json) : Option Aggregation := do
  let [var, aggregator] ← j.record ["var", "aggregator"] | none
  return {
    var := ← Json.required Var.ofJson? var
    aggregator := ← Json.required Aggregator.ofJson? aggregator }

end Aggregation

end SparqlAlgebra
