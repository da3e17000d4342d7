import SparqlAlgebra.Json.Decode
import SparqlAlgebra.Plan.Outline
import SparqlAlgebra.Toml.Reader

/-!
What the program reads and writes besides queries and data: configurations, as TOML and as JSON, and
outlines as JSON.
-/

namespace SparqlAlgebra

namespace Config

def boolText (b : Bool) : String := if b then "true" else "false"

/-- A switch, or its default when it is not mentioned. -/
def readSwitch (es : Toml.Entries) (key : String) (default : Bool) : Option Bool :=
  match es.get? key with
  | none => some default
  | some (.bool b) => some b
  | some _ => none

/-- A count, or its default when it is not mentioned. -/
def readCount (es : Toml.Entries) (key : String) (default : UInt64) : Option UInt64 :=
  match es.get? key with
  | none => some default
  | some (.int n) => if 0 ≤ n then some n.toUInt64 else none
  | some _ => none

/-- The configuration that a document describes; what else stands in it does not matter. -/
def ofToml? (text : String) : Option Config := do
  let es ← Toml.parse text
  let d : Config := {}
  return {
    streamedJoins := ← readSwitch es "streamed_joins" d.streamedJoins
    streamedLeftJoins := ← readSwitch es "streamed_left_joins" d.streamedLeftJoins
    reducedWindow := ← readCount es "reduced_window" d.reducedWindow
    serviceEnabled := ← readSwitch es "service_enabled" d.serviceEnabled }

/-- The document of a configuration. Integers of TOML have a sign, so a larger window has none. -/
def toToml? (c : Config) : Option String :=
  if (Number.toInt64? c.reducedWindow.toNat).isSome then
    some ("streamed_joins = " ++ boolText c.streamedJoins ++
      "\nstreamed_left_joins = " ++ boolText c.streamedLeftJoins ++
      "\nreduced_window = " ++ Number.natText c.reducedWindow.toNat ++
      "\nservice_enabled = " ++ boolText c.serviceEnabled ++ "\n")
  else none

def toJson (c : Config) : Json :=
  .obj [("streamed_joins", .bool c.streamedJoins),
    ("streamed_left_joins", .bool c.streamedLeftJoins),
    ("reduced_window", .uint64 c.reducedWindow), ("service_enabled", .bool c.serviceEnabled)]

/-- A switch that is not mentioned keeps its default. -/
def ofJson? (j : Json) : Option Config := do
  let [joins, leftJoins, window, service] ←
    j.record ["streamed_joins", "streamed_left_joins", "reduced_window", "service_enabled"] | none
  let d : Config := {}
  return {
    streamedJoins := ← Json.withDefault d.streamedJoins Json.bool? joins
    streamedLeftJoins := ← Json.withDefault d.streamedLeftJoins Json.bool? leftJoins
    reducedWindow := ← Json.withDefault d.reducedWindow Json.uint64? window
    serviceEnabled := ← Json.withDefault d.serviceEnabled Json.bool? service }

end Config

def Property.toJson (p : Property) : Json :=
  .obj [("key", .str p.key), ("value", .str p.value), ("redactable", .bool p.redactable)]

namespace Outline

mutual

def toJson : Outline → Json
  | ⟨op, props, inputs⟩ =>
    .obj [("op", .str op), ("props", .ofList Property.toJson props),
      ("inputs", .arr (toJsonAll inputs))]

def toJsonAll : List Outline → List Json
  | [] => []
  | o :: rest => toJson o :: toJsonAll rest

end

end Outline

end SparqlAlgebra
