import SparqlAlgebra.Json.Decode
import SparqlAlgebra.Op.Basic

/-!
The JSON form of variables and terms, of rows and tables, and of triples and datasets.
-/

namespace SparqlAlgebra

def Var.toJson (v : Var) : Json := .str v.name

def Var.ofJson? (j : Json) : Option Var := j.string?.map Var.mk

/-- A literal shows its datatype and its language tag only where it has them. -/
def Literal.toJson (l : Literal) : Json :=
  .obj <| [("lexical", .str l.lexical)] ++
    (l.datatype.map fun d => ("datatype", .str d)).toList ++
    (l.lang.map fun t => ("lang", .str t)).toList

def Literal.ofJson? (j : Json) : Option Literal := do
  let [lexical, datatype, lang] ← j.record ["lexical", "datatype", "lang"] | none
  return {
    lexical := ← Json.required Json.string? lexical
    datatype := ← Json.withDefault none (Json.nullable? Json.string?) datatype
    lang := ← Json.withDefault none (Json.nullable? Json.string?) lang }

namespace Term

def toJson : Term → Json
  | iri v => .obj [("t", .str "iri"), ("v", .str v)]
  | blank l => .obj [("t", .str "blank"), ("v", .str l)]
  | literal l => .obj [("t", .str "literal"), ("v", l.toJson)]

def ofJson? (j : Json) : Option Term := do
  let (t, v) ← j.tagged "t" "v"
  match ← Json.required Json.unit? t with
  | "iri" => (Json.required Json.string? v).map iri
  | "blank" => (Json.required Json.string? v).map blank
  | "literal" => (Json.required Literal.ofJson? v).map literal
  | _ => none

end Term

namespace Binding

def toJson (b : Binding) : Json := .obj (b.entries.map fun e => (e.1.name, e.2.toJson))

/-- Of two fields for one variable the later one counts. -/
def ofJson? (j : Json) : Option Binding :=
  (j.entries? Term.ofJson?).map fun l => SortedMap.ofList (l.map fun f => (⟨f.1⟩, f.2))

end Binding

namespace Table

def toJson (t : Table) : Json :=
  .obj [("vars", .ofList Var.toJson t.vars), ("rows", .ofList Binding.toJson t.rows)]

def ofJson? (j : Json) : Option Table := do
  let [vars, rows] ← j.record ["vars", "rows"] | none
  return {
    vars := ← Json.withDefault [] (Json.list? Var.ofJson?) vars
    rows := ← Json.withDefault [] (Json.list? Binding.ofJson?) rows }

end Table

namespace Triple

def toJson (t : Triple) : Json :=
  .obj [("subject", t.subject.toJson), ("predicate", t.predicate.toJson),
    ("object", t.object.toJson)]

def ofJson? (j : Json) : Option Triple := do
  let [s, p, o] ← j.record ["subject", "predicate", "object"] | none
  return {
    subject := ← Json.required Term.ofJson? s
    predicate := ← Json.required Term.ofJson? p
    object := ← Json.required Term.ofJson? o }

end Triple

namespace DatasetDocument

def toJson (d : DatasetDocument) : Json :=
  .obj [("default", .ofList Triple.toJson d.default),
    ("named", .obj (d.named.entries.map fun e => (e.1, .ofList Triple.toJson e.2)))]

/-- Of two lists for one graph name the later one counts. -/
def ofJson? (j : Json) : Option DatasetDocument := do
  let [default, named] ← j.record ["default", "named"] | none
  return {
    default := ← Json.withDefault [] (Json.list? Triple.ofJson?) default
    named := .ofList (← Json.withDefault [] (Json.entries? (Json.list? Triple.ofJson?)) named) }

end DatasetDocument

namespace Dataset

/-- The form of the document, triples ascending and each once. -/
def toJson (d : Dataset) : Json := d.toDocument.toJson

def ofJson? (j : Json) : Option Dataset := (DatasetDocument.ofJson? j).map ofDocument

end Dataset

end SparqlAlgebra
