import SparqlAlgebra.Hash.Xxh64
import SparqlAlgebra.Op.Scope

/-!
Outlines of plans: the stages an operator would be compiled to, with what is worth knowing of each,
and a hash that tells outlines apart.
-/

namespace SparqlAlgebra

/-- Something worth knowing of a stage. What quotes data from the query may be withheld. -/
structure Property where
  key : String
  value : String
  redactable : Bool := false
deriving DecidableEq, Repr

/-- The outline of a stage and of the stages it reads from. -/
structure Outline where
  op : String
  props : List Property := []
  inputs : List Outline := []
deriving Repr

namespace Outline

instance : Inhabited Outline := ⟨{ op := "null" }⟩

def get? (o : Outline) (key : String) : Option String :=
  (o.props.find? (·.key == key)).map (·.value)

/-- A property that quotes the query. -/
def quoting (key value : String) : Property := { key, value, redactable := true }

/-- What tells a plan's reader that a construct is never compiled. -/
def unsupported : Property := { key := "unsupported", value := "true" }

/-- How a join gets at its right rows. -/
def strategy (streamed : Bool) : Property :=
  { key := "strategy", value := if streamed then "streamed" else "materialized" }

def ofPattern (p : BasicPattern) : Outline :=
  { op := "bgp"
    props := [{ key := "triples", value := Number.natText p.length }, quoting "pattern" p.text] }

def varsText (vars : List Var) : String := " ".intercalate (vars.map Var.text)

def keyText (k : SortKey) : String :=
  match k.direction with
  | .ascending => "asc(" ++ k.expr.text ++ ")"
  | .descending => "desc(" ++ k.expr.text ++ ")"

def aggregatorName : Aggregator → String
  | .count _ true => "count_distinct"
  | .count _ false => "count"
  | .sum _ => "sum"
  | .min _ => "min"
  | .max _ => "max"
  | .avg _ => "avg"
  | .sample _ => "sample"
  | .groupConcat .. => "group_concat"

def bound (key : String) (n : Option UInt64) : List Property :=
  (n.map fun n => { key, value := Number.natText n.toNat : Property }).toList

/-- The branches that the outline of `op` adds to a union: a nested union adds its own. -/
def branches (op : Op) (o : Outline) : List Outline :=
  match op with
  | .union .. => o.inputs
  | _ => [o]

mutual

/-- The outline of an operator under a configuration. -/
def ofOp (c : Config) (op : Op) : Outline :=
  match op with
  | .bgp p => ofPattern p
  | .triple t => ofPattern [t]
  | .quad q =>
    match q.graph with
    | none => ofPattern q.pattern
    | some g =>
      { op := "quadpattern", props := [{ key := "graph", value := g.text }, unsupported] }
  | .path p => { op := "path", props := [quoting "pattern" p.text] }
  | .join l r =>
    { op := "join", props := [strategy (c.streamedJoins && Op.joinStreams l r)]
      inputs := [ofOp c l, ofOp c r] }
  | .leftJoin l r exprs =>
    { op := "leftjoin"
      props := strategy (c.streamedLeftJoins && Op.leftJoinStreams l r) ::
        (exprs.getD []).map fun e => quoting "expr" e.text
      inputs := [ofOp c l, ofOp c r] }
  | .union l r =>
    let inputs := branches l (ofOp c l) ++ branches r (ofOp c r)
    { op := "union", props := [{ key := "branches", value := Number.natText inputs.length }]
      inputs }
  | .diff l r => { op := "diff", inputs := [ofOp c l, ofOp c r] }
  | .conditional l r =>
    { op := "conditional", props := [unsupported], inputs := [ofOp c l, ofOp c r] }
  | .datasetNames g =>
    { op := "datasetnames", props := [{ key := "graph", value := g.text }, unsupported] }
  | .filter exprs sub =>
    exprs.foldl
      (fun o e => { op := "filter", props := [quoting "expr" e.text], inputs := [o] })
      (ofOp c sub)
  | .graph name sub =>
    { op := "graph", props := [{ key := "name", value := name.text }], inputs := [ofOp c sub] }
  | .service endpoint sub silent =>
    { op := "service"
      props := [{ key := "endpoint", value := endpoint.text },
        { key := "silent", value := if silent then "true" else "false" }]
      inputs := [ofOp c sub] }
  | .procedure name args sub =>
    { op := "procedure"
      props := [{ key := "name", value := name },
        { key := "args", value := Number.natText args.length }]
      inputs := [ofOp c sub] }
  | .propFunc property _ _ sub =>
    { op := "propfunc", props := [{ key := "property", value := property }]
      inputs := [ofOp c sub] }
  | .table t =>
    { op := "table"
      props := { key := "rows", value := Number.natText t.rows.length } ::
        if t.isIdentity then [{ key := "identity", value := "true" }] else [] }
  | .sequence steps =>
    { op := "sequence", props := [{ key := "steps", value := Number.natText steps.length }]
      inputs := ofSteps c steps }
  | .marker name => { op := "input", props := [{ key := "label", value := name }] }
  | .label _ sub => ofOp c sub
  | .list sub => ofOp c sub
  | .null => { op := "null" }
  | .project vars sub =>
    { op := "project", props := [{ key := "vars", value := varsText vars }]
      inputs := [ofOp c sub] }
  | .order keys sub =>
    { op := "order", props := [quoting "keys" (" ".intercalate (keys.map keyText))]
      inputs := [ofOp c sub] }
  | .slice offset length sub =>
    { op := "slice", props := bound "offset" offset ++ bound "length" length
      inputs := [ofOp c sub] }
  | .distinct sub => { op := "distinct", inputs := [ofOp c sub] }
  | .reduced sub =>
    { op := "reduced"
      props := [{ key := "window", value := Number.natText c.reducedWindow.toNat }]
      inputs := [ofOp c sub] }
  | .group vars aggs sub =>
    { op := "group"
      props := { key := "by", value := varsText vars } ::
        aggs.map fun a =>
          { key := "aggregate", value := a.var.text ++ "=" ++ aggregatorName a.aggregator }
      inputs := [ofOp c sub] }
  | .assign assignments sub =>
    { op := "assign"
      props := assignments.map fun a => quoting "bind" (a.1.text ++ "=" ++ a.2.text)
      inputs := [ofOp c sub] }
  | .ext e => { op := "ext", props := [{ key := "name", value := e.name }] }

def ofSteps (c : Config) (steps : List Op) : List Outline :=
  match steps with
  | [] => []
  | op :: rest => ofOp c op :: ofSteps c rest

end

mutual

/-- What the hash is taken of: names, properties and the number of inputs, each stage before its
inputs. -/
def bytes : Outline → List UInt8
  | ⟨op, props, inputs⟩ =>
    op.toUTF8.toList ++
      props.flatMap (fun p => p.key.toUTF8.toList ++ p.value.toUTF8.toList) ++
      Hash.bytesOf inputs.length.toUInt64 ++ bytesAll inputs

/-- The bytes of several outlines one after the other. -/
def bytesAll : List Outline → List UInt8
  | [] => []
  | o :: rest => bytes o ++ bytesAll rest

end

/-- A number that two outlines share only by accident. -/
def hash (o : Outline) : UInt64 := Hash.xxh64 0 o.bytes

mutual

/-- One line for each stage, deeper ones further right. -/
def lines (depth : Nat) : Outline → List String
  | ⟨op, props, inputs⟩ =>
    (String.ofList (List.replicate (2 * depth) ' ') ++ op ++
      String.join (props.map fun p => " " ++ p.key ++ "=" ++ p.value)) ::
      linesAll (depth + 1) inputs

def linesAll (depth : Nat) : List Outline → List String
  | [] => []
  | o :: rest => lines depth o ++ linesAll depth rest

end

def hashText (o : Outline) : String :=
  let digits := Text.hex o.hash.toNat
  String.ofList (List.replicate (16 - digits.length) '0' ++ digits)

def text (o : Outline) : String :=
  String.join ((o.lines 0).map (· ++ "\n")) ++ "plan_hash: " ++ o.hashText ++ "\n"

end Outline

end SparqlAlgebra
