import SparqlAlgebra.Json.Data

/-!
The JSON form of expressions.
-/

namespace SparqlAlgebra

def BinaryOp.key : BinaryOp → String
  | eq => "eq"
  | ne => "ne"
  | lt => "lt"
  | le => "le"
  | gt => "gt"
  | ge => "ge"
  | and => "and"
  | or => "or"
  | add => "add"
  | subtract => "subtract"
  | multiply => "multiply"
  | divide => "divide"

def BinaryOp.ofKey? : String → Option BinaryOp
  | "eq" => some eq
  | "ne" => some ne
  | "lt" => some lt
  | "le" => some le
  | "gt" => some gt
  | "ge" => some ge
  | "and" => some and
  | "or" => some or
  | "add" => some add
  | "subtract" => some subtract
  | "multiply" => some multiply
  | "divide" => some divide
  | _ => none

namespace Expr

open Json (variant)

mutual

def toJson : Expr → Json
  | var v => variant "var" v.toJson
  | const t => variant "const" t.toJson
  | bound v => variant "bound" v.toJson
  | not e => variant "not" (toJson e)
  | binary op l r => variant op.key (.arr [toJson l, toJson r])
  | call name args => variant "call" (.obj [("name", .str name), ("args", .arr (toJsonAll args))])

def toJsonAll : List Expr → List Json
  | [] => []
  | e :: es => toJson e :: toJsonAll es

end

/-- The expression of a value with at most `n` levels. -/
def read : (n : Nat) → Json → Option Expr
  | 0, _ => none
  | n + 1, j => do
    let (name, some content) ← j.variant? | none
    match name with
    | "var" => (Var.ofJson? content).map var
    | "const" => (Term.ofJson? content).map const
    | "bound" => (Var.ofJson? content).map bound
    | "not" => (read n content).map not
    | "call" =>
      let [callee, args] ← content.record ["name", "args"] | none
      return call (← Json.required Json.string? callee)
        (← Json.withDefault [] (Json.list? (read n)) args)
    | key =>
      let op ← BinaryOp.ofKey? key
      (content.pair? (read n) (read n)).map fun (l, r) => binary op l r

def ofJson? (j : Json) : Option Expr := read j.height j

end Expr

end SparqlAlgebra
