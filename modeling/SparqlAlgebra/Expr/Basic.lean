import SparqlAlgebra.Sorted.Set
import SparqlAlgebra.Term.Order

/-!
Expressions of filters, assignments, sort keys and aggregates.
-/

namespace SparqlAlgebra

/-- The operators between two operands. -/
inductive BinaryOp where
  | eq | ne | lt | le | gt | ge | and | or | add | subtract | multiply | divide
deriving DecidableEq, Repr, Inhabited

def BinaryOp.sign : BinaryOp → String
  | eq => "="
  | ne => "!="
  | lt => "<"
  | le => "<="
  | gt => ">"
  | ge => ">="
  | and => "&&"
  | or => "||"
  | add => "+"
  | subtract => "-"
  | multiply => "*"
  | divide => "/"

/-- An expression over the variables of a row. -/
inductive Expr where
  | var (v : Var)
  | const (t : Term)
  | bound (v : Var)
  | not (e : Expr)
  | binary (op : BinaryOp) (l r : Expr)
  | call (name : String) (args : List Expr)
deriving Inhabited

namespace Expr

mutual

/-- The variables an expression mentions, in order of mention. -/
def mentions : Expr → List Var
  | var v => [v]
  | const _ => []
  | bound v => [v]
  | not e => mentions e
  | binary _ l r => mentions l ++ mentions r
  | call _ args => mentionsAll args

/-- The variables that a list of expressions mentions. -/
def mentionsAll : List Expr → List Var
  | [] => []
  | e :: es => mentions e ++ mentionsAll es

end

def vars (e : Expr) : SortedSet Var := SortedSet.ofList e.mentions

mutual

/-- The expression in infix form with every operation in parentheses. -/
def text : Expr → String
  | var v => v.text
  | const t => t.text
  | bound v => "bound(" ++ v.text ++ ")"
  | not e => "!" ++ text e
  | binary op l r => "(" ++ text l ++ " " ++ op.sign ++ " " ++ text r ++ ")"
  | call name args => name ++ "(" ++ ", ".intercalate (textAll args) ++ ")"

def textAll : List Expr → List String
  | [] => []
  | e :: es => text e :: textAll es

end

end Expr

end SparqlAlgebra
