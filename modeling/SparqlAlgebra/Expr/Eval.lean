import SparqlAlgebra.Binding.Basic
import SparqlAlgebra.Expr.Basic
import SparqlAlgebra.Expr.Function

/-!
The value of an expression on a row: equality, comparison, checked arithmetic, logic that tolerates
an error on one side, and the effective boolean value that filters ask for.
-/

namespace SparqlAlgebra

namespace Term

/-- The truth of a term: a boolean's value, a number other than zero and NaN, a non-empty string. -/
def truth (t : Term) : Except EvalError Bool :=
  match t.bool?, t.numeric? with
  | some b, _ => .ok b
  | none, some (.integer v) => .ok (v ≠ 0)
  | none, some (.double x) => .ok (x != 0 && !x.isNaN)
  | none, none =>
    match t with
    | literal ⟨lexical, none, _⟩ => .ok (lexical ≠ "")
    | _ => .error (.noBooleanValue t)

/-- Equality: numbers by value, everything else by identity. -/
def equal (a b : Term) : Bool :=
  match a.numeric?, b.numeric? with
  | some x, some y => x.cmp? y == some .eq
  | _, _ => a == b

/-- Comparison of numbers, of booleans, or of strings with the same language. -/
def compare? (a b : Term) : Except EvalError Ordering :=
  match a.numeric?, b.numeric?, a.bool?, b.bool? with
  | some x, some y, _, _ =>
    match x.cmp? y with
    | some o => .ok o
    | none => .error (.typeMismatch "comparison with NaN")
  | _, _, some x, some y => .ok (compare x y)
  | _, _, _, _ =>
    match a, b with
    | literal ⟨x, none, l⟩, literal ⟨y, none, m⟩ =>
      if l = m then .ok (compare x y) else .error (.typeMismatch "incomparable operands")
    | _, _ => .error (.typeMismatch "incomparable operands")

end Term

/-- The four operations of arithmetic. -/
inductive ArithOp where
  | add | subtract | multiply | divide
deriving DecidableEq, Repr

namespace Numeric

/-- An exact integer result, if it fits. -/
def checked (n : Int) : Except EvalError Numeric :=
  match Number.toInt64? n with
  | some v => .ok (.integer v)
  | none => .error .overflow

def applyDouble (op : ArithOp) (x y : Float) : Numeric :=
  .double <| match op with
    | .add => x + y
    | .subtract => x - y
    | .multiply => x * y
    | .divide => x / y

/-- Whether the quotient of two integers is an integer in range. -/
def dividesExactly (l r : Int64) : Bool :=
  r ≠ 0 && !(l = Int64.minValue && r = -1) && l.toInt.tmod r.toInt = 0

/-- Integers stay integers, checked for range; a quotient that is not whole and everything with a
double is computed in doubles. -/
def apply (op : ArithOp) : Numeric → Numeric → Except EvalError Numeric
  | integer l, integer r =>
    match op with
    | .add => checked (l.toInt + r.toInt)
    | .subtract => checked (l.toInt - r.toInt)
    | .multiply => checked (l.toInt * r.toInt)
    | .divide =>
      if r = 0 then .error .divideByZero
      else if dividesExactly l r then checked (l.toInt.tdiv r.toInt)
      else .ok (applyDouble .divide (integer l).toDouble (integer r).toDouble)
  | x, y => .ok (applyDouble op x.toDouble y.toDouble)

end Numeric

namespace Expr

def arithmetic (op : ArithOp) (a b : Term) : Except EvalError Term :=
  match a.numeric?, b.numeric? with
  | some x, some y => (x.apply op y).map Numeric.toTerm
  | _, _ => .error (.typeMismatch "arithmetic on non-numeric operand")

/-- Conjunction, where one false side decides; otherwise the first error stands. -/
def conjunction : Except EvalError Bool → Except EvalError Bool → Except EvalError Bool
  | .ok false, _ => .ok false
  | _, .ok false => .ok false
  | .ok true, .ok true => .ok true
  | .error e, _ => .error e
  | _, .error e => .error e

/-- Disjunction, where one true side decides; otherwise the first error stands. -/
def disjunction : Except EvalError Bool → Except EvalError Bool → Except EvalError Bool
  | .ok true, _ => .ok true
  | _, .ok true => .ok true
  | .ok false, .ok false => .ok false
  | .error e, _ => .error e
  | _, .error e => .error e

def comparison (holds : Ordering → Bool) (a b : Except EvalError Term) : Except EvalError Term := do
  let o ← (← a).compare? (← b)
  return .boolean (holds o)

/-- An operator applied to the outcomes of its operands. -/
def applyOp (op : BinaryOp) (a b : Except EvalError Term) : Except EvalError Term :=
  match op with
  | .eq => do return .boolean ((← a).equal (← b))
  | .ne => do return .boolean (!(← a).equal (← b))
  | .lt => comparison Ordering.isLT a b
  | .le => comparison Ordering.isLE a b
  | .gt => comparison Ordering.isGT a b
  | .ge => comparison Ordering.isGE a b
  | .and => (conjunction (a.bind Term.truth) (b.bind Term.truth)).map .boolean
  | .or => (disjunction (a.bind Term.truth) (b.bind Term.truth)).map .boolean
  | .add => do arithmetic .add (← a) (← b)
  | .subtract => do arithmetic .subtract (← a) (← b)
  | .multiply => do arithmetic .multiply (← a) (← b)
  | .divide => do arithmetic .divide (← a) (← b)

mutual

/-- The value of an expression on a row. -/
def eval (fs : Functions) (b : Binding) : Expr → Except EvalError Term
  | var v =>
    match b.get? v with
    | some t => .ok t
    | none => .error (.unbound v)
  | const t => .ok t
  | bound v => .ok (.boolean (b.contains v))
  | not e => ((eval fs b e).bind Term.truth).map fun x => .boolean !x
  | binary op l r => applyOp op (eval fs b l) (eval fs b r)
  | call name args => (evalAll fs b args).bind (fs.call name)

/-- The values of a list of expressions, or the first error. -/
def evalAll (fs : Functions) (b : Binding) : List Expr → Except EvalError (List Term)
  | [] => .ok []
  | e :: es => do
    let t ← eval fs b e
    let ts ← evalAll fs b es
    return t :: ts

end

/-- The truth of an expression on a row. -/
def test (fs : Functions) (b : Binding) (e : Expr) : Except EvalError Bool :=
  (e.eval fs b).bind Term.truth

/-- Whether an expression is true on a row; an error is not. -/
def holds (fs : Functions) (b : Binding) (e : Expr) : Bool :=
  match e.test fs b with
  | .ok true => true
  | _ => false

end Expr

end SparqlAlgebra
