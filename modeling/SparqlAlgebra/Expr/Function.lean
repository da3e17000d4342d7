import SparqlAlgebra.Term.Order

/-!
Functions that expressions call by name, and why an expression has no value on a row.
-/

namespace SparqlAlgebra

/-- A failure to evaluate an expression on one row. -/
inductive EvalError where
  | unbound (v : Var)
  | typeMismatch (context : String)
  | noBooleanValue (t : Term)
  | divideByZero
  | overflow
  | unknownFunction (name : String)
  | arity (name : String) (expected found : Nat)
deriving DecidableEq, Repr, Inhabited

namespace EvalError

/-- The short code of a failure; a missing boolean value counts as a type mismatch. -/
def code : EvalError → String
  | unbound _ => "Unbound"
  | typeMismatch _ => "TypeMismatch"
  | noBooleanValue _ => "TypeMismatch"
  | divideByZero => "DivideByZero"
  | overflow => "Overflow"
  | unknownFunction _ => "UnknownFunction"
  | arity .. => "Arity"

def message : EvalError → String
  | unbound v => "variable " ++ v.text ++ " is unbound"
  | typeMismatch context => "type error: " ++ context
  | noBooleanValue t => "no effective boolean value for " ++ t.text
  | divideByZero => "division by zero"
  | overflow => "arithmetic overflow"
  | unknownFunction name => "unknown function '" ++ name ++ "'"
  | arity name expected found =>
    "function '" ++ name ++ "' expects " ++ Number.natText expected ++ " argument(s), got " ++
      Number.natText found

def coded (e : EvalError) : String := "[" ++ e.code ++ "] " ++ e.message

end EvalError

/-- A function on terms, with a fixed number of arguments or any number. -/
inductive Function where
  | fixed (arity : Nat) (run : (args : List Term) → args.length = arity → Except EvalError Term)
  | variadic (run : List Term → Except EvalError Term)

def Function.unary (run : Term → Except EvalError Term) : Function :=
  .fixed 1 fun
    | [t], _ => run t

/-- The functions known by name. -/
structure Functions where
  find? : String → Option Function

namespace Functions

def none : Functions := ⟨fun _ => .none⟩

def register (fs : Functions) (name : String) (f : Function) : Functions :=
  ⟨fun n => if n = name then some f else fs.find? n⟩

def contains (fs : Functions) (name : String) : Bool := (fs.find? name).isSome

def call (fs : Functions) (name : String) (args : List Term) : Except EvalError Term :=
  match fs.find? name with
  | .none => .error (.unknownFunction name)
  | some (.fixed n run) =>
    if h : args.length = n then run args h else .error (.arity name n args.length)
  | some (.variadic run) => run args

/-- The text of an IRI or a literal as a simple string. -/
def str : Term → Except EvalError Term
  | .blank _ => .error (.typeMismatch "str of blank node")
  | t => .ok (.string t.lexical)

/-- The number of characters of a literal without datatype. -/
def strlen : Term → Except EvalError Term
  | .literal ⟨lexical, .none, _⟩ =>
    match Number.toInt64? lexical.length with
    | some n => .ok (.int n)
    | .none => .error .overflow
  | _ => .error (.typeMismatch "strlen expects a string literal")

def builtins : Functions :=
  none
    |>.register "str" (.unary str)
    |>.register "isIRI" (.unary fun t => .ok (.boolean t.isIri))
    |>.register "isLiteral" (.unary fun t => .ok (.boolean t.isLiteral))
    |>.register "isBlank" (.unary fun t => .ok (.boolean t.isBlank))
    |>.register "strlen" (.unary strlen)

end Functions

end SparqlAlgebra
