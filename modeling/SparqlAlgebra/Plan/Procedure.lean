import SparqlAlgebra.Expr.Basic
import SparqlAlgebra.Op.Pattern

/-!
Procedures and property functions, which answer the rows of a plan one by one, and why a plan cannot
be built or cannot go on.
-/

namespace SparqlAlgebra

/-- Why a remote service has no answer. -/
inductive ServiceFault where
  | unbound
  | disabled
  | noExecutor
  | notIri
  | unknown
deriving DecidableEq, Repr, Inhabited

/-- The wording of a fault. -/
def ServiceFault.message : ServiceFault → String
  | unbound => "endpoint variable is unbound"
  | disabled => "service evaluation is disabled"
  | noExecutor => "no service executor configured"
  | notIri => "endpoint is not an IRI"
  | unknown => "unknown endpoint"

/-- A failure of a plan. -/
inductive PlanError where
  | invalid (reason : String)
  | notImplemented (construct : String)
  | unsupportedExtension (name : String)
  | unknownProcedure (name : String)
  | procedure (name message : String)
  | service (endpoint : String) (fault : ServiceFault)
  | cancelled
deriving DecidableEq, Repr, Inhabited

def PlanError.message : PlanError → String
  | invalid reason => "invalid argument: " ++ reason
  | notImplemented construct => "not implemented: " ++ construct
  | unsupportedExtension name => "encountered unsupported extension operator: " ++ name
  | unknownProcedure name => "no such procedure: " ++ name
  | procedure name message => "procedure " ++ name ++ " failed: " ++ message
  | service endpoint fault => "service " ++ endpoint ++ " failed: " ++ fault.message
  | cancelled => "query cancelled"

/-- What a procedure is built with: call arguments, or the two sides of a property function. -/
inductive Call where
  | args (exprs : List Expr)
  | property (subject object : Argument)
deriving Inhabited

/-- A procedure. Its answer to a row may depend on the rows it was asked before, in order. It is
assumed to look at nothing else, neither the data nor the switches of the plan that asks, and to
answer at once: with all its rows, or with a failure and no rows. -/
structure Procedure where
  answer : (earlier : List Binding) → Binding → Except PlanError (List Binding)

/-- The procedures known by name. -/
structure Procedures where
  find? : String → Option (String → Call → Except PlanError Procedure)

namespace Procedures

def none : Procedures := ⟨fun _ => .none⟩

def register (ps : Procedures) (name : String) (make : String → Call → Except PlanError Procedure) :
    Procedures :=
  ⟨fun n => if n = name then some make else ps.find? n⟩

def build (ps : Procedures) (name : String) (call : Call) : Except PlanError Procedure :=
  match ps.find? name with
  | some make => make name call
  | .none => .error (.unknownProcedure name)

end Procedures

end SparqlAlgebra
