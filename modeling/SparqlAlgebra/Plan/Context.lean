import SparqlAlgebra.Expr.Function
import SparqlAlgebra.Plan.Procedure

/-!
How plans are built, and what they are built and run in.
-/

namespace SparqlAlgebra

/-- The switches of plan building. -/
structure Config where
  /-- Whether a linear join feeds its left rows into its right side. -/
  streamedJoins : Bool := true
  /-- Whether a linear left join does so. -/
  streamedLeftJoins : Bool := true
  /-- How many distinct rows the approximate duplicate elimination remembers. -/
  reducedWindow : UInt64 := 1024
  /-- Whether remote services may be asked. -/
  serviceEnabled : Bool := true
deriving DecidableEq, Repr

namespace Config

instance : Inhabited Config := ⟨{}⟩

/-- The same configuration with every join and left join materialized. -/
def materialized (c : Config) : Config :=
  { c with streamedJoins := false, streamedLeftJoins := false }

/-- The default configuration with every join and left join materialized. -/
def materializing : Config := materialized {}

end Config

/-- A dataset with its active graph, and everything else a plan may ask for. -/
structure Context where
  dataset : Dataset
  graph : Graph
  config : Config := {}
  functions : Functions := .builtins
  procedures : Procedures := .none
  /-- The datasets that remote services answer from, if services can be asked at all. -/
  services : Option (SortedMap String Dataset) := none
  /-- Whether the plan watches the cancel token. -/
  cancellable : Bool := false

namespace Context

def ofDataset (d : Dataset) : Context := { dataset := d, graph := d.default }

instance : Inhabited Context := ⟨ofDataset {}⟩

/-- The context in which a service answers from `d`: configuration and functions stay. -/
def remote (c : Context) (d : Dataset) : Context :=
  { ofDataset d with config := c.config, functions := c.functions }

/-- Whether a plan in this context has to stop, given the state of the token. -/
def stopped (c : Context) (raised : Bool) : Bool := c.cancellable && raised

end Context

end SparqlAlgebra
