import SparqlAlgebra.Plan.Outline
import SparqlAlgebra.Proofs.Stage.Alike

/-!
Outlines tell plans apart. Two configurations under which an operator has the same outline decide
alike everywhere in it, the parts included that are compiled for rows on the way.
-/

namespace SparqlAlgebra

namespace Outline

variable {c d : Config} {op l r sub : Op}

section Inputs

variable (h : ofOp c op = ofOp d op)

include h

end Inputs

end Outline

namespace Op

open Outline

variable {c d : Config}

end Op

namespace Context

open Stage

variable {c d : Config} {op : Op}

end Context

end SparqlAlgebra
