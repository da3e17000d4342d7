import SparqlAlgebra.Main
import SparqlAlgebra.Proofs.Op.Strategy
import SparqlAlgebra.Proofs.Op.Classifier
import SparqlAlgebra.Proofs.Pattern.Solutions
import SparqlAlgebra.Proofs.Op.Additive
import SparqlAlgebra.Proofs.Op.Resumed
import SparqlAlgebra.Proofs.Op.Released
import SparqlAlgebra.Proofs.Cursor.Cancelled
import SparqlAlgebra.Proofs.Op.Unsupported
import SparqlAlgebra.Proofs.Op.Explained
import SparqlAlgebra.Proofs.Op.Transcript
import SparqlAlgebra.Proofs.Op.Confined
import SparqlAlgebra.Proofs.Op.Bare
import SparqlAlgebra.Proofs.Op.Retains
import SparqlAlgebra.Proofs.Json.Decode
import SparqlAlgebra.Proofs.Json.Pattern
import SparqlAlgebra.Proofs.Json.Expr
import SparqlAlgebra.Proofs.Json.Op
import SparqlAlgebra.Proofs.Dataset.Document
import SparqlAlgebra.Proofs.Path.Denotation
import SparqlAlgebra.Proofs.Op.Covered
import SparqlAlgebra.Proofs.Op.Union
import SparqlAlgebra.Proofs.Op.Silent
import SparqlAlgebra.Proofs.Op.Candid
import SparqlAlgebra.Proofs.Op.Rooted
import SparqlAlgebra.Proofs.Op.Reduced
import SparqlAlgebra.Proofs.Op.Grouped
import SparqlAlgebra.Proofs.Op.Ordered
import SparqlAlgebra.Proofs.Stage.Sliced
import SparqlAlgebra.Proofs.Expr.Comparisons
import SparqlAlgebra.Proofs.Expr.Quotients
import SparqlAlgebra.Proofs.Expr.Exact
