import SparqlAlgebra.Cli.Documents
import SparqlAlgebra.Cli.Files
import SparqlAlgebra.Cli.Help
import SparqlAlgebra.Json.Op
import SparqlAlgebra.Json.Reader
import SparqlAlgebra.Json.Writer
import SparqlAlgebra.Plan.Run

/-!
Carrying out a command line over files that can be read.
-/

namespace SparqlAlgebra.Cli

/-- Why a command fails. -/
inductive Failure where
  | unreadableConfig (path : String) (fault : ReadFault)
  | badConfig (path : String)
  | unreadable (path : String) (fault : ReadFault)
  | badAlgebra (path : String)
  | badDataset (path : String)
  | plan (e : PlanError)

/-- The wording of a failure. What a reader of a file has to say is kept short. -/
def Failure.message : Failure → String
  | unreadableConfig path fault =>
    "failed to read compiler config " ++ path ++ ": " ++ fault.message
  | badConfig path => "failed to parse compiler config " ++ path ++ ": not a configuration"
  | unreadable path fault => "failed to read " ++ path ++ ": " ++ fault.message
  | badAlgebra path => "failed to parse algebra " ++ path ++ ": not an algebra tree"
  | badDataset path => "failed to parse dataset " ++ path ++ ": not a dataset"
  | plan e => e.message

/-- What a program leaves behind. -/
structure Outcome where
  exit : UInt8 := 0
  stdout : String := ""
  stderr : String := ""

/-- What a program is started in: the configuration file named by the environment, the user's own
configuration file, and what reading a path gives. -/
structure Surroundings where
  env : Option String
  userConfig : Option String
  read : String → Reading

def loadConfig (read : String → Reading) (path : String) : Except Failure Config :=
  match read path with
  | .error fault => .error (.unreadableConfig path fault)
  | .ok text => (Config.ofToml? text).elim (.error (.badConfig path)) .ok

/-- Loads the configuration that was asked for, else the user's own if there is one, else the
default one. -/
def findConfig (s : Surroundings) (asked : Option String) : Except Failure Config :=
  match asked, s.userConfig with
  | some path, _ => loadConfig s.read path
  | none, none => .ok {}
  | none, some path =>
    match s.read path with
    | .error fault => if fault.isAbsent then .ok {} else loadConfig s.read path
    | .ok _ => loadConfig s.read path

def loadJson {α : Type} (read : String → Reading) (decode : Json → Option α) (bad : Failure)
    (path : String) : Except Failure α :=
  match read path with
  | .error fault => .error (.unreadable path fault)
  | .ok text => ((Json.parse text).bind decode).elim (.error bad) .ok

def loadAlgebra (read : String → Reading) (path : String) : Except Failure Op :=
  loadJson read Op.ofJson? (.badAlgebra path) path

def loadDataset (read : String → Reading) (path : String) : Except Failure Dataset :=
  loadJson read Dataset.ofJson? (.badDataset path) path

/-- The configuration of a plan, materialized if asked for. -/
def planConfig (c : Config) (materialize : Bool) : Config :=
  if materialize then c.materialized else c

def render (format : Format) (text : String) (json : Json) : String :=
  match format with
  | .text => text
  | .json => json.pretty 0 ++ "\n"

def rowsText (rows : List Binding) : String :=
  String.join (rows.map fun b => b.text ++ "\n") ++ "(" ++ Number.natText rows.length ++ " rows)\n"

def rowsJson (rows : List Binding) : Json :=
  .obj [("rows", .ofList Binding.toJson rows), ("count", .int rows.length)]

def outlineJson (o : Outline) : Json :=
  .obj [("root", o.toJson), ("plan_hash", .uint64 o.hash)]

/-- What a command prints. The configuration is loaded first, then the algebra, then the data. -/
def produce (s : Surroundings) (i : Invocation) : Except Failure String := do
  let config ← findConfig s i.config
  match i.command with
  | .run algebra data materialize =>
    let op ← loadAlgebra s.read algebra
    let dataset ← data.elim (.ok {}) (loadDataset s.read)
    let ctx := { Context.ofDataset dataset with config := planConfig config materialize }
    match ctx.execute op with
    | .ok rows => return render i.format (rowsText rows) (rowsJson rows)
    | .error e => .error (.plan e)
  | .explain algebra materialize =>
    let op ← loadAlgebra s.read algebra
    let outline := Outline.ofOp (planConfig config materialize) op
    return render i.format outline.text (outlineJson outline)
  | .config => return render i.format (config.toToml?.getD "") config.toJson

def perform (s : Surroundings) (args : List String) : Outcome :=
  match parse s.env args with
  | .error (.help verb) => { stdout := helpText s.env verb }
  | .error .version => { stdout := versionText }
  | .error .misuse =>
    { exit := 2, stderr := "error: unexpected arguments\n\nFor more information, try '--help'.\n" }
  | .ok i =>
    match produce s i with
    | .ok stdout => { stdout }
    | .error f => { exit := 1, stderr := "error: " ++ f.message ++ "\n" }

/-- The paths that a command line may want to read. -/
def wanted (env userConfig : Option String) (args : List String) : List String :=
  match parse env args with
  | .error _ => []
  | .ok i =>
    let config := (i.config.or userConfig).toList
    match i.command with
    | .run algebra data _ => config ++ [algebra] ++ data.toList
    | .explain algebra _ => config ++ [algebra]
    | .config => config

end SparqlAlgebra.Cli
