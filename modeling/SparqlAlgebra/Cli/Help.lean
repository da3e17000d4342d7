import SparqlAlgebra.Cli.Arguments

/-!
The help of the command line.
-/

namespace SparqlAlgebra.Cli

def program : String := "sombra-algebra"

def versionText : String := program ++ " 0.4.0\n"

def columns (rows : List (String × String)) : String :=
  let width := rows.foldl (fun n r => max n r.1.length) 0
  String.join <| rows.map fun r =>
    "  " ++ r.1 ++ String.ofList (List.replicate (width - r.1.length + 2) ' ') ++ r.2 ++ "\n"

def Verb.about : Verb → String
  | run => "Evaluate an algebra tree and print its solutions"
  | explain => "Print the stage tree an algebra tree compiles to"
  | config => "Print the effective compiler configuration"

def Verb.name : Verb → String
  | run => "run"
  | explain => "explain"
  | config => "config"

/-- The row of the configuration option, with what the environment says. -/
def configRow (env : Option String) : String × String :=
  ("    --config <FILE>",
    "Compiler configuration (TOML); defaults to the user config file [env: SOMBRA_ALGEBRA_CONFIG=" ++
      env.getD "" ++ "]")

def formatRow : String × String :=
  ("    --format <FORMAT>",
    "Output format for structured responses [default: text] [possible values: text, json]")

def materializeRow : String × String :=
  ("    --materialize", "Force materializing joins and left-joins")

def dataRow : String × String := ("    --data <FILE>", "Dataset as JSON")

def helpRow : String × String := ("-h, --help", "Print help")

def optionRows (env : Option String) : Option Verb → List (String × String)
  | none => [configRow env, formatRow, helpRow, ("-V, --version", "Print version")]
  | some .run => [configRow env, materializeRow, dataRow, formatRow, helpRow]
  | some .explain => [configRow env, materializeRow, formatRow, helpRow]
  | some .config => [configRow env, formatRow, helpRow]

/-- What `--help` prints, at the top or about a command. -/
def helpText (env : Option String) (verb : Option Verb) : String :=
  let options := "Options:\n" ++ columns (optionRows env verb)
  match verb with
  | none =>
    "Compile and evaluate SPARQL algebra over in-memory datasets\n\nUsage: " ++ program ++
      " [OPTIONS] <COMMAND>\n\nCommands:\n" ++
      columns ([Verb.run, .explain, .config].map fun v => (v.name, v.about)) ++ "\n" ++ options
  | some v =>
    let (usage, arguments) :=
      if v.plans then (" <ALGEBRA>", "Arguments:\n  <ALGEBRA>  Algebra tree as JSON\n\n")
      else ("", "")
    v.about ++ "\n\nUsage: " ++ program ++ " " ++ v.name ++ " [OPTIONS]" ++ usage ++ "\n\n" ++
      arguments ++ options

end SparqlAlgebra.Cli
