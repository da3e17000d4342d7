import SparqlAlgebra.Cli.Perform

/-!
The program: it reads the files that its command line names, carries the command line out, and
prints what comes of it.
-/

namespace SparqlAlgebra.Cli

def readPath (path : String) : IO Reading := do
  try
    return .ok (← IO.FS.readFile path)
  catch
    | .noFileOrDirectory .. => return .error .notFound
    | .inappropriateType .. => return .error .isDirectory
    | e => return .error (.other (toString e))

/-- The user's configuration file, below the directory for configurations. -/
def userConfig (xdg home : Option String) : Option String :=
  let base := match xdg.filter (·.startsWith "/") with
    | some dir => some dir
    | none => home.map (· ++ "/.config")
  base.map (· ++ "/sombra/algebra.toml")

/-- Carries out a command line in the environment of the process; gives the exit code. -/
def start (args : List String) : IO UInt32 := do
  let env ← IO.getEnv "SOMBRA_ALGEBRA_CONFIG"
  let user := userConfig (← IO.getEnv "XDG_CONFIG_HOME") (← IO.getEnv "HOME")
  let readings ← (wanted env user args).mapM fun path => return (path, ← readPath path)
  let read := fun path => ((readings.find? (·.1 == path)).map (·.2)).getD (.error .notFound)
  let outcome := perform { env, userConfig := user, read } args
  IO.print outcome.stdout
  IO.eprint outcome.stderr
  return outcome.exit.toUInt32

end SparqlAlgebra.Cli

def main (args : List String) : IO UInt32 := SparqlAlgebra.Cli.start args
