/-!
The command line: global options, and commands with options of their own.
-/

namespace SparqlAlgebra.Cli

/-- How results are printed. -/
inductive Format where
  | text
  | json
deriving DecidableEq, Repr, Inhabited

def Format.parse? : String → Option Format
  | "text" => some text
  | "json" => some json
  | _ => none

/-- The commands by name. -/
inductive Verb where
  | run
  | explain
  | config
deriving DecidableEq, Repr, Inhabited

def Verb.parse? : String → Option Verb
  | "run" => some run
  | "explain" => some explain
  | "config" => some config
  | _ => none

/-- A command with its arguments. -/
inductive Command where
  | run (algebra : String) (data : Option String) (materialize : Bool)
  | explain (algebra : String) (materialize : Bool)
  | config
deriving Repr, Inhabited

/-- A command line that can be carried out. -/
structure Invocation where
  config : Option String
  format : Format
  command : Command
deriving Repr, Inhabited

/-- Why a command line is not carried out: it asks for help, at the top or about a command, or for
the version, or it is wrong. -/
inductive Stop where
  | help (verb : Option Verb)
  | version
  | misuse
deriving DecidableEq, Repr, Inhabited

/-- The options that take a value. -/
inductive Setting where
  | config
  | format
  | data
deriving DecidableEq, Repr

/-- An option that is not set yet: its value is still to come, or has just come. -/
inductive Pending where
  | nothing
  | name (o : Setting)
  | value (o : Setting) (v : String)
deriving Repr

/-- What was given at one level: before the command, or after it. -/
structure Given where
  config : Option String := none
  format : Option Format := none
  data : Option String := none
  algebra : Option String := none
  materialize : Bool := false
deriving Inhabited

namespace Given

/-- A value that must not be empty, for an option that was not given before. -/
def once (old : Option String) (value : String) : Except Stop (Option String) :=
  if old.isSome || value.isEmpty then .error .misuse else .ok (some value)

/-- Sets an option, once at each level. -/
def set (g : Given) (value : String) : Setting → Except Stop Given
  | .config => (once g.config value).map fun config => { g with config }
  | .data => (once g.data value).map fun data => { g with data }
  | .format =>
    match g.format, Format.parse? value with
    | none, some f => .ok { g with format := some f }
    | _, _ => .error .misuse

def settle (g : Given) : Pending → Except Stop Given
  | .nothing => .ok g
  | .name _ => .error .misuse
  | .value o value => g.set value o

/-- Takes a positional argument: the algebra of a command that has one. -/
def position (g : Given) (verb : Option Verb) (value : String) : Except Stop Given :=
  match verb with
  | some .run | some .explain => (once g.algebra value).map fun algebra => { g with algebra }
  | _ => .error .misuse

end Given

/-- The option of a name, at the top or below a command. -/
def Setting.parse? (verb : Option Verb) : String → Option Setting
  | "config" => some config
  | "format" => some format
  | "data" => if verb == some .run then some data else none
  | _ => none

/-- Whether a command can be told to materialize. -/
def Verb.plans : Verb → Bool
  | run => true
  | explain => true
  | config => false

/-- The name of a long option and the value after its equals sign. -/
def splitLong (s : List Char) : String × Option String :=
  let name := String.ofList (s.takeWhile (· != '='))
  match s.dropWhile (· != '=') with
  | [] => (name, none)
  | _ :: value => (name, some (String.ofList value))

/-- Whether an argument can be no value of the option before it. -/
def isFlag (s : String) : Bool :=
  match s.toList with
  | '-' :: _ :: _ => true
  | _ => false

def flag (g : Given) (verb : Option Verb) (name : String) : Except Stop Given :=
  match name with
  | "help" => .error (.help verb)
  | "version" => .error (if verb.isNone then .version else .misuse)
  | "materialize" =>
    if verb.any Verb.plans && !g.materialize then .ok { g with materialize := true }
    else .error .misuse
  | _ => .error .misuse

/-- A short flag; what stands behind its first letter comes too late. -/
def shortFlag (verb : Option Verb) (c : Char) : Stop :=
  if c = 'h' then .help verb
  else if c = 'V' ∧ verb.isNone then .version
  else .misuse

/-- A long option or flag after its two hyphens. -/
def long (g : Given) (verb : Option Verb) (cs : List Char) : Except Stop (Given × Pending) :=
  let (name, value) := splitLong cs
  match Setting.parse? verb name, value with
  | some o, some value => (g.set value o).map (·, .nothing)
  | some o, none => .ok (g, .name o)
  | none, some _ => .error .misuse
  | none, none => (flag g verb name).map (·, .nothing)

/-- What a level leaves: what was given, the option that is not set yet, and the command with the
arguments after it. -/
structure Level where
  given : Given
  pending : Pending := .nothing
  next : Option (Verb × List String) := none

/-- Reads one level. `plain` is whether all arguments are positional from here on. At the top the
level ends at a command, and an option right before it is set only after the command is read. -/
def readLevel (verb : Option Verb) (g : Given) (pending : Pending) (plain : Bool) :
    List String → Except Stop Level
  | [] => (g.settle pending).map fun given => { given }
  | s :: rest =>
    match pending, plain, s.toList with
    | .name o, _, _ =>
      if isFlag s then .error .misuse else readLevel verb g (.value o s) plain rest
    | _, false, ['-', '-'] => readLevel verb g pending true rest
    | _, false, '-' :: '-' :: cs => do
      let (g, pending) ← long (← g.settle pending) verb cs
      readLevel verb g pending false rest
    | _, false, '-' :: c :: _ => do
      let _ ← g.settle pending
      .error (shortFlag verb c)
    | _, _, _ =>
      match verb, plain, Verb.parse? s with
      | none, false, some next => .ok { given := g, pending, next := some (next, rest) }
      | _, _, _ => do
        let g ← (← g.settle pending).position verb s
        readLevel verb g .nothing plain rest

/-- The command of a level below its name. -/
def command (verb : Verb) (g : Given) : Except Stop Command :=
  match verb, g.algebra with
  | .run, some algebra => .ok (.run algebra g.data g.materialize)
  | .explain, some algebra => .ok (.explain algebra g.materialize)
  | .config, _ => .ok .config
  | _, none => .error .misuse

/-- Reads a command line. `env` is the configuration file that the environment names; a level
without one of its own looks at it, and it must not be empty then. What stands after the command
counts before what stands in front of it. -/
def parse (env : Option String) (args : List String) : Except Stop Invocation := do
  let top ← readLevel none {} .nothing false args
  let some (verb, rest) := top.next | .error .misuse
  let sub := (← readLevel (some verb) {} .nothing false rest).given
  let command ← command verb sub
  let given ← top.given.settle top.pending
  if env == some "" && (sub.config.isNone || given.config.isNone) then .error .misuse
  return {
    config := sub.config.or (given.config.or env)
    format := (sub.format.or given.format).getD .text
    command }

end SparqlAlgebra.Cli
