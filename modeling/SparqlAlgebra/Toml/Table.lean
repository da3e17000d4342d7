/-!
TOML values: scalars, arrays, and tables in the ways they come about. What is already there decides
what a key with dots, a header, and a header in double brackets may add to it.
-/

namespace SparqlAlgebra.Toml

/-- How a table that is not written between braces came about. -/
inductive Origin where
  /-- It has a header of its own. -/
  | header
  /-- Only headers of tables inside it were met. -/
  | implied
  /-- It was named by a key with dots. -/
  | dotted
deriving DecidableEq, Repr, Inhabited

/-- A TOML value. -/
inductive Value where
  | bool (b : Bool)
  | int (n : Int64)
  | float (text : String)
  | string (s : String)
  /-- A date, a time or both. -/
  | moment (text : String)
  | array (items : List Value)
  /-- A table between braces, which nothing outside can add to. -/
  | inline (entries : List (String × Value))
  | table (origin : Origin) (entries : List (String × Value))
  /-- Tables whose headers stand in double brackets, the last one open. -/
  | tables (elements : List (List (String × Value)))
deriving Inhabited

/-- The entries of a table, in the order in which they came about. -/
abbrev Entries := List (String × Value)

/-- A key-value pair: the keys on the way, the last key, and the value. -/
structure Entry where
  path : List String
  key : String
  value : Value

/-- A header: where the table lies, its last key, and whether it is one of an array. -/
structure Header where
  path : List String
  key : String
  isArray : Bool

/-- A header and the pairs below it. -/
structure Section where
  header : Header
  entries : List Entry

namespace Entries

def get? (es : Entries) (key : String) : Option Value := (es.find? (·.1 == key)).map (·.2)

/-- Puts a value under a key, in place of the one that is there. -/
def put (es : Entries) (key : String) (v : Value) : Entries :=
  match es with
  | [] => [(key, v)]
  | e :: rest => if e.1 == key then (key, v) :: rest else e :: put rest key v

/-- Replaces the last element of an array of tables. -/
def updateLast (f : Entries → Option Entries) : List Entries → Option (List Entries)
  | [] => none
  | [es] => (f es).map ([·])
  | es :: rest => (updateLast f rest).map (es :: ·)

/-- Changes the table at the end of a path. Tables on the way that are not there come about as
`missing`; one that is there must allow being entered. -/
def updateAt (missing : Origin) (enter : Origin → Bool) (f : Origin → Entries → Option Entries) :
    List String → Origin → Entries → Option Entries
  | [], origin, es => f origin es
  | key :: path, _, es => do
    let v ← match es.get? key with
      | none => (updateAt missing enter f path missing []).map (Value.table missing)
      | some (.table origin sub) =>
        if enter origin then (updateAt missing enter f path origin sub).map (Value.table origin)
        else none
      | some (.tables elements) =>
        (updateLast (updateAt missing enter f path .header) elements).map Value.tables
      | some _ => none
    return es.put key v

/-- Adds a pair to a table. Keys on the way may enter tables without a header only, and must end in
one that keys with dots have made. -/
def add (es : Entries) (e : Entry) : Option Entries :=
  updateAt .dotted (· != .header)
    (fun origin sub =>
      if (origin == .dotted) == e.path.isEmpty || (sub.get? e.key).isSome then none
      else some (sub ++ [(e.key, e.value)]))
    e.path .header es

/-- A table made of pairs, on top of what is there. -/
def addAll (es : Entries) (l : List Entry) : Option Entries := l.foldlM add es

/-- Adds a table under its header, which may stand once, or one more table of an array. -/
def addSection (es : Entries) (s : Section) : Option Entries :=
  updateAt .implied (fun _ => true)
    (fun _ parent => do
      let v ← match s.header.isArray, parent.get? s.header.key with
        | true, none => return parent.put s.header.key (.tables [← addAll [] s.entries])
        | true, some (.tables elements) =>
          (addAll [] s.entries).map fun es => Value.tables (elements ++ [es])
        | false, none => (addAll [] s.entries).map (Value.table .header)
        | false, some (.table .implied sub) => (addAll sub s.entries).map (Value.table .header)
        | _, _ => none
      return parent.put s.header.key v)
    s.header.path .header es

def ofSections (first : List Entry) (rest : List Section) : Option Entries := do
  rest.foldlM addSection (← addAll [] first)

end Entries

end SparqlAlgebra.Toml
