import SparqlAlgebra.Json.Value

/-!
Taking typed values out of JSON: scalars, lists, records written as objects or as arrays of their
fields, and variants written as a name or as an object with one field.
-/

namespace SparqlAlgebra.Json

def bool? : Json → Option Bool
  | bool b => some b
  | _ => none

def string? : Json → Option String
  | str s => some s
  | _ => none

/-- An integer that 64 bits hold without sign. -/
def uint64? : Json → Option UInt64
  | int n => if 0 ≤ n ∧ n < UInt64.size then some (.ofNat n.toNat) else none
  | _ => none

def list? {α : Type} (item : Json → Option α) : Json → Option (List α)
  | arr items => items.mapM item
  | _ => none

def pair? {α β : Type} (first : Json → Option α) (second : Json → Option β) : Json → Option (α × β)
  | arr [a, b] => do return (← first a, ← second b)
  | _ => none

/-- `null` for an absent value. -/
def nullable? {α : Type} (value : Json → Option α) : Json → Option (Option α)
  | null => some none
  | j => (value j).map some

/-- The pairs of an object whose values all decode. -/
def entries? {α : Type} (value : Json → Option α) : Json → Option (List (String × α))
  | obj fields => fields.mapM fun f => (value f.2).map (f.1, ·)
  | _ => none

/-- The values of a record's fields, absent ones as `none`. In an object a field stands at most
once, in any order, among others that are ignored; an array lists the first fields in order. -/
def record (names : List String) : Json → Option (List (Option Json))
  | obj fields =>
    names.mapM fun name =>
      match fields.filter (·.1 == name) with
      | [] => some none
      | [f] => some (some f.2)
      | _ => none
  | arr items =>
    if items.length ≤ names.length then
      some ((List.range names.length).map fun i => items[i]?)
    else none
  | _ => none

/-- A field that must be there. -/
def required {α : Type} (value : Json → Option α) (field : Option Json) : Option α :=
  field.bind value

/-- A field that has a value when it is absent. -/
def withDefault {α : Type} (default : α) (value : Json → Option α) : Option Json → Option α
  | none => some default
  | some j => value j

/-- The tag and the content of a tagged value, a record of the two. In an object a content that
stands before its tag has to be usable as a whole. -/
def tagged (tag content : String) (j : Json) : Option (Option Json × Option Json) := do
  let [t, c] ← j.record [tag, content] | none
  match j with
  | obj fields =>
    let first := fields.find? fun f => f.1 == tag || f.1 == content
    if first.any (·.1 == content) && !c.all usable then none
  | _ => pure ()
  return (t, c)

/-- A variant's name and content: a bare name, or the only field of an object. -/
def variant? : Json → Option (String × Option Json)
  | str s => some (s, none)
  | obj [(name, j)] => some (name, some j)
  | _ => none

/-- The name of a variant without content, which may be written as `null`. -/
def unit? (j : Json) : Option String :=
  match j.variant? with
  | some (name, none) => some name
  | some (name, some null) => some name
  | _ => none

end SparqlAlgebra.Json
