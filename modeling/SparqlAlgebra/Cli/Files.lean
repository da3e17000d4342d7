import SparqlAlgebra.Sorted.Map

/-!
Files as a program sees them: a text under each path, or why there is none.
-/

namespace SparqlAlgebra.Cli

/-- Why a file cannot be read. -/
inductive ReadFault where
  | notFound
  | notDirectory
  | isDirectory
  | other (reason : String)
deriving DecidableEq, Repr, Inhabited

namespace ReadFault

/-- The wording of a fault. -/
def message : ReadFault → String
  | notFound => "No such file or directory (os error 2)"
  | notDirectory => "Not a directory (os error 20)"
  | isDirectory => "Is a directory (os error 21)"
  | other reason => reason

/-- Whether there is nothing at all under the path. -/
def isAbsent : ReadFault → Bool
  | notFound => true
  | notDirectory => true
  | _ => false

end ReadFault

abbrev Reading := Except ReadFault String

/-- The parts of a path; a path that ends in a slash ends in an empty part. -/
def parts (path : String) : List String := (path.splitToList (· == '/'))

/-- Files in a working directory, each under the parts of its path. -/
abbrev Files := SortedMap (List String) String

namespace Files

def ofTexts (l : List (String × String)) : Files :=
  SortedMap.ofList (l.map fun e => (parts e.1, e.2))

/-- Whether some file lies below a directory; the working directory is always there. -/
def isDirectory (fs : Files) (dir : List String) : Bool :=
  dir.isEmpty || fs.keys.any fun path => dir.isPrefixOf path && dir != path

/-- Follows the parts of a path from a directory, which is none when the path has left the working
directory. -/
def follow (fs : Files) : Option (List String) → List String → Reading
  | none, [] => .error .isDirectory
  | some _, [] => .error .isDirectory
  | dir, "" :: rest => follow fs dir rest
  | dir, "." :: rest => follow fs dir rest
  | none, ".." :: rest => follow fs none rest
  | some dir, ".." :: rest => follow fs (if dir.isEmpty then none else some dir.dropLast) rest
  | none, _ :: _ => .error .notFound
  | some dir, part :: rest =>
    let path := dir ++ [part]
    match fs.get? path with
    | some text => if rest.isEmpty then .ok text else .error .notDirectory
    | none => if isDirectory fs path then follow fs (some path) rest else .error .notFound

/-- Reads a path; one from the root of the file system leaves the working directory. -/
def read (fs : Files) (path : String) : Reading :=
  match parts path with
  | [] => .error .notFound
  | [""] => .error .notFound
  | "" :: rest => follow fs none rest
  | ps => follow fs (some []) ps

end Files

end SparqlAlgebra.Cli
