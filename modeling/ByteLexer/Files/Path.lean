/-! # Paths

A path is a text whose names stand between slashes. -/
namespace ByteLexer.Path

def names (path : String) : List String :=
  ((path.toList.splitOn '/').filter (· ≠ [])).map String.ofList

/-- The slashes in front: two are kept as they are, more than two count as one. -/
def root (path : String) : String :=
  match (path.toList.takeWhile (· = '/')).length with
  | 0 => ""
  | 2 => "//"
  | _ => "/"

/-- The path without the names that mean nothing; the empty path is the working directory. -/
def normalise (path : String) : String :=
  let kept := (names path).filter (· ≠ ".")
  if root path = "" ∧ kept = [] then "." else root path ++ "/".intercalate kept

def endsInSlash (path : String) : Bool := path.toList.getLast? = some '/'

def maxName : Nat := 255

/-- The longest path that can be looked up, in bytes. -/
def maxPath : Nat := 4095

end ByteLexer.Path
