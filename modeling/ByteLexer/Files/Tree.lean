import ByteLexer.Files.Path
import ByteLexer.Files.System

/-! # File trees

Files and directories below a root, and how a path is looked up among them. -/
namespace ByteLexer

inductive Node where
  | file (content : List UInt8)
  | directory
  deriving DecidableEq

abbrev Location := List String

structure FileTree where
  entries : List (Location × Node)
  here : Location

namespace FileTree

def empty : FileTree := ⟨[(["working directory"], .directory)], ["working directory"]⟩

/-- What is at a location; the root is always there. -/
def node? (t : FileTree) (location : Location) : Option Node :=
  if location = [] then some .directory else t.entries.lookup location

def put (t : FileTree) (location : Location) (node : Node) : FileTree :=
  { t with entries := (location, node) :: t.entries.filter (·.1 ≠ location) }

theorem node?_put (t : FileTree) {location : Location} (node : Node) (h : location ≠ []) :
    (t.put location node).node? location = some node := by
  simp [node?, put, h]

private theorem lookup_filter_ne {location other : Location} (entries : List (Location × Node))
    (h : other ≠ location) :
    (entries.filter (·.1 ≠ location)).lookup other = entries.lookup other := by
  induction entries with
  | nil => rfl
  | cons entry entries ih =>
    by_cases he : entry.1 = location
    · have ho : (other == entry.1) = false := by simpa [he] using h
      rw [List.filter_cons_of_neg (by simpa using he), ih, List.lookup_cons, ho]
    · rw [List.filter_cons_of_pos (by simpa using he), List.lookup_cons, List.lookup_cons, ih]

theorem node?_put_of_ne (t : FileTree) {location other : Location} (node : Node)
    (h : other ≠ location) : (t.put location node).node? other = t.node? other := by
  have hb : (other == location) = false := by simpa using h
  by_cases hn : other = []
  · simp [node?, hn]
  · rw [node?, node?, if_neg hn, if_neg hn, put, List.lookup_cons, hb]
    exact lookup_filter_ne t.entries h

def makeParents (t : FileTree) (location : Location) : FileTree :=
  ((List.range location.length).map location.take).foldl
    (fun t l => if t.node? l = none then t.put l .directory else t) t

def add (t : FileTree) (names : Location) (node : Node) : FileTree :=
  (t.makeParents (t.here ++ names)).put (t.here ++ names) node

def addDirectory (t : FileTree) (names : Location) : FileTree := t.add names .directory

def addFile (t : FileTree) (names : Location) (content : List UInt8) : FileTree :=
  t.add names (.file content)

def files (t : FileTree) : List (Location × List UInt8) :=
  t.entries.filterMap fun (location, node) =>
    match node with
    | .file content =>
      if t.here.isPrefixOf location then some (location.drop t.here.length, content) else none
    | .directory => none

def find (t : FileTree) (directory : Location) (name : String) : Except Fault (Option Node) :=
  if Path.maxName < name.utf8ByteSize then .error .nameTooLong
  else .ok (t.node? (directory ++ [name]))

/-- Goes from a directory into the one under a name. Above the root there is nothing. -/
def enter (t : FileTree) (directory : Location) (name : String) : Except Fault Location :=
  if name = "." then .ok directory
  else if name = ".." then .ok directory.dropLast
  else match t.find directory name with
    | .error fault => .error fault
    | .ok (some .directory) => .ok (directory ++ [name])
    | .ok (some (.file _)) => .error .notDirectory
    | .ok none => .error .absent

def start (t : FileTree) (path : String) : Location := if Path.root path = "" then t.here else []

/-- What a path aims at once all directories on the way are entered: for certain a directory if it
ends in a dot name or has no names. -/
inductive Aim where
  | directory
  | entry (directory : Location) (name : String)

def aim (t : FileTree) (path : String) : Except Fault Aim :=
  if path.toList.contains '\x00' then .error .embeddedNul
  else if path = "" then .error .absent
  else if Path.maxPath < path.utf8ByteSize then .error .nameTooLong
  else do
    let directory ← (Path.names path).dropLast.foldlM t.enter (t.start path)
    match (Path.names path).getLast? with
    | none => return .directory
    | some name => return if name = "." ∨ name = ".." then .directory else .entry directory name

def lookup (t : FileTree) (path : String) : Except Fault Location :=
  match t.aim path with
  | .error fault => .error fault
  | .ok .directory => .error .isDirectory
  | .ok (.entry directory name) =>
    match t.find directory name with
    | .error fault => .error fault
    | .ok none => .error .absent
    | .ok (some .directory) => .error .isDirectory
    | .ok (some (.file _)) =>
      if Path.endsInSlash path then .error .notDirectory else .ok (directory ++ [name])

def content (t : FileTree) (location : Location) : Option (List UInt8) :=
  match t.node? location with
  | some (.file content) => some content
  | _ => none

/-- Opens a file for writing: an empty file takes the place of one that is there. -/
def create (t : FileTree) (path : String) : Except Fault (Location × FileTree) :=
  match t.aim path with
  | .error fault => .error fault
  | .ok .directory => .error .isDirectory
  | .ok (.entry directory name) =>
    if Path.endsInSlash path then .error .isDirectory
    else match t.find directory name with
      | .error fault => .error fault
      | .ok (some .directory) => .error .isDirectory
      | .ok _ => .ok (directory ++ [name], t.put (directory ++ [name]) (.file []))

def append (t : FileTree) (location : Location) (bytes : List UInt8) : FileTree :=
  match t.content location with
  | some old => t.put location (.file (old ++ bytes))
  | none => t

end FileTree
end ByteLexer
