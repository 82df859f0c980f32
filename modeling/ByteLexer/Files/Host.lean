import ByteLexer.Files.TreeSystem

/-! # Hosts

Where a command gets its input from and keeps its files: anything that can read and write them. -/
namespace ByteLexer

/-- A host whose open files are of type `φ`. `unreadable` holds where something stands that may not
be read, and `create` empties a file that is there. -/
structure Host (m : Type → Type) (φ : Type) where
  input : m (List UInt8)
  read : String → m (Except Fault (List UInt8))
  unreadable : String → m Bool
  create : String → m (Except Fault φ)
  append : φ → List UInt8 → m Unit

/-- A host on a file system, which keeps no permissions. -/
def FileSystem.host {σ φ : Type} (fs : FileSystem σ φ) (input : List UInt8) :
    Host (StateM σ) φ where
  input := pure input
  read path := do return fs.read (← get) path
  unreadable _ := return false
  create path := do
    match fs.create (← get) path with
    | .ok (file, s) => set s; return .ok file
    | .error fault => return .error fault
  append file bytes := modify (fs.append · file bytes)

def FileTree.host (input : List UInt8) : Host (StateM FileTree) Location :=
  FileTree.fileSystem.host input

end ByteLexer
