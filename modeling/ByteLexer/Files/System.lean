/-! # File systems

A file system keeps the contents of files and says which file a path leads to. Nothing else is asked
of it: several paths may lead to one file. -/
namespace ByteLexer

inductive Fault where
  | absent
  | isDirectory
  | notDirectory
  | nameTooLong
  | denied
  | embeddedNul
  | other (reason : String)
  deriving DecidableEq

def Fault.reason : Fault → String
  | absent => "No such file or directory"
  | isDirectory => "Is a directory"
  | notDirectory => "Not a directory"
  | nameTooLong => "File name too long"
  | denied => "Permission denied"
  | embeddedNul => "embedded null byte"
  | other reason => reason

/-- A file system with states in `σ` and files in `φ`. `create` makes a file or empties the one
that is there. -/
structure FileSystem (σ φ : Type) where
  lookup : σ → String → Except Fault φ
  content : σ → φ → Option (List UInt8)
  create : σ → String → Except Fault (φ × σ)
  append : σ → φ → List UInt8 → σ
  lookup_create {s s' : σ} {path : String} {file : φ} (h : create s path = .ok (file, s')) :
    lookup s' path = .ok file
  content_create {s s' : σ} {path : String} {file : φ} (h : create s path = .ok (file, s')) :
    content s' file = some []
  lookup_create_of_ne {s s' : σ} {path : String} {file other : φ}
    (h : create s path = .ok (file, s')) (hne : other ≠ file) (route : String) :
    lookup s' route = .ok other ↔ lookup s route = .ok other
  content_create_of_ne {s s' : σ} {path : String} {file other : φ}
    (h : create s path = .ok (file, s')) (hne : other ≠ file) : content s' other = content s other
  lookup_append (s : σ) (file other : φ) (bytes : List UInt8) (route : String) :
    lookup (append s file bytes) route = .ok other ↔ lookup s route = .ok other
  content_append {s : σ} {file : φ} {old : List UInt8} (h : content s file = some old)
    (bytes : List UInt8) : content (append s file bytes) file = some (old ++ bytes)
  content_append_of_ne {file other : φ} (hne : other ≠ file) (s : σ) (bytes : List UInt8) :
    content (append s file bytes) other = content s other

namespace FileSystem
variable {σ φ : Type}

def read (fs : FileSystem σ φ) (s : σ) (path : String) : Except Fault (List UInt8) := do
  let file ← fs.lookup s path
  match fs.content s file with
  | some bytes => return bytes
  | none => throw .absent

end FileSystem
end ByteLexer
