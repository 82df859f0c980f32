import ByteLexer.Files.Host
import ByteLexer.Scan.Scanner

/-! # Source files -/
namespace ByteLexer

structure SourceError where
  path : String
  fault : Fault
  deriving DecidableEq

/-- A path with a NUL names no file at all. -/
def SourceError.message (e : SourceError) : String :=
  match e.fault with
  | .embeddedNul => e.fault.reason
  | fault => "cannot read source file " ++ e.path ++ ": " ++ fault.reason

/-- A scanner over a file, with the notice that it was read. The file is looked up under the
normalised path; notice and error show the path as given. -/
def Scanner.ofFile {m : Type → Type} {φ : Type} [Monad m] (host : Host m φ) (path : String) :
    m (Except SourceError Scanner) := do
  match ← host.read (Path.normalise path) with
  | .ok content => return .ok ((Scanner.ofBytes content).note (.read content.length path))
  | .error fault => return .error ⟨path, fault⟩

end ByteLexer
