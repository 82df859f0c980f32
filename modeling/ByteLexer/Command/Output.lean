import ByteLexer.Command.Request
import ByteLexer.Files.Host
import ByteLexer.Text.ControlSequence
import ByteLexer.Text.Quoted
import ByteLexer.Text.Utf8

/-! # Outputs

Where a command prints to. An output file is opened when the first text is written on it, so a
command that writes nothing leaves it as it was. -/
namespace ByteLexer

namespace Command

/-- A line that says what went wrong. A name in it may hold control sequences, and may make one with
the words behind it; the line has none. -/
def errorLine (message : String) : String :=
  ControlSequence.strip ("Error: " ++ message ++ "\n")

def failure (message : String) : Report := ⟨1, "", errorLine message⟩

def outputFailure (path : String) : Fault → Report
  | .embeddedNul => ⟨1, "", ""⟩
  | fault => failure ("Could not open file " ++ Quoted.quote path ++ ": " ++ fault.reason)

end Command

inductive Sink (φ : Type) where
  | standard
  | unopened (path : String)
  | opened (file : φ)

/-- An output with the text written on it so far, which goes to a file when the output is closed. -/
structure Output (φ : Type) where
  sink : Sink φ
  text : String

namespace Output
variable {m : Type → Type} {φ : Type} [Monad m]

def ofName (name : String) : Output φ := ⟨if name = "-" then .standard else .unopened name, ""⟩

def write (host : Host m φ) (o : Output φ) (text : String) : m (Except Report (Output φ)) :=
  match o.sink with
  | .unopened path => do
    match ← host.create path with
    | .ok file => return .ok ⟨.opened file, o.text ++ text⟩
    | .error fault => return .error (Command.outputFailure path fault)
  | sink => return .ok ⟨sink, o.text ++ text⟩

/-- Closes an output and gives what was written on the standard output. -/
def close (host : Host m φ) (o : Output φ) : m String :=
  match o.sink with
  | .standard => return o.text
  | .unopened _ => return ""
  | .opened file => do
    host.append file (Utf8.encode o.text)
    return ""

end Output
end ByteLexer
