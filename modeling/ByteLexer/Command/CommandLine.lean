import ByteLexer.Command.Request
import ByteLexer.Files.System
import ByteLexer.Text.Utf8

/-! # Command lines

What the command takes from the library that reads its arguments and writes its output. Arguments
may be refused for the files they name. An output file is opened, and with it emptied, when the
first text is written on it. -/
namespace ByteLexer

/-- A command line whose outputs are of type `ω`. Closing one gives what was written on the standard
output. -/
structure CommandLine (m : Type → Type) (ω : Type) where
  accept : List String → Option String → m (Except Report Request)
  output : String → ω
  write : ω → String → m (Except Report ω)
  close : ω → m String
  failure : String → Report

namespace CommandLine
variable {m : Type → Type} {σ φ ω : Type} [Monad m]

def writeAll (line : CommandLine m ω) (o : ω) : List String → m (Except Report ω)
  | [] => return .ok o
  | text :: texts => do
    match ← line.write o text with
    | .ok o' => line.writeAll o' texts
    | .error failed => return .error failed

def deliver (line : CommandLine m ω) (name : String) (texts : List String) :
    m (Except Report String) := do
  match ← line.writeAll (line.output name) texts with
  | .ok o => return .ok (← line.close o)
  | .error failed => return .error failed

/-- What a command relies on. Reading the arguments changes no file, a failure has status 1, texts
go to the standard output for a dash and else to a file that the first of them opens. -/
structure Lawful (fs : FileSystem σ φ) (line : CommandLine (StateM σ) ω) : Prop where
  accept_files (arguments : List String) (environment : Option String) (s : σ) :
    ((line.accept arguments environment).run s).2 = s
  failure_exitCode (message : String) : (line.failure message).exitCode = 1
  failure_stdout (message : String) : (line.failure message).stdout = ""
  deliver_standard (texts : List String) (s : σ) :
    (line.deliver "-" texts).run s = (.ok (String.join texts), s)
  deliver_nil (name : String) (s : σ) : (line.deliver name []).run s = (.ok "", s)
  deliver_of_create {name : String} (hname : name ≠ "-") {s opened : σ} {file : φ}
    (h : fs.create s name = .ok (file, opened)) (text : String) (texts : List String) :
    (line.deliver name (text :: texts)).run s =
      (.ok "", fs.append opened file (Utf8.encode (String.join (text :: texts))))
  deliver_of_error {name : String} (hname : name ≠ "-") {s : σ} {fault : Fault}
    (h : fs.create s name = .error fault) (text : String) (texts : List String) :
    ∃ failed, (line.deliver name (text :: texts)).run s = (.error failed, s) ∧
      failed.exitCode = 1 ∧ failed.stdout = ""

end CommandLine
end ByteLexer
