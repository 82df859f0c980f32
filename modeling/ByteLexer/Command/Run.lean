import ByteLexer.Command.Arguments
import ByteLexer.Command.Execute
import ByteLexer.Command.Output

/-! # The command line of a host

The command with arguments, files and standard streams as a host has them. -/
namespace ByteLexer

def Command.helpText : String :=
  "Usage: kumo [OPTIONS] [FILENAME]

  Scan FILENAME and print one token per line.

Options:
  -o, --output FILENAME
  --log-level [debug|info|warning|error]
                                  [default: WARNING]
  --help                          Show this message and exit.
"

def Halt.report : Halt → Report
  | .help => ⟨0, Command.helpText, ""⟩
  | .refused _ => ⟨2, "", ""⟩
  | .unusableName => ⟨1, "", ""⟩

variable {m : Type → Type} {φ : Type} [Monad m]

/-- A source that is there and may not be read is refused with the arguments. -/
def CommandLine.ofHost (host : Host m φ) : CommandLine m (Output φ) where
  accept arguments environment := do
    match Arguments.empty.parse arguments with
    | .error refusal => return .error (Halt.refused refusal).report
    | .ok a =>
      let unreadable ← if a.source = "-" then pure false else host.unreadable a.source
      return (Request.ofArguments a environment unreadable).mapError Halt.report
  output := .ofName
  write := Output.write host
  close := Output.close host
  failure := Command.failure

/-- Runs the command. `environment` is the level that the environment asks for. -/
def Command.run (host : Host m φ) (arguments : List String) (environment : Option String) :
    m Report :=
  (CommandLine.ofHost host).run host arguments environment

end ByteLexer
