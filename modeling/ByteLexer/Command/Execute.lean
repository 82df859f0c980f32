import ByteLexer.Command.CommandLine
import ByteLexer.Files.Source

/-! # Running the command

The command scans a source and prints one token per line, over any command line and any host. The
source is read before the output is touched. -/
namespace ByteLexer

variable {m : Type → Type} {φ ω : Type} [Monad m]

namespace Command

/-- Notices are shown at the debug level only. -/
def log (level : Level) (s : Scanner) : String :=
  if level = .debug then
    String.join (s.journal.reverse.map fun n => "DEBUG kumo.tokenize: " ++ n.message ++ "\n")
  else ""

def openSource (host : Host m φ) (r : Request) : m (Except SourceError Scanner) :=
  if r.source = "-" then return .ok (.ofBytes (← host.input)) else Scanner.ofFile host r.source

end Command

namespace CommandLine

/-- Prints the tokens of a scanner, each on a line of its own, and gives the scanner as it is then.
A line that cannot be written ends the printing. -/
def printTokens (line : CommandLine m ω) (o : ω) (s : Scanner) :
    m (Except Report ω × Scanner) :=
  match _h : s.nextToken with
  | (none, s') => return (.ok o, s')
  | (some t, s') => do
    match ← line.write o (t.render ++ "\n") with
    | .ok o' => line.printTokens o' s'
    | .error failed => return (.error failed, s')
termination_by s.cursor.rest.length
decreasing_by exact Scanner.length_lt_of_nextToken ‹_›

def printOn (line : CommandLine m ω) (r : Request) (s : Scanner) : m Report := do
  match ← line.printTokens (line.output r.output) s with
  | (.ok o, s') => return ⟨0, ← line.close o, Command.log r.level s'⟩
  | (.error failed, s') =>
    return { failed with stderr := Command.log r.level s' ++ failed.stderr }

/-- How a run ends whose source cannot be read. A path with a NUL is no path at all: nothing is said
of it. -/
def sourceFailure (line : CommandLine m ω) (e : SourceError) : Report :=
  match e.fault with
  | .embeddedNul => ⟨1, "", ""⟩
  | _ => line.failure e.message

def execute (line : CommandLine m ω) (host : Host m φ) (r : Request) : m Report := do
  match ← Command.openSource host r with
  | .ok s => line.printOn r s
  | .error e => return line.sourceFailure e

/-- Runs the command. `environment` is the level that the environment asks for. -/
def run (line : CommandLine m ω) (host : Host m φ) (arguments : List String)
    (environment : Option String) : m Report := do
  match ← line.accept arguments environment with
  | .ok r => line.execute host r
  | .error halted => return halted

end CommandLine
end ByteLexer
