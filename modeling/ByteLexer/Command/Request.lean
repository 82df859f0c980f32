import ByteLexer.Command.Level

/-! # Requests and reports

What the command is asked for, and what a run of it leaves besides files. -/
namespace ByteLexer

/-- What is to be done: scan `source` and print to `output`, a dash meaning a standard stream. -/
structure Request where
  source : String
  output : String
  level : Level
  deriving DecidableEq

structure Report where
  exitCode : Nat
  stdout : String
  stderr : String
  deriving DecidableEq

end ByteLexer
