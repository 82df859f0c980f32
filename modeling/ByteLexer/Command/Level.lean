/-! # Log levels -/
namespace ByteLexer

inductive Level where
  | debug | info | warning | error
  deriving DecidableEq

namespace Level

def all : List Level := [debug, info, warning, error]

def name : Level → String
  | debug => "DEBUG"
  | info => "INFO"
  | warning => "WARNING"
  | error => "ERROR"

/-- The level with this name, in capitals or not. -/
def ofText? (text : String) : Option Level := all.find? (·.name == text.toUpper)

def usual : Level := warning

end Level
end ByteLexer
