import ByteLexer.Command.Request

/-! # Arguments

How arguments are read: options before and behind the source, of one given more than once the last
value. -/
namespace ByteLexer

inductive Refusal where
  | unknownOption | missingValue | unwantedValue | badLevel | extraArgument
  | unreadable
  deriving DecidableEq

structure Arguments where
  help : Bool
  output : Option String
  level : Option String
  positional : List String
  deriving DecidableEq

namespace Arguments

def empty : Arguments := ⟨false, none, none, []⟩

def source (a : Arguments) : String := a.positional.head?.getD "-"

inductive Flag where
  | output | level | help
  deriving DecidableEq

def Flag.ofLong? : String → Option Flag
  | "--output" => some .output
  | "--log-level" => some .level
  | "--help" => some .help
  | _ => none

inductive Word where
  | positional
  | endOfOptions
  | option (flag : Flag) (value : Option String)
  | unknown
  deriving DecidableEq

/-- An option has a value attached after an equals sign, or directly if its name is one letter.
A lone dash is no option. -/
def Word.of (argument : String) : Word :=
  match argument.toList with
  | ['-', '-'] => .endOfOptions
  | '-' :: c :: rest =>
    let long := String.ofList (argument.toList.takeWhile (· ≠ '='))
    let attached := (argument.toList.dropWhile (· ≠ '=')).tail?.map String.ofList
    match Flag.ofLong? long with
    | some flag => .option flag attached
    | none =>
      if c = 'o' then .option .output (if rest = [] then none else some (String.ofList rest))
      else .unknown
  | _ => .positional

def store (a : Arguments) (flag : Flag) (value : String) : Arguments :=
  match flag with
  | .output => { a with output := some value }
  | .level => { a with level := some value }
  | .help => a

/-- Sorts the arguments from the first on. An option without an attached value takes the next
argument, whatever it looks like. -/
def parse (a : Arguments) : List String → Except Refusal Arguments
  | [] => .ok a
  | argument :: rest =>
    match Word.of argument with
    | .positional => { a with positional := a.positional ++ [argument] }.parse rest
    | .endOfOptions => .ok { a with positional := a.positional ++ rest }
    | .unknown => .error .unknownOption
    | .option .help none => { a with help := true }.parse rest
    | .option .help (some _) => .error .unwantedValue
    | .option flag (some value) => (a.store flag value).parse rest
    | .option flag none =>
      match rest with
      | [] => .error .missingValue
      | value :: rest => (a.store flag value).parse rest

end Arguments

inductive Halt where
  | help
  | refused (refusal : Refusal)
  | unusableName
  deriving DecidableEq

namespace Request

def levelOf (text : String) : Except Halt Level :=
  match Level.ofText? text with
  | some level => .ok level
  | none => .error (.refused .badLevel)

/-- The level comes from the option, else from the environment unless empty there. A bad level given
as an option is found before the source is looked at, one of the environment after. -/
def ofArguments (a : Arguments) (environment : Option String) (unreadable : Bool) :
    Except Halt Request := do
  if a.help then throw .help
  let given ← a.level.mapM levelOf
  if a.source.toList.contains '\x00' then throw .unusableName
  if unreadable then throw (.refused .unreadable)
  let level ← match given, environment.filter (· ≠ "") with
    | some level, _ => pure level
    | none, some text => levelOf text
    | none, none => pure .usual
  if 1 < a.positional.length then throw (.refused .extraArgument)
  return ⟨a.source, a.output.getD "-", level⟩

end Request
end ByteLexer
