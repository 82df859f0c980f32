import ByteLexer.Command.Run

/-! # The command line -/
namespace ByteLexer

/-- The system's number for an error; some calls report it negated. -/
def errorNumber (code : UInt32) : UInt32 := min code (0 - code)

/-- The reason behind a failed file operation; 13, 21 and 36 are the system's numbers for a lack of
permission, for a directory in place of a file and for a name that is too long. -/
def faultOf : IO.Error → Fault
  | .noFileOrDirectory _ _ _ => .absent
  | .inappropriateType _ code _ => if errorNumber code = 21 then .isDirectory else .notDirectory
  | .invalidArgument _ code detail =>
    if errorNumber code = 36 then .nameTooLong else .other detail
  | .permissionDenied _ code detail => if errorNumber code = 13 then .denied else .other detail
  | e => .other (toString e)

def onDisk {α : Type} (path : String) (action : IO α) : IO (Except Fault α) := do
  if path.toList.contains '\x00' then return .error .embeddedNul
  try return .ok (← action) catch e => return .error (faultOf e)

/-- Something stands at a path that may not be read. Only files and directories are opened to find
out: opening anything else might wait, or take what is there. -/
def isUnreadable (path : String) : IO Bool := do
  match ← onDisk path (do (← IO.FS.realPath path).metadata) with
  | .ok found =>
    if found.type == .file || found.type == .dir then
      return (← onDisk path (IO.FS.Handle.mk path .read)) matches .error .denied
    else return false
  | .error _ => return false

def machine : Host IO IO.FS.Handle where
  input := do return (← (← IO.getStdin).readBinToEnd).toList
  read path := onDisk path do return (← IO.FS.readBinFile path).toList
  unreadable := isUnreadable
  create path := onDisk path (IO.FS.Handle.mk path .write)
  append file bytes := file.write ⟨bytes.toArray⟩

end ByteLexer

def main (arguments : List String) : IO UInt32 := do
  let report ← ByteLexer.Command.run ByteLexer.machine arguments (← IO.getEnv "KUMO_LOG_LEVEL")
  IO.print report.stdout
  IO.eprint report.stderr
  return UInt32.ofNat report.exitCode
