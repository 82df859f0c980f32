import ByteLexer.Command.Execute

/-! # Outcomes

What a run of the command comes to on a file system, said without the steps that lead there. -/
namespace ByteLexer

namespace FileSystem
variable {σ φ : Type}

def source (fs : FileSystem σ φ) (input : List UInt8) (s : σ) (name : String) :
    Except Fault (List UInt8) :=
  if name = "-" then .ok input else fs.read s (Path.normalise name)

/-- Every other file holds what it held, and is found where it was found. -/
structure SameBut (fs : FileSystem σ φ) (file : φ) (s s' : σ) : Prop where
  content (other : φ) (hne : other ≠ file) : fs.content s' other = fs.content s other
  lookup (other : φ) (hne : other ≠ file) (route : String) :
    fs.lookup s' route = .ok other ↔ fs.lookup s route = .ok other

end FileSystem

/-- What a run leaves, its words on the standard error apart. -/
structure Outcome (σ : Type) where
  exitCode : Nat
  stdout : String
  files : σ

def Outcome.ofRun {σ : Type} (done : Report × σ) : Outcome σ :=
  ⟨done.1.exitCode, done.1.stdout, done.2⟩

namespace Command
variable {σ φ : Type}

/-- What is left once `bytes` were scanned: nothing new if there was no token, else the printed
tokens where they were asked for. -/
def printed (fs : FileSystem σ φ) (s : σ) (output : String) (bytes : List UInt8) : Outcome σ :=
  if tokensOf bytes = [] then ⟨0, "", s⟩
  else if output = "-" then ⟨0, Token.renderLines (tokensOf bytes), s⟩
  else match fs.create s output with
    | .error _ => ⟨1, "", s⟩
    | .ok (file, opened) =>
      ⟨0, "", fs.append opened file (Utf8.encode (Token.renderLines (tokensOf bytes)))⟩

/-- What a request comes to, whatever its level. -/
def outcome (fs : FileSystem σ φ) (input : List UInt8) (s : σ) (source output : String) :
    Outcome σ :=
  match fs.source input s source with
  | .error _ => ⟨1, "", s⟩
  | .ok bytes => printed fs s output bytes

end Command
end ByteLexer
