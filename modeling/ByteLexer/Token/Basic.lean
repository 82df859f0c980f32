import ByteLexer.Token.Kind

/-! # Tokens

A token is a kind with an optional text. The text counts only for kinds without a fixed spelling. -/
namespace ByteLexer

structure Token where
  kind : Kind
  text : Option String
  deriving DecidableEq

namespace Token

def unit (kind : Kind) : Token := ⟨kind, none⟩

def payload (kind : Kind) (text : String) : Token := ⟨kind, some text⟩

/-- How the token is spelled in a source. -/
def lexeme (t : Token) : String :=
  match t.kind.spelling? with
  | some spelling => spelling
  | none => t.text.getD ""

/-- The printed form: the name of the kind, and the text in quotes if the kind carries one. -/
def render (t : Token) : String :=
  match t.kind.spelling? with
  | some _ => t.kind.name
  | none => t.kind.name ++ "(\"" ++ t.text.getD "" ++ "\")"

def renderLines (ts : List Token) : String := String.join (ts.map fun t => t.render ++ "\n")

@[simp] theorem renderLines_nil : renderLines [] = "" := rfl

@[simp] theorem renderLines_cons (t : Token) (ts : List Token) :
    renderLines (t :: ts) = t.render ++ "\n" ++ renderLines ts := String.join_cons

end Token
end ByteLexer
