import ByteLexer.Scan.Event

/-! # Line ends

The source with a carriage return before each newline, and what is found then. -/
namespace ByteLexer

def carriageReturn : UInt8 := 0x0D

/-- The source with each newline replaced by a carriage return and a newline. -/
def crlf (source : List UInt8) : List UInt8 :=
  source.flatMap fun b => if b = newline then [carriageReturn, newline] else [b]

def Token.withReturn (t : Token) : Token := { t with text := t.text.map (· ++ "\r") }

/-- What was found, a comment with a carriage return if a newline stands behind it in the source. -/
def Event.foundBeforeReturn (source : List UInt8) : Event → Token ⊕ UInt8
  | token _ stop t =>
    .inl (if t.kind = .comment ∧ source[stop]? = some newline then t.withReturn else t)
  | skipped _ byte => .inr byte

end ByteLexer
