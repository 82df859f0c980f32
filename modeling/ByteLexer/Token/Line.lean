import ByteLexer.Token.Basic

/-! # Printed lines

Reading a printed token back. The name of the kind ends at the first parenthesis; the text goes up
to the quote and the parenthesis that end the line, so it may hold quotes and parentheses itself. -/
namespace ByteLexer.Token

/-- The text between `("` in front and `")` at the end. -/
def quoted? : List Char → Option String
  | '(' :: '"' :: rest =>
    let inner := rest.length - 2
    if rest.drop inner = ['"', ')'] then some (String.ofList (rest.take inner)) else none
  | _ => none

/-- The token that is printed as this line. -/
def ofLine? (line : List Char) : Option Token :=
  match Kind.ofName (String.ofList (line.takeWhile (· != '('))) with
  | .error _ => none
  | .ok kind =>
    let rest := line.dropWhile (· != '(')
    if kind.hasPayload then (quoted? rest).map (payload kind)
    else if rest = [] then some (unit kind) else none

end ByteLexer.Token
